import MerlinV.Attest.Replay

/-! # The sequence counter over a run

Runs of `merlin_mak_ensure` and `merlin_mak_sign_quote` on one key directory in which file operations
may fail or be cut short.  The two key files always belong together.  The counter is another matter:
a failed read counts as zero and a failed write is not noticed, so sequence numbers are unique only in
runs that lose no digit of the counter file.
-/
namespace MerlinV
open Lib

section Decimal

/-- A digit is neither white space nor a sign. -/
theorem ne_of_isDigit {c s : Char} (h : c.isDigit = true) (hs : s.isDigit = false) : c ≠ s := by
  rintro rfl
  rw [h] at hs
  cases hs

theorem isSpace_of_isDigit {c : Char} (h : c.isDigit = true) : isSpace c = false := by
  have hne := fun s => ne_of_isDigit (s := s) h
  simp [isSpace, hne ' ' rfl, hne '\t' rfl, hne '\n' rfl, hne '\x0b' rfl, hne '\x0c' rfl, hne '\r' rfl]

theorem scanLu_digits {ds rest : FileText} (hne : ds ≠ []) (hds : ∀ c ∈ ds, c.isDigit = true)
    (hrest : ∀ c ∈ rest.head?, c.isDigit = false) (hlt : decimalValue ds < 2 ^ 64) :
    scanLu (ds ++ rest) = some (BitVec.ofNat 64 (decimalValue ds)) := by
  obtain ⟨c, ds', rfl⟩ := List.exists_cons_of_ne_nil hne
  have hc := hds c List.mem_cons_self
  have hspace : (c :: ds' ++ rest).dropWhile isSpace = c :: ds' ++ rest := by
    simp [isSpace_of_isDigit hc]
  have hminus : (c :: ds' ++ rest).head? ≠ some '-' := by
    simpa using ne_of_isDigit hc rfl
  have hplus : (c :: ds' ++ rest).head? ≠ some '+' := by
    simpa using ne_of_isDigit hc rfl
  have htake : (c :: ds' ++ rest).takeWhile Char.isDigit = c :: ds' := by
    rw [List.takeWhile_append_of_pos hds]
    cases rest with
    | nil => simp
    | cons x xs => simp [hrest x rfl]
  simp only [scanLu, hspace, hminus, hplus, decide_false, Bool.or_false, Bool.false_eq_true, if_false,
    htake, reduceCtorEq, Nat.not_le.mpr hlt]

/-- A counter file that has lost no digit reads as the number written. -/
theorem scanLu_printLu_take {v : BitVec 64} {n : ℕ} (hn : (Nat.toDigits 10 v.toNat).length ≤ n) :
    scanLu ((printLu v).take n) = some v := by
  have hvalue : decimalValue (Nat.toDigits 10 v.toNat) = v.toNat :=
    Nat.ofDigitChars_toDigits (by norm_num) le_rfl
  have hlt : decimalValue (Nat.toDigits 10 v.toNat) < 2 ^ 64 := by
    rw [hvalue]
    exact v.isLt
  have hrest : ∀ c ∈ (['\n'].take (n - (Nat.toDigits 10 v.toNat).length)).head?, c.isDigit = false := by
    intro c hc
    have hmem := List.mem_of_mem_take (List.mem_of_mem_head? hc)
    rw [List.mem_singleton.mp hmem]
    rfl
  rw [printLu, List.take_append, List.take_of_length_le hn,
    scanLu_digits Nat.toDigits_ne_nil
      (fun c hc => Nat.isDigit_of_mem_toDigits (by norm_num) le_rfl hc) hrest hlt,
    hvalue, BitVec.ofNat_toNat, BitVec.setWidth_eq]

end Decimal

section Runs
variable {C : MakCrypto}

inductive MakCall (C : MakCrypto) where
  | ensure (env : EnsureEnv C)
  | sign (env : SignEnv) (subject : Attestation) (nonce : Vector Byte 32) (outCap : ℕ)

structure Issued (C : MakCrypto) where
  key : C.scheme.Priv
  quote : Bytes

def makStep (d : MakDir) : MakCall C → MakDir × Option (Issued C)
  | .ensure env => ((merlinMakEnsure C d env).1, none)
  | .sign env subject nonce outCap =>
    let (d', quote) := merlinMakSignQuote C d env subject nonce outCap
    (d', (signingKey C d env.privRead).bind fun sk => quote.map fun q => ⟨sk, q⟩)

def makRun (d : MakDir) : List (MakCall C) → List (Issued C)
  | [] => []
  | c :: cs => (makStep d c).2.toList ++ makRun (makStep d c).1 cs

def MakDir.empty : MakDir := ⟨none, none, none⟩

/-- A PEM file that is cut short gives its key or none. -/
structure PemOk (C : MakCrypto) : Prop where
  priv : ∀ sk n sk', C.pemReadPrivateKey ((C.pemWritePrivateKey sk).take n) = some sk' → sk' = sk
  pub : ∀ pk n pk', C.pemReadPubkey ((C.pemWritePubkey pk).take n) = some pk' → pk' = pk

def storedSeq (d : MakDir) : BitVec 64 := (d.seq.bind scanLu).getD 0

/-- Reading the first `n` characters of the counter file loses no digit; a missing file has none. -/
def ReadsCounter (d : MakDir) : ReadOutcome → Prop
  | .fails => d.seq = none
  | .upTo n => ∀ t, d.seq = some t → ∀ c ∈ t.drop n, c.isDigit = false

def WritesCounter (v : BitVec 64) : WriteOutcome → Prop
  | .fails => False
  | .upTo n _ => (Nat.toDigits 10 v.toNat).length ≤ n

/-- The call neither misreads the counter nor loses it, and the counter does not wrap. -/
def CounterSafe (d : MakDir) : MakCall C → Prop
  | .ensure _ => True
  | .sign env _ _ _ => ReadsCounter d env.seqRead ∧ WritesCounter (storedSeq d + 1) env.seqWrite ∧
      storedSeq d ≠ BitVec.allOnes 64

def CounterSafeRun (d : MakDir) : List (MakCall C) → Prop
  | [] => True
  | c :: cs => CounterSafe d c ∧ CounterSafeRun (makStep d c).1 cs

/-- Sequence numbers of one key increase, and every quote names the key that signed it. -/
structure NeverReused (C : MakCrypto) (issued : List (Issued C)) : Prop where
  increasing : issued.Pairwise fun q q' => q.key = q'.key → quoteSeqOf q.quote < quoteSeqOf q'.quote
  signed : ∀ q ∈ issued, q.quote = signedBytes C q.key (Attestation.codec.get q.quote)
  pubHash : ∀ q ∈ issued,
    (Attestation.codec.get q.quote).attestingKeyPubHash = C.pubHash (C.scheme.pubOf q.key)

/-! ## The key files -/

/-- The key files are cut from the two files of one key, or there is no public key yet. -/
def KeysOk (C : MakCrypto) (d : MakDir) : Prop :=
  d.pub = none ∨ ∃ sk n m, d.priv = some ((C.pemWritePrivateKey sk).take n) ∧
    d.pub = some ((C.pemWritePubkey (C.scheme.pubOf sk)).take m)

/-- The public key is written last, so a rewrite never leaves an old one. -/
theorem merlinMakEnsure_keysOk {d : MakDir} (h : KeysOk C d) (env : EnsureEnv C) :
    KeysOk C (merlinMakEnsure C d env).1 := by
  unfold merlinMakEnsure
  split
  · exact h
  split
  · exact h
  rename_i hmissing
  have hpub : d.pub = none := by
    rcases h with h | ⟨sk, n, m, hpriv, hpub⟩
    · exact h
    · simp [hpriv, hpub] at hmissing
  cases env.key with
  | none => exact h
  | some sk =>
    cases env.privWrite with
    | fails => exact h
    | upTo n reported =>
      cases reported with
      | false => exact .inl hpub
      | true =>
        cases env.pubWrite with
        | fails => exact .inl hpub
        | upTo m reported' => exact .inr ⟨sk, n, m, rfl, rfl⟩

theorem merlinMakEnsure_seq (d : MakDir) (env : EnsureEnv C) : (merlinMakEnsure C d env).1.seq = d.seq := by
  unfold merlinMakEnsure
  split
  · rfl
  split
  · rfl
  cases env.key with
  | none => rfl
  | some sk =>
    cases env.privWrite with
    | fails => rfl
    | upTo n reported =>
      cases reported with
      | false => rfl
      | true => cases env.pubWrite <;> rfl

theorem readText_take {t : FileText} {n : ℕ} {r : ReadOutcome} {t' : FileText}
    (h : readText (some (t.take n)) r = some t') : ∃ m, t' = t.take m := by
  cases r with
  | fails => cases h
  | upTo k =>
    obtain rfl := Option.some.inj h
    exact ⟨min k n, List.take_take⟩

theorem pubHash_eq_of_keysOk (hpem : PemOk C) {d : MakDir} (h : KeysOk C d) {r r' : ReadOutcome} {evpOk : Bool}
    {pubHash : Vector Byte 32} {sk : C.scheme.Priv} (hhash : merlinMakPubHash C d r evpOk = some pubHash)
    (hkey : signingKey C d r' = some sk) : pubHash = C.pubHash (C.scheme.pubOf sk) := by
  obtain ⟨t, ht, hhash⟩ := Option.bind_eq_some_iff.mp hhash
  obtain ⟨pk, hpk, hhash⟩ := Option.bind_eq_some_iff.mp hhash
  obtain ⟨t', ht', hsk⟩ := Option.bind_eq_some_iff.mp hkey
  rcases h with hnone | ⟨sk₀, n, m, hpriv, hpub⟩
  · rw [hnone] at ht
    cases r <;> cases ht
  · rw [hpub] at ht
    rw [hpriv] at ht'
    obtain ⟨k, rfl⟩ := readText_take ht
    obtain ⟨k', rfl⟩ := readText_take ht'
    obtain rfl := hpem.pub _ _ _ hpk
    obtain rfl := hpem.priv _ _ _ hsk
    split at hhash
    · exact (Option.some.inj hhash).symm
    · cases hhash

/-! ## The counter file -/

/-- The counter file is missing, or holds the digits of a number. -/
def SeqFileOk (d : MakDir) : Prop :=
  d.seq = none ∨ ∃ v n, d.seq = some ((printLu v).take n) ∧ (Nat.toDigits 10 v.toNat).length ≤ n

theorem storedSeq_of_take {d : MakDir} {v : BitVec 64} {n : ℕ} (h : d.seq = some ((printLu v).take n))
    (hn : (Nat.toDigits 10 v.toNat).length ≤ n) : storedSeq d = v := by
  rw [storedSeq, h, Option.bind_some, scanLu_printLu_take hn, Option.getD_some]

/-- A cut that loses no digit is behind the digits. -/
theorem length_le_of_drop {v : BitVec 64} {n k : ℕ} (hn : (Nat.toDigits 10 v.toNat).length ≤ n)
    (hk : ∀ c ∈ ((printLu v).take n).drop k, c.isDigit = false) : (Nat.toDigits 10 v.toNat).length ≤ k := by
  by_contra hlt
  push Not at hlt
  have hget : (Nat.toDigits 10 v.toNat)[k] ∈ ((printLu v).take n).drop k := by
    rw [printLu, List.take_append, List.take_of_length_le hn,
      List.drop_append_of_le_length hlt.le, List.drop_eq_getElem_cons hlt]
    exact List.mem_append_left _ List.mem_cons_self
  have hdigit := Nat.isDigit_of_mem_toDigits (by norm_num) le_rfl (List.getElem_mem hlt)
  rw [hk _ hget] at hdigit
  cases hdigit

theorem seqRead_eq_stored {d : MakDir} (h : SeqFileOk d) {r : ReadOutcome} (hr : ReadsCounter d r) :
    merlinMakSeqRead d r = storedSeq d := by
  rcases h with hnone | ⟨v, n, hseq, hn⟩
  · rw [merlinMakSeqRead, storedSeq, hnone]
    cases r <;> rfl
  · cases r with
    | fails =>
      rw [show d.seq = none from hr] at hseq
      cases hseq
    | upTo k =>
      have hk := length_le_of_drop hn (hr _ hseq)
      rw [storedSeq_of_take hseq hn, merlinMakSeqRead, hseq]
      simp only [readText, Option.map_some, Option.bind_some, List.take_take]
      rw [scanLu_printLu_take (le_min hk hn), Option.getD_some]

theorem merlinMakSeqWrite_ok {d : MakDir} {v : BitVec 64} {w : WriteOutcome} (hw : WritesCounter v w) :
    SeqFileOk (merlinMakSeqWrite d v w) ∧ storedSeq (merlinMakSeqWrite d v w) = v := by
  cases w with
  | fails => exact hw.elim
  | upTo n reported => exact ⟨.inr ⟨v, n, rfl, hw⟩, storedSeq_of_take rfl hw⟩

theorem lt_add_one_of_ne_allOnes {v : BitVec 64} (h : v ≠ BitVec.allOnes 64) : v < v + 1 := by
  have hne : v.toNat ≠ 2 ^ 64 - 1 := fun heq => h (BitVec.eq_of_toNat_eq (by rw [heq]; rfl))
  have hlt := v.isLt
  rw [BitVec.lt_def, BitVec.toNat_add, Nat.mod_eq_of_lt (by simp; omega)]
  simp

/-! ## Runs -/

structure MakDir.Ok (C : MakCrypto) (d : MakDir) : Prop where
  keys : KeysOk C d
  seq : SeqFileOk d

theorem MakDir.Ok.empty : MakDir.empty.Ok C := ⟨.inl rfl, .inl rfl⟩

structure IssuedStep (C : MakCrypto) (d d' : MakDir) (q : Issued C) : Prop where
  above : storedSeq d < quoteSeqOf q.quote
  stored : storedSeq d' = quoteSeqOf q.quote
  signed : q.quote = signedBytes C q.key (Attestation.codec.get q.quote)
  pubHash : (Attestation.codec.get q.quote).attestingKeyPubHash = C.pubHash (C.scheme.pubOf q.key)

theorem signQuote_none {d d' : MakDir} {env : SignEnv} {subject : Attestation} {nonce : Vector Byte 32}
    {outCap : ℕ} (h : merlinMakSignQuote C d env subject nonce outCap = (d', none)) : d' = d := by
  unfold merlinMakSignQuote at h
  split at h
  · cases h
    rfl
  dsimp only at h
  split at h
  · cases h
    rfl
  split at h
  · cases h
    rfl
  split at h
  · cases h
    rfl
  · cases h

/-- One safe call keeps the files in order; a quote it returns takes the counter up. -/
theorem makStep_spec (hpem : PemOk C) {d : MakDir} (hd : d.Ok C) (c : MakCall C) (hc : CounterSafe d c) :
    (makStep d c).1.Ok C ∧
      ((makStep d c).2 = none ∧ storedSeq (makStep d c).1 = storedSeq d ∨
        ∃ q, (makStep d c).2 = some q ∧ IssuedStep C d (makStep d c).1 q) := by
  cases c with
  | ensure env =>
    have hseq := merlinMakEnsure_seq (C := C) d env
    refine ⟨⟨merlinMakEnsure_keysOk hd.keys env, ?_⟩, .inl ⟨rfl, ?_⟩⟩
    · simpa [SeqFileOk, makStep, hseq] using hd.seq
    · simp [storedSeq, makStep, hseq]
  | sign env subject nonce outCap =>
    obtain ⟨hread, hwrite, hmax⟩ := hc
    cases h : merlinMakSignQuote C d env subject nonce outCap with
    | mk d' quote =>
      cases quote with
      | none =>
        obtain rfl := signQuote_none h
        refine ⟨by simpa [makStep, h] using hd, .inl ⟨?_, by simp [makStep, h]⟩⟩
        simp only [makStep, h, Option.map_none]
        cases signingKey C d' env.privRead <;> rfl
      | some quote =>
        obtain ⟨pubHash, sk, hhash, hkey, hd', hquote⟩ := signQuote_returned h
        have hseq := quoteSeqOf_returned h
        rw [seqRead_eq_stored hd.seq hread] at hd' hseq
        obtain ⟨hfile, hstored⟩ := merlinMakSeqWrite_ok (d := d) hwrite
        rw [← hd'] at hfile hstored
        have hkeys : KeysOk C d' := by
          rw [hd']
          cases env.seqWrite <;> exact hd.keys
        have hstep : makStep d (.sign env subject nonce outCap) = (d', some ⟨sk, quote⟩) := by
          simp [makStep, h, hkey]
        rw [hstep]
        refine ⟨⟨hkeys, hfile⟩, .inr ⟨⟨sk, quote⟩, rfl, ?_, ?_, ?_, ?_⟩⟩
        · rw [hseq]
          exact lt_add_one_of_ne_allOnes hmax
        · rw [hseq, hstored]
        · rw [hquote, get_signedBytes]
        · rw [hquote, get_signedBytes]
          exact pubHash_eq_of_keysOk hpem hd.keys hhash hkey

/-- Along a safe run the quotes lie above the counter it starts with, and increase. -/
theorem makRun_spec (hpem : PemOk C) {d : MakDir} (hd : d.Ok C) {cs : List (MakCall C)}
    (hcs : CounterSafeRun d cs) :
    (∀ q ∈ makRun d cs, storedSeq d < quoteSeqOf q.quote) ∧ NeverReused C (makRun d cs) := by
  induction cs generalizing d with
  | nil => exact ⟨nofun, .nil, nofun, nofun⟩
  | cons c cs ih =>
    obtain ⟨hd', hcase⟩ := makStep_spec hpem hd c hcs.1
    obtain ⟨habove, hrest⟩ := ih hd' hcs.2
    rcases hcase with ⟨hnone, hsame⟩ | ⟨q, hsome, hq⟩
    · have hrun : makRun d (c :: cs) = makRun (makStep d c).1 cs := by simp [makRun, hnone]
      rw [hrun, ← hsame]
      exact ⟨habove, hrest⟩
    · have hrun : makRun d (c :: cs) = q :: makRun (makStep d c).1 cs := by simp [makRun, hsome]
      rw [hq.stored] at habove
      rw [hrun]
      refine ⟨?_, ?_, ?_, ?_⟩
      · intro q' hq'
        rcases List.mem_cons.mp hq' with rfl | hq'
        · exact hq.above
        · exact BitVec.lt_trans hq.above (habove q' hq')
      · exact List.pairwise_cons.mpr ⟨fun q' hq' _ => habove q' hq', hrest.increasing⟩
      · exact List.forall_mem_cons.mpr ⟨hq.signed, hrest.signed⟩
      · exact List.forall_mem_cons.mpr ⟨hq.pubHash, hrest.pubHash⟩

end Runs

/-- In every run from an empty directory that loses no digit of the counter, sequence numbers are
never reused and every quote names its key. -/
theorem makRun_neverReused (C : MakCrypto) (hpem : PemOk C) (cs : List (MakCall C))
    (hcs : CounterSafeRun MakDir.empty cs) : NeverReused C (makRun MakDir.empty cs) :=
  (makRun_spec hpem MakDir.Ok.empty hcs).2

section Samples

theorem sampleUnpem_take {k k' : Bool} {n : ℕ} (h : sampleUnpem ((samplePem k).take n) = some k') :
    k' = k := by
  match n with
  | 0 => cases h
  | 1 => cases h
  | 2 => cases k <;> cases h
  | n + 3 =>
    rw [List.take_of_length_le (by simp [samplePem])] at h
    cases k <;> exact (Option.some.inj h).symm

theorem sampleCrypto_pemOk : PemOk sampleCrypto := ⟨fun _ _ _ => sampleUnpem_take, fun _ _ _ => sampleUnpem_take⟩

/-- The key is made, then two quotes are signed; the first write of the counter ends as given. -/
def sampleRun (w : WriteOutcome) : List (MakCall sampleCrypto) :=
  [.ensure ⟨true, some true, .upTo 99 true, .upTo 99 true⟩,
    .sign (signEnv w) sampleSubject (Vector.replicate 32 9) 304,
    .sign (signEnv (.upTo 99 true)) sampleSubject (Vector.replicate 32 9) 304]

def keyedDir (seq : Option FileText) : MakDir := ⟨some (samplePem true), some (samplePem true), seq⟩

theorem sampleRun_neverReused : NeverReused sampleCrypto (makRun MakDir.empty (sampleRun (.upTo 1 false))) := by
  apply makRun_neverReused sampleCrypto sampleCrypto_pemOk
  have h₁ : CounterSafe (C := sampleCrypto) (keyedDir none)
      (.sign (signEnv (.upTo 1 false)) sampleSubject (Vector.replicate 32 9) 304) :=
    ⟨nofun, show (Nat.toDigits 10 1).length ≤ 1 by decide, by decide⟩
  have h₂ : CounterSafe (C := sampleCrypto) (keyedDir (some ['1']))
      (.sign (signEnv (.upTo 99 true)) sampleSubject (Vector.replicate 32 9) 304) := by
    refine ⟨?_, ?_, by decide +kernel⟩
    · intro t ht c hc
      cases ht
      cases hc
    · change (Nat.toDigits 10 _).length ≤ 99
      decide +kernel
  exact ⟨trivial, h₁, h₂, trivial⟩

/-- The first write of the counter fails: both quotes carry the number one. -/
theorem sampleRun_reused :
    PemOk sampleCrypto ∧ ¬NeverReused sampleCrypto (makRun MakDir.empty (sampleRun .fails)) := by
  refine ⟨sampleCrypto_pemOk, fun h => ?_⟩
  have hrun : ∃ q q', makRun MakDir.empty (sampleRun .fails) = [⟨true, q⟩, ⟨true, q'⟩] ∧
      quoteSeqOf q = 1 ∧ quoteSeqOf q' = 1 := by
    refine ⟨_, _, rfl, ?_, ?_⟩
    · exact quoteSeqOf_returned (show merlinMakSignQuote sampleCrypto (keyedDir none) (signEnv .fails)
        sampleSubject (Vector.replicate 32 9) 304 = (_, some _) from rfl)
    · exact quoteSeqOf_returned (show merlinMakSignQuote sampleCrypto (keyedDir none)
        (signEnv (.upTo 99 true)) sampleSubject (Vector.replicate 32 9) 304 = (_, some _) from rfl)
  obtain ⟨q, q', hrun, hq, hq'⟩ := hrun
  have hlt := h.increasing
  rw [hrun] at hlt
  have hlt' := List.rel_of_pairwise_cons hlt (List.mem_singleton_self _) rfl
  rw [hq, hq'] at hlt'
  exact absurd hlt' (BitVec.lt_irrefl _)

end Samples

end MerlinV
