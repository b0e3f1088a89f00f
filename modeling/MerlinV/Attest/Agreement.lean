import MerlinV.Attest.Counter
import MerlinV.Lib.Agreement

/-! # Agreement between signer and verifier

The calls on one key directory, interleaved with what an adversary presents to a verifier that keeps its last-seq
cell.  Under a scheme whose signatures are not forged, every accepted quote answers an earlier call of
`merlin_mak_sign_quote` with the nonce the verifier expects, and no call is accepted twice, whatever happens to the
counter file.  Calls are accepted in their order as long as the counter is not lost.
-/
namespace MerlinV
open Lib

section World
variable (C : MakCrypto)

/-- A call of `merlin_mak_sign_quote` that has returned a quote, with its arguments. -/
structure Signing extends Issued C where
  subject : Attestation
  nonce : Vector Byte 32

inductive AttestEvent where
  | mak (call : MakCall C)
  | present (p : Presentation)

/-- The key directory, the verifier's cell, the quotes signed, and what was accepted with the number of quotes
signed by then. -/
structure AttestWorld where
  dir : MakDir
  cell : BitVec 64
  signings : List (Signing C)
  accepted : List (ℕ × Presentation)

def AttestWorld.start (last : BitVec 64) : AttestWorld C := ⟨.empty, last, [], []⟩

variable {C}

def signingOf : MakCall C → Option (Issued C) → Option (Signing C)
  | .sign _ subject nonce _, some q => some { q with subject, nonce }
  | _, _ => none

def attestStep (w : AttestWorld C) : AttestEvent C → AttestWorld C
  | .mak call =>
    { w with
      dir := (makStep w.dir call).1
      signings := w.signings ++ (signingOf call (makStep w.dir call).2).toList }
  | .present p =>
    { w with
      cell := (answer C w.cell p).2.getD w.cell
      accepted := if (answer C w.cell p).1 then w.accepted ++ [(w.signings.length, p)] else w.accepted }

def attestRun (w : AttestWorld C) (es : List (AttestEvent C)) : AttestWorld C := es.foldl attestStep w

/-- The verifier is given the key file of `pk`, and what verifies under `pk` is a record that was signed under it. -/
structure Unforged (pk : C.scheme.Pub) (w : AttestWorld C) (p : Presentation) : Prop where
  key : ∀ pk', p.pubPem.bind C.pemReadPubkey = some pk' → pk' = pk
  signed : C.scheme.verify pk ((p.quote.drop Attestation.sizeof).take ed25519SigLen)
      (p.quote.take Attestation.sizeof) = true →
    ∃ s ∈ w.signings, C.scheme.pubOf s.key = pk ∧ s.quote.take Attestation.sizeof = p.quote.take Attestation.sizeof

def UnforgedRun (pk : C.scheme.Pub) (w : AttestWorld C) : List (AttestEvent C) → Prop
  | [] => True
  | e :: es => (∀ p, e = .present p → Unforged pk w p) ∧ UnforgedRun pk (attestStep w e) es

def CounterKept (w : AttestWorld C) : List (AttestEvent C) → Prop
  | [] => True
  | e :: es => (∀ call, e = .mak call → CounterSafe w.dir call) ∧ CounterKept (attestStep w e) es

/-- The accepted quote is the one the call signed: the subject and the nonce of the call, which is the nonce the
verifier expects, under the trusted key and with its hash. -/
structure Answers (pk : C.scheme.Pub) (s : Signing C) (p : Presentation) : Prop where
  key : C.scheme.pubOf s.key = pk
  nonce : s.nonce = p.nonce
  record : p.quote.take Attestation.sizeof = s.quote.take Attestation.sizeof
  subject : ∃ bootNs, Attestation.codec.get p.quote =
    quoteRecord s.subject p.nonce bootNs (quoteSeqOf s.quote) (C.pubHash pk)

end World

section Steps
variable {C : MakCrypto} {pk : C.scheme.Pub} {w : AttestWorld C} {p : Presentation}

/-- The quote of a call is its record, under the key that the call read. -/
def Signing.Ok (s : Signing C) : Prop :=
  ∃ bootNs seq, s.quote = signedBytes C s.key
    (quoteRecord s.subject s.nonce bootNs seq (C.pubHash (C.scheme.pubOf s.key)))

/-- A call on a directory whose key files belong together leaves it so, and signs what it was asked to. -/
theorem makStep_signing (hpem : PemOk C) {d : MakDir} (hd : KeysOk C d) (call : MakCall C) :
    KeysOk C (makStep d call).1 ∧ ∀ s, signingOf call (makStep d call).2 = some s → s.Ok := by
  cases call with
  | ensure env => exact ⟨merlinMakEnsure_keysOk hd env, nofun⟩
  | sign env subject nonce outCap =>
    cases h : merlinMakSignQuote C d env subject nonce outCap with
    | mk d' quote =>
      cases quote with
      | none =>
        obtain rfl := signQuote_none h
        refine ⟨by simpa [makStep, h] using hd, fun s hs => ?_⟩
        simp only [makStep, h, Option.map_none] at hs
        cases hk : signingKey C d' env.privRead <;> simp [hk, signingOf] at hs
      | some quote =>
        obtain ⟨pubHash, sk, hhash, hkey, hd', hquote⟩ := signQuote_returned h
        have hkeys : KeysOk C d' := by
          rw [hd']
          cases env.seqWrite <;> exact hd
        have hstep : makStep d (.sign env subject nonce outCap) = (d', some ⟨sk, quote⟩) := by
          simp [makStep, h, hkey]
        rw [hstep]
        refine ⟨hkeys, fun s hs => ?_⟩
        obtain rfl := Option.some.inj hs
        rw [pubHash_eq_of_keysOk hpem hd hhash hkey] at hquote
        exact ⟨_, _, hquote⟩

theorem take_signedBytes (sk : C.scheme.Priv) (q : Attestation) :
    (signedBytes C sk q).take Attestation.sizeof = Attestation.codec.put q := by
  rw [signedBytes, ← Attestation.codec_width]
  exact List.take_left' (Attestation.codec.length_put q)

/-- A quote with the record of a signed one carries that record. -/
theorem get_of_take {q : Attestation} {quote : Bytes}
    (h : quote.take Attestation.sizeof = Attestation.codec.put q) : Attestation.codec.get quote = q := by
  rw [← List.take_append_drop Attestation.sizeof quote, h]
  exact Attestation.codec.get_put q _

theorem answer_accepted (h : (answer C w.cell p).1 = true) :
    w.cell < quoteSeqOf p.quote ∧ (Attestation.codec.get p.quote).nonce = p.nonce ∧
      (answer C w.cell p).2 = some (quoteSeqOf p.quote) := by
  rcases merlinMakVerifyQuote_cases C p.quote p.pubPem p.evpOk p.nonce (some w.cell) with
    ⟨⟨hshape, hseq, -⟩, heq⟩ | ⟨-, heq⟩
  · rw [answer, heq]
    simp only [quoteShapeOk, Bool.and_eq_true, decide_eq_true_eq] at hshape
    exact ⟨hseq _ rfl, hshape.2, rfl⟩
  · rw [answer, heq] at h
    cases h

theorem Unforged.answers (hun : Unforged pk w p) (hs : ∀ s ∈ w.signings, s.Ok)
    (h : (answer C w.cell p).1 = true) : ∃ s ∈ w.signings, Answers pk s p := by
  obtain ⟨-, hnonce, -⟩ := answer_accepted h
  obtain ⟨-, -, pk', hpem, hvalid⟩ := verifyQuote_accepted h
  obtain rfl := hun.key pk' hpem
  obtain ⟨s, hmem, hkey, hrecord⟩ := hun.signed hvalid.valid
  obtain ⟨bootNs, seq, hquote⟩ := hs s hmem
  have hget : Attestation.codec.get p.quote =
      quoteRecord s.subject s.nonce bootNs seq (C.pubHash (C.scheme.pubOf s.key)) := by
    apply get_of_take
    rw [← hrecord, hquote, take_signedBytes]
  have hsame : s.nonce = p.nonce := by
    rw [← hnonce, hget]
    rfl
  have hseq : quoteSeqOf s.quote = seq := by
    rw [quoteSeqOf, hquote, get_signedBytes]
    rfl
  refine ⟨s, hmem, hkey, hsame, hrecord.symm, bootNs, ?_⟩
  rw [hget, hseq, hkey, hsame]

theorem Answers.seq {s : Signing C} (h : Answers pk s p) : quoteSeqOf s.quote = quoteSeqOf p.quote := by
  obtain ⟨bootNs, hget⟩ := h.subject
  rw [quoteSeqOf, quoteSeqOf, hget]
  rfl

structure AttestWorld.Ok (pk : C.scheme.Pub) (w : AttestWorld C) : Prop where
  keys : KeysOk C w.dir
  signed : ∀ s ∈ w.signings, s.Ok
  increasing : w.accepted.Pairwise fun x y => quoteSeqOf x.2.quote < quoteSeqOf y.2.quote
  cell : ∀ x ∈ w.accepted, quoteSeqOf x.2.quote ≤ w.cell
  answered : ∀ x ∈ w.accepted, ∃ m < x.1, ∃ s, w.signings[m]? = some s ∧ Answers pk s x.2

theorem AttestWorld.Ok.start (last : BitVec 64) : (AttestWorld.start C last).Ok pk :=
  ⟨.inl rfl, nofun, .nil, nofun, nofun⟩

theorem AttestWorld.Ok.mak (hpem : PemOk C) (h : w.Ok pk) (call : MakCall C) : (attestStep w (.mak call)).Ok pk := by
  obtain ⟨hkeys, hsigned⟩ := makStep_signing hpem h.keys call
  refine ⟨hkeys, fun s hs => ?_, h.increasing, h.cell, fun x hx => ?_⟩
  · rcases List.mem_append.mp hs with hs | hs
    · exact h.signed s hs
    · exact hsigned s (Option.mem_toList.mp hs)
  · obtain ⟨m, hm, s, hs, ha⟩ := h.answered x hx
    refine ⟨m, hm, s, ?_, ha⟩
    obtain ⟨hlt, -⟩ := List.getElem?_eq_some_iff.mp hs
    exact (List.getElem?_append_left hlt).trans hs

theorem AttestWorld.Ok.present (h : w.Ok pk) (hun : Unforged pk w p) : (attestStep w (.present p)).Ok pk := by
  cases hans : (answer C w.cell p).1 with
  | false =>
    have hcell : (answer C w.cell p).2 = some w.cell := verifyQuote_rejected hans
    have hsame : attestStep w (.present p) = w := by
      simp [attestStep, hans, hcell]
    rw [hsame]
    exact h
  | true =>
    obtain ⟨hlt, -, hcell⟩ := answer_accepted hans
    obtain ⟨s, hmem, ha⟩ := hun.answers h.signed hans
    obtain ⟨m, hm, hget⟩ := List.mem_iff_getElem.mp hmem
    have hstep : attestStep w (.present p) =
        { w with cell := quoteSeqOf p.quote, accepted := w.accepted ++ [(w.signings.length, p)] } := by
      simp [attestStep, hans, hcell]
    rw [hstep]
    refine ⟨h.keys, h.signed, ?_, fun x hx => ?_, fun x hx => ?_⟩
    · refine List.pairwise_append.mpr ⟨h.increasing, List.pairwise_singleton _ _, fun x hx y hy => ?_⟩
      rw [List.mem_singleton.mp hy]
      exact Nat.lt_of_le_of_lt (h.cell x hx) hlt
    · rcases List.mem_append.mp hx with hx | hx
      · exact BitVec.le_of_lt (Nat.lt_of_le_of_lt (h.cell x hx) hlt)
      · rw [List.mem_singleton.mp hx]
        exact BitVec.le_refl _
    · rcases List.mem_append.mp hx with hx | hx
      · exact h.answered x hx
      · rw [List.mem_singleton.mp hx]
        exact ⟨m, hm, s, by rw [List.getElem?_eq_getElem hm, hget], ha⟩

theorem attestRun_ok (hpem : PemOk C) {es : List (AttestEvent C)} (h : w.Ok pk) (hes : UnforgedRun pk w es) :
    (attestRun w es).Ok pk := by
  induction es generalizing w with
  | nil => exact h
  | cons e es ih =>
    refine ih ?_ hes.2
    cases e with
    | mak call => exact h.mak hpem call
    | present p => exact h.present (hes.1 p rfl)

end Steps

section Counter
variable {C : MakCrypto} {w : AttestWorld C}

/-- What a run that keeps the counter keeps: the numbers signed increase and the file holds the last. -/
structure AttestWorld.Counted (w : AttestWorld C) : Prop where
  dir : w.dir.Ok C
  increasing : w.signings.Pairwise fun s s' => quoteSeqOf s.quote < quoteSeqOf s'.quote
  stored : ∀ s ∈ w.signings, quoteSeqOf s.quote ≤ storedSeq w.dir

theorem AttestWorld.Counted.start (last : BitVec 64) : (AttestWorld.start C last).Counted :=
  ⟨.empty, .nil, nofun⟩

theorem AttestWorld.Counted.mak (hpem : PemOk C) (h : w.Counted) {call : MakCall C}
    (hsafe : CounterSafe w.dir call) : (attestStep w (.mak call)).Counted := by
  obtain ⟨hdir, hcase⟩ := makStep_spec hpem h.dir call hsafe
  rcases hcase with ⟨hnone, hsame⟩ | ⟨q, hsome, hq⟩
  · have hsign : signingOf call (makStep w.dir call).2 = none := by
      rw [hnone]
      cases call <;> rfl
    have hstep : attestStep w (.mak call) = { w with dir := (makStep w.dir call).1 } := by
      simp [attestStep, hsign]
    rw [hstep]
    refine ⟨hdir, h.increasing, fun s hs => ?_⟩
    rw [hsame]
    exact h.stored s hs
  · obtain ⟨s, hs, hquote⟩ : ∃ s, signingOf call (makStep w.dir call).2 = some s ∧ s.quote = q.quote := by
      rw [hsome]
      cases call with
      | ensure env => cases hsome
      | sign env subject nonce outCap => exact ⟨_, rfl, rfl⟩
    have hstep : attestStep w (.mak call) =
        { w with dir := (makStep w.dir call).1, signings := w.signings ++ [s] } := by
      simp [attestStep, hs]
    rw [hstep]
    have habove : ∀ s' ∈ w.signings, quoteSeqOf s'.quote < quoteSeqOf s.quote := by
      intro s' hs'
      rw [hquote]
      exact Nat.lt_of_le_of_lt (h.stored s' hs') hq.above
    refine ⟨hdir, ?_, fun s' hs' => ?_⟩
    · refine List.pairwise_append.mpr ⟨h.increasing, List.pairwise_singleton _ _, fun s' hs' y hy => ?_⟩
      rw [List.mem_singleton.mp hy]
      exact habove s' hs'
    · change quoteSeqOf s'.quote ≤ storedSeq (makStep w.dir call).1
      rw [hq.stored, ← hquote]
      rcases List.mem_append.mp hs' with hs' | hs'
      · exact BitVec.le_of_lt (habove s' hs')
      · rw [List.mem_singleton.mp hs']
        exact BitVec.le_refl _

theorem attestRun_counted (hpem : PemOk C) {es : List (AttestEvent C)} (h : w.Counted) (hes : CounterKept w es) :
    (attestRun w es).Counted := by
  induction es generalizing w with
  | nil => exact h
  | cons e es ih =>
    refine ih ?_ hes.2
    cases e with
    | mak call => exact h.mak hpem (hes.1 call rfl)
    | present p => exact ⟨h.dir, h.increasing, h.stored⟩

end Counter

/-- In every interleaving of calls and presentations in which no signature is forged, signer and verifier agree:
an accepted quote answers a call made before it, two accepted quotes answer two calls, and as long as the counter is
kept the calls are answered in their order. -/
theorem attestRun_agreement (C : MakCrypto) (hpem : PemOk C) (pk : C.scheme.Pub) (last : BitVec 64)
    (es : List (AttestEvent C)) (hes : UnforgedRun pk (AttestWorld.start C last) es) :
    ∃ f, Agreement (Answers pk) (attestRun (AttestWorld.start C last) es).signings
        (attestRun (AttestWorld.start C last) es).accepted f ∧
      (CounterKept (AttestWorld.start C last) es → ∀ i j, i < j →
        j < (attestRun (AttestWorld.start C last) es).accepted.length → f i < f j) := by
  have hok := attestRun_ok hpem (.start last) hes
  have hnum : ∀ (s : Signing C) (p : Presentation), Answers pk s p →
      (quoteSeqOf s.quote).toNat = (quoteSeqOf p.quote).toNat := fun s p h => congrArg BitVec.toNat h.seq
  obtain ⟨f, hf⟩ := exists_agreement hnum hok.increasing hok.answered
  refine ⟨f, hf, fun hkept => ?_⟩
  exact hf.inOrder hnum hok.increasing (attestRun_counted hpem (.start last) hkept).increasing

section Samples

def sampleQuote : Bytes :=
  signedBytes sampleCrypto true (quoteRecord sampleSubject (Vector.replicate 32 9) 0 1 (Vector.replicate 32 1))

def samplePresentation : Presentation := ⟨sampleQuote, some (samplePem true), true, Vector.replicate 32 9⟩

/-- The key is made, a quote is signed, presented and replayed, and a second quote is signed. -/
def sampleAttestRun : List (AttestEvent sampleCrypto) :=
  [.mak (.ensure ⟨true, some true, .upTo 99 true, .upTo 99 true⟩),
    .mak (.sign (signEnv (.upTo 99 true)) sampleSubject (Vector.replicate 32 9) 304),
    .present samplePresentation, .present samplePresentation,
    .mak (.sign (signEnv (.upTo 99 true)) sampleSubject (Vector.replicate 32 8) 304)]

theorem samplePresentation_unforged {w : AttestWorld sampleCrypto}
    (h : (⟨⟨true, sampleQuote⟩, sampleSubject, Vector.replicate 32 9⟩ : Signing sampleCrypto) ∈ w.signings) :
    Unforged (C := sampleCrypto) true w samplePresentation where
  key _ hpk := (Option.some.inj hpk).symm
  signed _ := ⟨_, h, rfl, rfl⟩

theorem attestRun_agreement_sample :
    (attestRun (AttestWorld.start sampleCrypto 0) sampleAttestRun).accepted.length = 1 ∧
    ∃ f, Agreement (Answers (C := sampleCrypto) true)
      (attestRun (AttestWorld.start sampleCrypto 0) sampleAttestRun).signings
      (attestRun (AttestWorld.start sampleCrypto 0) sampleAttestRun).accepted f := by
  have hrun : UnforgedRun (C := sampleCrypto) true (AttestWorld.start sampleCrypto 0) sampleAttestRun := by
    refine ⟨fun p hp => (by cases hp), fun p hp => (by cases hp), fun p hp => ?_, fun p hp => ?_,
      fun p hp => (by cases hp), trivial⟩
    · cases hp
      exact samplePresentation_unforged List.mem_cons_self
    · cases hp
      exact samplePresentation_unforged List.mem_cons_self
  obtain ⟨f, hf, -⟩ := attestRun_agreement sampleCrypto sampleCrypto_pemOk true 0 sampleAttestRun hrun
  exact ⟨by decide +kernel, f, hf⟩

end Samples

end MerlinV
