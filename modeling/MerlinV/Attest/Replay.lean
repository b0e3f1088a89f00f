import MerlinV.Attest.Quote

/-! # Quotes cannot be replayed

A verifier that keeps one last-seq cell accepts quotes with increasing sequence numbers only, each
under a valid signature, and accepts what the signer produces.
-/
namespace MerlinV
open Lib

variable {C : MakCrypto}

def quoteSeqOf (quote : Bytes) : BitVec 64 := (Attestation.codec.get quote).quoteSeq

/-- A quote with a valid signature: 64 bytes behind the record, over exactly the record. -/
structure ValidSignature (C : MakCrypto) (quote : Bytes) (pk : C.scheme.Pub) : Prop where
  long : Attestation.sizeof + ed25519SigLen ≤ quote.length
  offset : (Attestation.codec.get quote).sigOffset.toNat = Attestation.sizeof
  length : (Attestation.codec.get quote).sigLen.toNat = ed25519SigLen
  valid : C.scheme.verify pk ((quote.drop Attestation.sizeof).take ed25519SigLen)
    (quote.take Attestation.sizeof) = true

section OneCall
variable {quote : Bytes} {pubPem : Option FileText} {evpOk : Bool} {nonce : Vector Byte 32}
  {lastSeq : Option (BitVec 64)}

def Passes (C : MakCrypto) (quote : Bytes) (pubPem : Option FileText) (evpOk : Bool)
    (nonce : Vector Byte 32) (lastSeq : Option (BitVec 64)) : Prop :=
  quoteShapeOk quote nonce = true ∧ (∀ last, lastSeq = some last → last < quoteSeqOf quote) ∧
    quoteSigOk C quote pubPem evpOk = true

theorem merlinMakVerifyQuote_cases (C : MakCrypto) (quote : Bytes) (pubPem : Option FileText)
    (evpOk : Bool) (nonce : Vector Byte 32) (lastSeq : Option (BitVec 64)) :
    (Passes C quote pubPem evpOk nonce lastSeq ∧ merlinMakVerifyQuote C quote pubPem evpOk nonce lastSeq =
        (true, lastSeq.map fun _ => quoteSeqOf quote)) ∨
      (¬Passes C quote pubPem evpOk nonce lastSeq ∧
        merlinMakVerifyQuote C quote pubPem evpOk nonce lastSeq = (false, lastSeq)) := by
  have hany : (lastSeq.any fun last => decide (quoteSeqOf quote ≤ last)) = false ↔
      ∀ last, lastSeq = some last → last < quoteSeqOf quote := by
    cases lastSeq with
    | none => simp
    | some last => simp
  have hdef : merlinMakVerifyQuote C quote pubPem evpOk nonce lastSeq =
      if !quoteShapeOk quote nonce then (false, lastSeq)
      else if lastSeq.any fun last => decide (quoteSeqOf quote ≤ last) then (false, lastSeq)
      else if !quoteSigOk C quote pubPem evpOk then (false, lastSeq)
      else (true, lastSeq.map fun _ => quoteSeqOf quote) := rfl
  rw [hdef, Passes, ← hany]
  cases quoteShapeOk quote nonce with
  | false => simp
  | true =>
    cases lastSeq.any fun last => decide (quoteSeqOf quote ≤ last) with
    | true => simp
    | false => cases quoteSigOk C quote pubPem evpOk <;> simp

theorem verifyQuote_rejected (h : (merlinMakVerifyQuote C quote pubPem evpOk nonce lastSeq).1 = false) :
    (merlinMakVerifyQuote C quote pubPem evpOk nonce lastSeq).2 = lastSeq := by
  rcases merlinMakVerifyQuote_cases C quote pubPem evpOk nonce lastSeq with ⟨-, heq⟩ | ⟨-, heq⟩
  · rw [heq] at h
    cases h
  · rw [heq]

theorem validSignature_of_ok (hshape : quoteShapeOk quote nonce = true)
    (hsig : quoteSigOk C quote pubPem evpOk = true) :
    ∃ pk, pubPem.bind C.pemReadPubkey = some pk ∧ ValidSignature C quote pk := by
  simp only [quoteShapeOk, Bool.and_eq_true, decide_eq_true_eq] at hshape
  obtain ⟨⟨⟨⟨-, hoff⟩, hlen⟩, hlong⟩, -⟩ := hshape
  simp only [quoteSigOk] at hsig
  cases hpk : pubPem.bind C.pemReadPubkey with
  | none => simp [hpk] at hsig
  | some pk =>
    rw [hpk] at hsig
    simp only [hoff, hlen, Bool.and_eq_true] at hsig hlong
    exact ⟨pk, rfl, hlong, hoff, hlen, hsig.2⟩

theorem verifyQuote_accepted (h : (merlinMakVerifyQuote C quote pubPem evpOk nonce lastSeq).1 = true) :
    (∀ last, lastSeq = some last → last < quoteSeqOf quote) ∧
      (merlinMakVerifyQuote C quote pubPem evpOk nonce lastSeq).2 = lastSeq.map (fun _ => quoteSeqOf quote) ∧
      ∃ pk, pubPem.bind C.pemReadPubkey = some pk ∧ ValidSignature C quote pk := by
  rcases merlinMakVerifyQuote_cases C quote pubPem evpOk nonce lastSeq with ⟨⟨hshape, hseq, hsig⟩, heq⟩ | ⟨-, heq⟩
  · rw [heq]
    exact ⟨hseq, rfl, validSignature_of_ok hshape hsig⟩
  · rw [heq] at h
    cases h

end OneCall

section Runs

/-- What is presented to the verifier: a byte string, the key file as it is read, whether OpenSSL
works, and the nonce expected. -/
structure Presentation where
  quote : Bytes
  pubPem : Option FileText
  evpOk : Bool
  nonce : Vector Byte 32

def answer (C : MakCrypto) (last : BitVec 64) (p : Presentation) : Bool × Option (BitVec 64) :=
  merlinMakVerifyQuote C p.quote p.pubPem p.evpOk p.nonce (some last)

/-- The presentations that are accepted, in order, when they share a cell that starts at `last`. -/
def accepted (C : MakCrypto) : BitVec 64 → List Presentation → List Presentation
  | _, [] => []
  | last, p :: ps =>
    let rest := accepted C ((answer C last p).2.getD last) ps
    if (answer C last p).1 then p :: rest else rest

theorem accepted_cons (last : BitVec 64) (p : Presentation) (ps : List Presentation) :
    accepted C last (p :: ps) = accepted C last ps ∧ (answer C last p).1 = false ∨
      accepted C last (p :: ps) = p :: accepted C (quoteSeqOf p.quote) ps ∧ last < quoteSeqOf p.quote ∧
        ∃ pk, p.pubPem.bind C.pemReadPubkey = some pk ∧ ValidSignature C p.quote pk := by
  rw [accepted]
  cases h : (answer C last p).1 with
  | false =>
    left
    have hcell : (answer C last p).2 = some last := verifyQuote_rejected h
    simp [hcell]
  | true =>
    right
    obtain ⟨hseq, hcell, hpk⟩ := verifyQuote_accepted h
    have hcell' : (answer C last p).2 = some (quoteSeqOf p.quote) := hcell
    exact ⟨by simp [hcell'], hseq last rfl, hpk⟩

theorem accepted_increasing (last : BitVec 64) (ps : List Presentation) :
    (∀ p ∈ accepted C last ps, last < quoteSeqOf p.quote) ∧
      (accepted C last ps).Pairwise fun p p' => quoteSeqOf p.quote < quoteSeqOf p'.quote := by
  induction ps generalizing last with
  | nil => exact ⟨nofun, .nil⟩
  | cons p ps ih =>
    rcases accepted_cons last p ps with ⟨h, -⟩ | ⟨h, hlt, -⟩
    · rw [h]
      exact ih last
    · rw [h]
      obtain ⟨habove, hpair⟩ := ih (quoteSeqOf p.quote)
      refine ⟨fun p' hp' => ?_, List.pairwise_cons.mpr ⟨habove, hpair⟩⟩
      rcases List.mem_cons.mp hp' with rfl | hp'
      · exact hlt
      · exact BitVec.lt_trans hlt (habove p' hp')

theorem accepted_signed (last : BitVec 64) (ps : List Presentation) :
    ∀ p ∈ accepted C last ps,
      ∃ pk, p.pubPem.bind C.pemReadPubkey = some pk ∧ ValidSignature C p.quote pk := by
  induction ps generalizing last with
  | nil => nofun
  | cons p ps ih =>
    rcases accepted_cons last p ps with ⟨h, -⟩ | ⟨h, -, hpk⟩
    · rw [h]
      exact ih last
    · rw [h]
      intro p' hp'
      rcases List.mem_cons.mp hp' with rfl | hp'
      · exact hpk
      · exact ih _ p' hp'

end Runs

section Completeness
variable {d d' : MakDir} {env : SignEnv} {subject : Attestation} {nonce : Vector Byte 32} {outCap : ℕ}
  {quote : Bytes}

theorem signQuote_returned (h : merlinMakSignQuote C d env subject nonce outCap = (d', some quote)) :
    ∃ pubHash sk, merlinMakPubHash C d env.pubRead env.hashOk = some pubHash ∧
      signingKey C d env.privRead = some sk ∧
      d' = merlinMakSeqWrite d (merlinMakSeqRead d env.seqRead + 1) env.seqWrite ∧
      quote = signedBytes C sk
        (quoteRecord subject nonce env.bootNs (merlinMakSeqRead d env.seqRead + 1) pubHash) := by
  simp only [merlinMakSignQuote] at h
  split at h
  · cases h
  cases hhash : merlinMakPubHash C d env.pubRead env.hashOk with
  | none => simp [hhash] at h
  | some pubHash =>
    cases hkey : signingKey C d env.privRead with
    | none => simp [hhash, hkey] at h
    | some sk =>
      cases hok : env.signOk with
      | false => simp [hhash, hkey, hok] at h
      | true =>
        simp only [hhash, hkey, hok, Bool.not_true, Bool.false_eq_true, if_false, Prod.mk.injEq,
          Option.some.injEq] at h
        exact ⟨pubHash, sk, rfl, rfl, h.1.symm, h.2.symm⟩

/-- A quote is returned when the buffer is large enough and every operation succeeds. -/
theorem signQuote_returns {pubHash : Vector Byte 32} {sk : C.scheme.Priv}
    (hcap : Attestation.sizeof + ed25519SigLen ≤ outCap)
    (hhash : merlinMakPubHash C d env.pubRead env.hashOk = some pubHash)
    (hkey : signingKey C d env.privRead = some sk) (hok : env.signOk = true) :
    ∃ d' quote, merlinMakSignQuote C d env subject nonce outCap = (d', some quote) := by
  simp [merlinMakSignQuote, hhash, hkey, hok, Nat.not_lt.mpr hcap]

/-- The record can be read back from a quote. -/
theorem get_signedBytes (sk : C.scheme.Priv) (q : Attestation) :
    Attestation.codec.get (signedBytes C sk q) = q :=
  Attestation.codec.get_put q _

theorem quoteSeqOf_returned (h : merlinMakSignQuote C d env subject nonce outCap = (d', some quote)) :
    quoteSeqOf quote = merlinMakSeqRead d env.seqRead + 1 := by
  obtain ⟨pubHash, sk, -, -, -, rfl⟩ := signQuote_returned h
  rw [quoteSeqOf, get_signedBytes]
  rfl

theorem length_signedBytes (sk : C.scheme.Priv) (q : Attestation) :
    (signedBytes C sk q).length = Attestation.sizeof + ed25519SigLen := by
  rw [signedBytes, List.length_append, Attestation.codec.length_put, Attestation.codec_width,
    Vector.length_toList]

/-- A produced quote passes the structural checks with its own nonce. -/
theorem quoteShapeOk_signedBytes (sk : C.scheme.Priv) (bootNs seq : BitVec 64) (pubHash : Vector Byte 32) :
    quoteShapeOk (signedBytes C sk (quoteRecord subject nonce bootNs seq pubHash)) nonce = true := by
  simp [quoteShapeOk, get_signedBytes, length_signedBytes, quoteRecord, Attestation.sizeof,
    ed25519SigLen]

theorem quoteSigOk_signedBytes (hC : C.scheme.Correct) (sk : C.scheme.Priv) (bootNs seq : BitVec 64)
    (pubHash : Vector Byte 32) {pubPem : Option FileText}
    (hpk : pubPem.bind C.pemReadPubkey = some (C.scheme.pubOf sk)) :
    quoteSigOk C (signedBytes C sk (quoteRecord subject nonce bootNs seq pubHash)) pubPem true = true := by
  have hoff : (quoteRecord subject nonce bootNs seq pubHash).sigOffset.toNat = Attestation.codec.width := rfl
  have hlen : (quoteRecord subject nonce bootNs seq pubHash).sigLen.toNat = ed25519SigLen := rfl
  simp only [quoteSigOk, hpk, get_signedBytes, hoff, hlen, Bool.true_and]
  rw [signedBytes, Codec.drop_put, Codec.take_put, List.take_of_length_le (by simp)]
  exact hC sk _

end Completeness

/-- Verification with a shared cell is safe against replay, and a produced quote is accepted. -/
theorem verifyQuote_replay_safe_complete (C : MakCrypto) :
    (∀ (last : BitVec 64) (ps : List Presentation),
      ((accepted C last ps).Pairwise fun p p' => quoteSeqOf p.quote < quoteSeqOf p'.quote) ∧
      ((accepted C last ps).map Presentation.quote).Nodup ∧
      (∀ p ∈ accepted C last ps, last < quoteSeqOf p.quote ∧
        ∃ pk, p.pubPem.bind C.pemReadPubkey = some pk ∧ ValidSignature C p.quote pk)) ∧
    (∀ quote pubPem evpOk nonce lastSeq,
      (merlinMakVerifyQuote C quote pubPem evpOk nonce lastSeq).1 = false →
        (merlinMakVerifyQuote C quote pubPem evpOk nonce lastSeq).2 = lastSeq) ∧
    (∀ d env subject nonce outCap pubHash sk, Attestation.sizeof + ed25519SigLen ≤ outCap →
      merlinMakPubHash C d env.pubRead env.hashOk = some pubHash →
      signingKey C d env.privRead = some sk → env.signOk = true →
        ∃ d' quote, merlinMakSignQuote C d env subject nonce outCap = (d', some quote)) ∧
    (C.scheme.Correct → ∀ d env subject nonce outCap d' quote sk pubPem lastSeq,
      merlinMakSignQuote C d env subject nonce outCap = (d', some quote) →
      signingKey C d env.privRead = some sk →
      pubPem.bind C.pemReadPubkey = some (C.scheme.pubOf sk) →
      (∀ last, lastSeq = some last → last < quoteSeqOf quote) →
        merlinMakVerifyQuote C quote pubPem true nonce lastSeq =
          (true, lastSeq.map fun _ => quoteSeqOf quote)) := by
  refine ⟨fun last ps => ⟨(accepted_increasing last ps).2, ?_, fun p hp =>
    ⟨(accepted_increasing last ps).1 p hp, accepted_signed last ps p hp⟩⟩,
    fun _ _ _ _ _ => verifyQuote_rejected, fun _ _ _ _ _ _ _ => signQuote_returns, ?_⟩
  · -- the same bytes have the same sequence number
    apply List.pairwise_map.mpr
    apply (accepted_increasing last ps).2.imp
    intro p p' hlt heq
    rw [heq] at hlt
    exact absurd hlt (BitVec.lt_irrefl _)
  · intro hC d env subject nonce outCap d' quote sk pubPem lastSeq hsign hkey hpk hlast
    obtain ⟨pubHash, sk', -, hkey', -, rfl⟩ := signQuote_returned hsign
    obtain rfl : sk = sk' := Option.some.inj (hkey.symm.trans hkey')
    rcases merlinMakVerifyQuote_cases C _ pubPem true nonce lastSeq with ⟨-, heq⟩ | ⟨hno, -⟩
    · exact heq
    · exact absurd ⟨quoteShapeOk_signedBytes sk _ _ _, hlast, quoteSigOk_signedBytes hC sk _ _ _ hpk⟩ hno

def samplePem (k : Bool) : FileText := ['<', if k then 'A' else 'B', '>']

def sampleUnpem : FileText → Option Bool
  | ['<', 'A', '>'] => some true
  | ['<', 'B', '>'] => some false
  | _ => none

/-- A scheme with two keys in which a signature repeats the key. -/
def sampleCrypto : MakCrypto where
  scheme := .transparent fun (k : Bool) _ => Vector.replicate 64 (if k then 1 else 2)
  pubHash := fun (k : Bool) => Vector.replicate 32 (if k then 1 else 2)
  pemWritePrivateKey := samplePem
  pemWritePubkey := samplePem
  pemReadPrivateKey := sampleUnpem
  pemReadPubkey := sampleUnpem

def sampleDir : MakDir := ⟨some ['<', 'A', '>'], some ['<', 'A', '>'], some ['6', '\n']⟩

/-- A call in which only the write of the counter may go wrong. -/
def signEnv (w : WriteOutcome) : SignEnv := ⟨0, .upTo 99, .upTo 99, .upTo 99, w, true, true⟩

def sampleSubject : Attestation :=
  Attestation.codec.get (List.replicate 240 0)

theorem sampleQuote_accepted :
    ∃ d' quote, merlinMakSignQuote sampleCrypto sampleDir (signEnv (.upTo 99 true)) sampleSubject
        (Vector.replicate 32 9) 304 = (d', some quote) ∧
      merlinMakVerifyQuote sampleCrypto quote (some ['<', 'A', '>']) true (Vector.replicate 32 9) (some 3) =
        (true, some (quoteSeqOf quote)) := by
  obtain ⟨-, -, hreturns, haccepts⟩ := verifyQuote_replay_safe_complete sampleCrypto
  obtain ⟨d', quote, h⟩ := hreturns sampleDir (signEnv (.upTo 99 true)) sampleSubject
    (Vector.replicate 32 9) 304 (Vector.replicate 32 1) true (by decide) rfl rfl rfl
  have hseq : quoteSeqOf quote = 7 := quoteSeqOf_returned h
  refine ⟨d', quote, h, haccepts (SignatureScheme.transparent_correct _) _ _ _ _ _ _ _ _ _ (some 3) h rfl rfl ?_⟩
  rintro last hlast
  cases hlast
  rw [hseq]
  decide

end MerlinV
