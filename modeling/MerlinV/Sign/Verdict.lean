import MerlinV.Sign.Binding

/-! # What the verdict of `verify` depends on

The buffer that `cmd_verify` hands to Ed25519 is 64 bytes of its stack.  `merlin_sig_extract` fills as
many of them as the header says, and accepts any number up to 64, so a shorter signature is completed
by what the stack held before.
-/
namespace MerlinV
open Lib

/-- The verdict is a function of the file and the key, and success means 64 signature bytes that
verify. -/
structure VerdictSound (C : SignCrypto) (pub : Option C.scheme.Pub) (o : ElfObject) : Prop where
  fixed : ∀ stale stale', cmdVerify C pub stale o = cmdVerify C pub stale' o
  carries : ∀ stale, cmdVerify C pub stale o = true → ∃ d pk, o.sigData = some (some d) ∧ pub = some pk ∧
    (d.drop sigHeaderSize).length = sigEd25519Len ∧
      C.scheme.verify pk (d.drop sigHeaderSize) (C.sha256 o.signedRegion) = true
  rejects : ∀ stale d, o.sigData = some (some d) → (SigHeader.codec.get d).sigBytesLen.toNat ≠ sigEd25519Len →
    cmdVerify C pub stale o = false

/-- The section that `merlin_sig_extract` reads holds `d`, which passes every check in front of the
signature itself. -/
structure SigFormed (o : ElfObject) (d : Bytes) : Prop where
  data : o.sigData = some (some d)
  header : sigHeaderSize ≤ d.length
  magic : (SigHeader.codec.get d).magic = sigMagic
  size : (SigHeader.codec.get d).sigSize.toNat = sigHeaderSize
  length : d.length = sigHeaderSize + (SigHeader.codec.get d).sigBytesLen.toNat
  room : (SigHeader.codec.get d).sigBytesLen.toNat ≤ sigEd25519Len
  algo : (SigHeader.codec.get d).algo = sigAlgoEd25519
  signed : o.signedTotal = (SigHeader.codec.get d).signedBlobLen

section Checks

variable {C : SignCrypto} {pub : Option C.scheme.Pub} {o : ElfObject} {d : Bytes} {stale : Vector Byte 64}

theorem SigFormed.length_drop (h : SigFormed o d) :
    (d.drop sigHeaderSize).length = (SigHeader.codec.get d).sigBytesLen.toNat := by
  rw [List.length_drop, h.length, Nat.add_sub_cancel_left]

theorem merlinSigExtract_eq_found {cap : ℕ} {header : SigHeader} {sigBytes : Bytes}
    (h : merlinSigExtract o cap = .found header sigBytes) :
    ∃ d, o.sigData = some (some d) ∧ sigHeaderSize ≤ d.length ∧ header = SigHeader.codec.get d ∧
      sigBytes = d.drop sigHeaderSize ∧ header.magic = sigMagic ∧ header.sigSize.toNat = sigHeaderSize ∧
        d.length = sigHeaderSize + header.sigBytesLen.toNat ∧ header.sigBytesLen.toNat ≤ cap := by
  unfold merlinSigExtract at h
  cases hs : o.findNamed sigName with
  | none => simp [hs] at h
  | some s =>
    cases hd : s.getdata with
    | none => simp [hs, hd] at h
    | some d =>
      simp only [hs, hd] at h
      split_ifs at h with h₁ h₂ h₃ h₄ h₅
      obtain ⟨rfl, rfl⟩ := Extracted.found.inj h
      refine ⟨d, ?_, not_lt.mp h₁, rfl, rfl, not_not.mp h₂, not_not.mp h₃, not_not.mp h₄, not_lt.mp h₅⟩
      simp [ElfObject.sigData, hs, hd]

theorem SigFormed.extract (h : SigFormed o d) :
    merlinSigExtract o sigEd25519Len = .found (SigHeader.codec.get d) (d.drop sigHeaderSize) := by
  have hdata := h.data
  unfold ElfObject.sigData at hdata
  obtain ⟨s, hs, hd⟩ := Option.map_eq_some_iff.mp hdata
  simp only [merlinSigExtract, hs, hd]
  rw [if_neg (not_lt.mpr h.header), if_neg (not_not.mpr h.magic), if_neg (not_not.mpr h.size),
    if_neg (not_not.mpr h.length), if_neg (not_lt.mpr h.room)]

theorem cmdVerify_eq_true_iff : cmdVerify C pub stale o = true ↔
    ∃ d pk, SigFormed o d ∧ pub = some pk ∧
      C.scheme.verify pk (sigBuffer (d.drop sigHeaderSize) stale) (C.sha256 o.signedRegion) = true := by
  constructor
  · intro h
    cases hx : merlinSigExtract o sigEd25519Len with
    | failed => simp [cmdVerify, hx] at h
    | unsigned => simp [cmdVerify, hx] at h
    | found header sigBytes =>
      obtain ⟨d, hdata, hlen, rfl, rfl, hmagic, hsize, htotal, hroom⟩ := merlinSigExtract_eq_found hx
      cases pub with
      | none => simp [cmdVerify, hx] at h
      | some pk =>
        rw [cmdVerify_found hx] at h
        split_ifs at h with halgo hsigned
        exact ⟨d, pk, ⟨hdata, hlen, hmagic, hsize, htotal, hroom, not_not.mp halgo, not_not.mp hsigned⟩, rfl, h⟩
  · rintro ⟨d, pk, hd, rfl, hv⟩
    rw [cmdVerify_found hd.extract, if_neg (not_not.mpr hd.algo), if_neg (not_not.mpr hd.signed)]
    exact hv

/-- What the stack held completes the signature bytes to 64. -/
theorem sigBuffer_eq_append {sigBytes : Bytes} (h : sigBytes.length ≤ 64) (stale : Vector Byte 64) :
    ∃ tail, sigBuffer sigBytes stale = sigBytes ++ tail ∧ (sigBytes ++ tail).length = 64 := by
  refine ⟨stale.toList.drop sigBytes.length, rfl, ?_⟩
  rw [List.length_append, List.length_drop, Vector.length_toList]
  omega

theorem exists_sigBuffer {sigBytes tail : Bytes} (h : (sigBytes ++ tail).length = 64) :
    ∃ stale, sigBuffer sigBytes stale = sigBytes ++ tail := by
  refine ⟨⟨(sigBytes ++ tail).toArray, by simpa using h⟩, ?_⟩
  simp [sigBuffer]

end Checks

/-- The verdict is a function of the file and the key if and only if the file does not carry fewer than
64 signature bytes that can be completed to a signature of the digest. -/
theorem cmdVerify_verdictSound_iff (C : SignCrypto) (pub : Option C.scheme.Pub) (o : ElfObject) :
    VerdictSound C pub o ↔
      ∀ d pk tail, SigFormed o d → (d.drop sigHeaderSize).length < sigEd25519Len → pub = some pk →
        (d.drop sigHeaderSize ++ tail).length = sigEd25519Len →
          C.scheme.verify pk (d.drop sigHeaderSize ++ tail) (C.sha256 o.signedRegion) = false := by
  constructor
  · intro hsound d pk tail hd hshort hpub hlen
    by_contra hv
    rw [Bool.not_eq_false] at hv
    obtain ⟨stale, hbuf⟩ := exists_sigBuffer hlen
    have haccept : cmdVerify C pub stale o = true := by
      refine cmdVerify_eq_true_iff.mpr ⟨d, pk, hd, hpub, ?_⟩
      rw [hbuf]
      exact hv
    have hne : (SigHeader.codec.get d).sigBytesLen.toNat ≠ sigEd25519Len := by
      rw [← hd.length_drop]
      exact hshort.ne
    rw [hsound.rejects stale d hd.data hne] at haccept
    cases haccept
  · intro hno
    -- an accepted file carries all 64 bytes, so the stack is not read
    have hfull : ∀ {d pk stale}, SigFormed o d → pub = some pk →
        C.scheme.verify pk (sigBuffer (d.drop sigHeaderSize) stale) (C.sha256 o.signedRegion) = true →
          (d.drop sigHeaderSize).length = sigEd25519Len := by
      intro d pk stale hd hpub hv
      have hle : (d.drop sigHeaderSize).length ≤ sigEd25519Len := by
        rw [hd.length_drop]
        exact hd.room
      by_contra hne
      obtain ⟨tail, hbuf, hlen⟩ := sigBuffer_eq_append hle stale
      rw [hbuf, hno d pk tail hd (lt_of_le_of_ne hle hne) hpub hlen] at hv
      cases hv
    have hmono : ∀ stale stale', cmdVerify C pub stale o = true → cmdVerify C pub stale' o = true := by
      intro stale stale' h
      obtain ⟨d, pk, hd, hpub, hv⟩ := cmdVerify_eq_true_iff.mp h
      have hlen := hfull hd hpub hv
      refine cmdVerify_eq_true_iff.mpr ⟨d, pk, hd, hpub, ?_⟩
      rw [sigBuffer_full hlen] at hv ⊢
      exact hv
    refine ⟨fun stale stale' => ?_, fun stale h => ?_, fun stale d hdata hne => ?_⟩
    · exact Bool.eq_iff_iff.mpr ⟨hmono stale stale', hmono stale' stale⟩
    · obtain ⟨d, pk, hd, hpub, hv⟩ := cmdVerify_eq_true_iff.mp h
      have hlen := hfull hd hpub hv
      rw [sigBuffer_full hlen] at hv
      exact ⟨d, pk, hd.data, hpub, hlen, hv⟩
    · by_contra h
      rw [Bool.not_eq_false] at h
      obtain ⟨d', pk, hd, hpub, hv⟩ := cmdVerify_eq_true_iff.mp h
      obtain rfl : d = d' := Option.some.inj (Option.some.inj (hdata.symm.trans hd.data))
      rw [← hd.length_drop] at hne
      exact hne (hfull hd hpub hv)

section Samples

def shortSigObject (len : ℕ) : ElfObject :=
  assembleObject 2 243
    [⟨cstr ".merlin.meta", [1, 2], shtProgbits, 0⟩,
      sigSection { signHeader 7 2 with sigBytesLen := BitVec.ofNat 32 len } (List.replicate len 0)]

/-- Under the sample scheme a file that carries 63 of the 64 bytes is accepted or refused by what the
stack held. -/
theorem shortSigObject_not_sound :
    cmdVerify sampleSignCrypto (some ()) (Vector.replicate 64 0) (shortSigObject 63) = true ∧
      cmdVerify sampleSignCrypto (some ()) (Vector.replicate 64 5) (shortSigObject 63) = false ∧
        ¬VerdictSound sampleSignCrypto (some ()) (shortSigObject 63) := by
  have haccept : cmdVerify sampleSignCrypto (some ()) (Vector.replicate 64 0) (shortSigObject 63) = true := by
    decide +kernel
  have hrefuse : cmdVerify sampleSignCrypto (some ()) (Vector.replicate 64 5) (shortSigObject 63) = false := by
    decide +kernel
  refine ⟨haccept, hrefuse, fun h => ?_⟩
  rw [h.fixed _ (Vector.replicate 64 5), hrefuse] at haccept
  cases haccept

end Samples

end MerlinV
