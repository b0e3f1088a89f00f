import MerlinV.Sign.Object

/-! # The digest of `merlin-objtool`

`cmd_sha256` of `tools/merlin-objtool/merlin-objtool.c` walks the sections that `merlin-sign` hashes.
It passes the length of a fixed section through an `int`, where `merlin-sign` counts in 64 bits.
-/
namespace MerlinV
open Lib

section Walk

/-- `sha256_section`: what it feeds to the digest, and the `int` it returns. -/
def sha256Section (o : ElfObject) (name : Bytes) : Bytes × BitVec 32 :=
  match o.findNamed name with
  | none => ([], 0#32)
  | some s => (s.contents, BitVec.ofNat 32 s.contents.length)

/-- The loop over the fixed sections, with what has been fed and the total; a negative length ends it. -/
def sha256Fixed (o : ElfObject) : List Bytes → Bytes × BitVec 64 → Option (Bytes × BitVec 64)
  | [], fed => some fed
  | name :: names, (fed, total) =>
    let (bytes, n) := sha256Section o name
    if n.slt 0#32 then none else sha256Fixed o names (fed ++ bytes, total + n.signExtend 64)

def sha256Text (o : ElfObject) (fed : Bytes × BitVec 64) (s : ElfSection) : Bytes × BitVec 64 :=
  if o.isText s then (fed.1 ++ s.contents, fed.2 + BitVec.ofNat 64 s.contents.length) else fed

/-- The bytes that `cmd_sha256` feeds and the total that it prints; `none` when it fails. -/
def objtoolRegion (o : ElfObject) : Option (Bytes × BitVec 64) :=
  (sha256Fixed o canonicalFixedSections ([], 0#64)).map fun fed => o.sections.foldl (sha256Text o) fed

def cmdSha256 (C : SignCrypto) (o : ElfObject) : Option (C.Digest × BitVec 64) :=
  (objtoolRegion o).map fun fed => (C.sha256 fed.1, fed.2)

end Walk

/-- The two tools both succeed, on the same bytes and with the same total. -/
def DigestsAgree (o : ElfObject) : Prop := objtoolRegion o = some (o.signedRegion, o.signedTotal)

def ElfObject.fixedPiece (o : ElfObject) (name : Bytes) : Bytes :=
  (o.findNamed name).elim [] ElfSection.contents

/-- The lengths of the fixed sections survive the `int`: none becomes negative, and what is cut off
adds up to nothing in 64 bits. -/
structure IntLengths (o : ElfObject) : Prop where
  sign : ∀ name ∈ canonicalFixedSections, (o.fixedPiece name).length % 2 ^ 32 < 2 ^ 31
  cut : 2 ^ 64 ∣ (canonicalFixedSections.map fun name => (o.fixedPiece name).length / 2 ^ 32 * 2 ^ 32).sum

section Agreement

variable {o : ElfObject}

theorem sha256Section_eq (o : ElfObject) (name : Bytes) :
    sha256Section o name = (o.fixedPiece name, BitVec.ofNat 32 (o.fixedPiece name).length) := by
  unfold sha256Section ElfObject.fixedPiece
  cases o.findNamed name with
  | none => rfl
  | some s => rfl

theorem ofNat_slt_zero_iff (n : ℕ) : (BitVec.ofNat 32 n).slt 0#32 = true ↔ 2 ^ 31 ≤ n % 2 ^ 32 := by
  rw [BitVec.slt_zero_iff_msb_cond, BitVec.msb_eq_decide, BitVec.toNat_ofNat]
  simp

theorem signExtend_ofNat {n : ℕ} (h : n % 2 ^ 32 < 2 ^ 31) :
    (BitVec.ofNat 32 n).signExtend 64 = BitVec.ofNat 64 (n % 2 ^ 32) := by
  have hmsb : (BitVec.ofNat 32 n).msb = false := by
    rw [BitVec.msb_eq_decide, BitVec.toNat_ofNat]
    simpa using h
  rw [BitVec.signExtend_eq_setWidth_of_msb_false hmsb]
  apply BitVec.eq_of_toNat_eq
  rw [BitVec.toNat_setWidth, BitVec.toNat_ofNat, BitVec.toNat_ofNat]

/-- The loop over the fixed sections fails at the first length that becomes negative. -/
theorem sha256Fixed_eq (o : ElfObject) (names : List Bytes) (fed : Bytes) (total : BitVec 64) :
    sha256Fixed o names (fed, total) =
      if ∀ name ∈ names, (o.fixedPiece name).length % 2 ^ 32 < 2 ^ 31 then
        some (fed ++ (names.map o.fixedPiece).flatten,
          total + BitVec.ofNat 64 (names.map fun name => (o.fixedPiece name).length % 2 ^ 32).sum)
      else none := by
  induction names generalizing fed total with
  | nil => simp [sha256Fixed]
  | cons name names ih =>
    rw [sha256Fixed, sha256Section_eq]
    dsimp only
    by_cases hneg : 2 ^ 31 ≤ (o.fixedPiece name).length % 2 ^ 32
    · rw [if_pos ((ofNat_slt_zero_iff _).mpr hneg), if_neg fun h => not_lt.mpr hneg (h name List.mem_cons_self)]
    · rw [if_neg fun h => hneg ((ofNat_slt_zero_iff _).mp h), ih, signExtend_ofNat (not_le.mp hneg)]
      simp only [List.forall_mem_cons, not_le.mp hneg, true_and, List.map_cons, List.flatten_cons, List.sum_cons,
        List.append_assoc, BitVec.ofNat_add, BitVec.add_assoc]

theorem foldl_sha256Text (o : ElfObject) (sections : List ElfSection) (fed : Bytes) (total : BitVec 64) :
    sections.foldl (sha256Text o) (fed, total) =
      (fed ++ ((sections.filter o.isText).map ElfSection.contents).flatten,
        total + BitVec.ofNat 64 ((sections.filter o.isText).map ElfSection.contents).flatten.length) := by
  induction sections generalizing fed total with
  | nil => simp
  | cons s sections ih =>
    rw [List.foldl_cons]
    by_cases ht : o.isText s = true
    · rw [sha256Text, if_pos ht, ih, List.filter_cons_of_pos ht]
      simp [BitVec.ofNat_add, BitVec.add_assoc]
    · rw [sha256Text, if_neg ht, ih, List.filter_cons_of_neg ht]

theorem signedRegion_eq (o : ElfObject) : o.signedRegion = (canonicalFixedSections.map o.fixedPiece).flatten ++
    ((o.sections.filter o.isText).map ElfSection.contents).flatten :=
  List.flatten_append

theorem sum_length_split (names : List Bytes) :
    (names.map o.fixedPiece).flatten.length =
      (names.map fun name => (o.fixedPiece name).length % 2 ^ 32).sum +
        (names.map fun name => (o.fixedPiece name).length / 2 ^ 32 * 2 ^ 32).sum := by
  induction names with
  | nil => rfl
  | cons name names ih =>
    have hdiv := Nat.mod_add_div' (o.fixedPiece name).length (2 ^ 32)
    simp only [List.map_cons, List.flatten_cons, List.length_append, List.sum_cons, ih]
    omega

/-- What `cmd_sha256` feeds when it does not fail is the region. -/
theorem objtoolRegion_eq (o : ElfObject) : objtoolRegion o =
    if ∀ name ∈ canonicalFixedSections, (o.fixedPiece name).length % 2 ^ 32 < 2 ^ 31 then
      some (o.signedRegion, BitVec.ofNat 64
        ((canonicalFixedSections.map fun name => (o.fixedPiece name).length % 2 ^ 32).sum +
          ((o.sections.filter o.isText).map ElfSection.contents).flatten.length))
    else none := by
  rw [objtoolRegion, sha256Fixed_eq]
  split
  · rw [Option.map_some, foldl_sha256Text, List.nil_append, ← signedRegion_eq, BitVec.ofNat_add, BitVec.zero_add]
  · rfl

/-- Where the tools agree, the digest that is printed is the one that gets signed. -/
theorem DigestsAgree.cmdSha256_eq (C : SignCrypto) (h : DigestsAgree o) :
    cmdSha256 C o = some (merlinSigHashSignedRegion C o) := by
  have hregion : objtoolRegion o = some (o.signedRegion, o.signedTotal) := h
  rw [cmdSha256, hregion]
  rfl

end Agreement

/-- The two digests agree if and only if the lengths of the fixed sections survive the `int`. -/
theorem digestsAgree_iff (o : ElfObject) : DigestsAgree o ↔ IntLengths o := by
  have htotal : o.signedTotal = BitVec.ofNat 64
      ((canonicalFixedSections.map fun name => (o.fixedPiece name).length % 2 ^ 32).sum +
        (canonicalFixedSections.map fun name => (o.fixedPiece name).length / 2 ^ 32 * 2 ^ 32).sum +
          ((o.sections.filter o.isText).map ElfSection.contents).flatten.length) := by
    rw [ElfObject.signedTotal, signedRegion_eq, List.length_append, sum_length_split]
  -- the totals agree when what is cut off is a multiple of `2^64`
  have hcut : ∀ a b c : ℕ, BitVec.ofNat 64 (a + c) = BitVec.ofNat 64 (a + b + c) ↔ 2 ^ 64 ∣ b := by
    intro a b c
    rw [← BitVec.toNat_inj, BitVec.toNat_ofNat, BitVec.toNat_ofNat]
    omega
  rw [DigestsAgree, objtoolRegion_eq]
  constructor
  · intro h
    split at h
    · rename_i hsign
      have hsame := (Prod.mk.inj (Option.some.inj h)).2
      rw [htotal] at hsame
      exact ⟨hsign, (hcut _ _ _).mp hsame⟩
    · cases h
  · intro h
    rw [if_pos h.sign, htotal, (hcut _ _ _).mpr h.cut]

section Samples

def btfObject (btf : Bytes) : ElfObject := assembleObject 2 243 [⟨cstr ".merlin.btf", btf, shtProgbits, 0⟩]

theorem btfObject_fixedPiece (b : Byte) (btf : Bytes) :
    (btfObject (b :: btf)).fixedPiece (cstr ".merlin.btf") = b :: btf := by
  rfl

/-- A `.merlin.btf` of `2^31` bytes is hashed by one tool and refused by the other. -/
theorem btfObject_digests_differ :
    objtoolRegion (btfObject (0 :: List.replicate (2 ^ 31 - 1) 0)) = none ∧
      ¬DigestsAgree (btfObject (0 :: List.replicate (2 ^ 31 - 1) 0)) := by
  have hnone : objtoolRegion (btfObject (0 :: List.replicate (2 ^ 31 - 1) 0)) = none := by
    rw [objtoolRegion_eq, if_neg]
    intro h
    have hbtf := h (cstr ".merlin.btf") (by decide)
    rw [btfObject_fixedPiece, List.length_cons, List.length_replicate] at hbtf
    omega
  refine ⟨hnone, fun h => ?_⟩
  rw [DigestsAgree, hnone] at h
  cases h

end Samples

end MerlinV
