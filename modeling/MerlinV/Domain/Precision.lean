import MerlinV.Domain.Operators
import MerlinV.Lib.Best

/-! # The tristate operators lose nothing

Each transfer function of `tnum.h` returns the best tristate number for the results of the machine operation: any
other one that contains all of them contains what the function returns.
-/
namespace MerlinV

open Lib (Best)

namespace Tnum

def values (t : Tnum) : Set Word := {x | t.Mem x}

def known (t : Tnum) : Set ℕ := {i | i < 64 ∧ t.mask.getLsbD i = false}

variable {a b t : Tnum} {x y : Word} {i : ℕ}

theorem mem_values : x ∈ t.values ↔ t.Mem x := Iff.rfl

theorem mem_values_iff (h : t.values.Nonempty) (z : Word) :
    z ∈ t.values ↔ ∀ i ∈ t.known, z.getLsbD i = t.value.getLsbD i := by
  obtain ⟨x, hx⟩ := h
  rw [mem_values, mem_iff]
  constructor
  · rintro hz i ⟨hi, hm⟩
    simpa [hm] using hz i hi
  · intro hz i hi
    cases hm : t.mask.getLsbD i with
    | false => simpa using hz i ⟨hi, hm⟩
    | true => simpa [hm] using mem_iff.mp hx i hi

/-- A tristate number is best for values that it contains when each of its open bits is set in one of them and
clear in another. -/
theorem best_of_bits {S : Set Word} (hne : S.Nonempty) (hsound : S ⊆ t.values)
    (hopen : ∀ i < 64, t.mask.getLsbD i = true → ∃ z ∈ S, ∃ z' ∈ S, z.getLsbD i ≠ z'.getLsbD i) :
    Best values S t := by
  refine Best.of_coords (fun t h z => mem_values_iff h z) hne hsound ?_
  rintro t' i ⟨hi, -⟩ hunknown
  refine hopen i hi ?_
  simpa [known, hi] using hunknown

section Members

theorem getLsbD_add_twoPow (z : Word) (hi : i < 64) :
    (z + BitVec.twoPow 64 i).getLsbD i = !z.getLsbD i := by
  have hcarry : BitVec.carry i z (BitVec.twoPow 64 i) false = false := by
    have hpow : 2 ^ i < 2 ^ 64 := Nat.pow_lt_pow_right (by norm_num) hi
    have hlow : (BitVec.twoPow 64 i).toNat % 2 ^ i = 0 := by
      rw [BitVec.toNat_twoPow, Nat.mod_eq_of_lt hpow, Nat.mod_self]
    have hlt : z.toNat % 2 ^ i < 2 ^ i := Nat.mod_lt _ (Nat.two_pow_pos i)
    rw [BitVec.carry, hlow, Bool.toNat_false, decide_eq_false_iff_not]
    omega
  rw [BitVec.getLsbD_add hi, hcarry, BitVec.getLsbD_twoPow]
  simp [hi]

theorem mem_value_add (ha : a.Canonical) (hopen : a.mask.getLsbD i = true) :
    a.Mem (a.value + BitVec.twoPow 64 i) := by
  have hclear : a.value &&& BitVec.twoPow 64 i = 0#64 := by
    apply BitVec.eq_of_getLsbD_eq
    intro j hj
    have hbit := ha.bit i
    rw [hopen, Bool.and_true] at hbit
    simp only [BitVec.getLsbD_and, BitVec.getLsbD_twoPow, BitVec.getLsbD_zero]
    by_cases hij : i = j
    · subst hij
      simp [hbit]
    · simp [hij]
  rw [Lib.add_eq_or hclear, mem_iff]
  intro j hj
  have hvalue := mem_iff.mp (mem_value ha) j hj
  rw [BitVec.getLsbD_or, BitVec.getLsbD_twoPow]
  by_cases hij : i = j
  · subst hij
    simp [hopen] at hvalue ⊢
    exact hvalue
  · simpa [hij] using hvalue

theorem mem_greatest (ha : a.Canonical) : a.Mem (a.value ||| a.mask) := by
  rw [mem_iff]
  intro i hi
  have hvalue := mem_iff.mp (mem_value ha) i hi
  rw [BitVec.getLsbD_or]
  revert hvalue
  cases a.value.getLsbD i <;> cases a.mask.getLsbD i <;> simp

end Members

/-- A transfer function of two operands returns the best number for the results. -/
def Exact (op : Tnum → Tnum → Tnum) (f : Word → Word → Word) : Prop :=
  ∀ a b : Tnum, a.Canonical → b.Canonical → Best values (Set.image2 f a.values b.values) (op a b)

def ExactUnary (op : Tnum → Tnum) (f : Word → Word) : Prop :=
  ∀ a : Tnum, a.Canonical → Best values (f '' a.values) (op a)

section Operators

/-- A sound function is exact when two results differ in each open bit. -/
theorem exact_of_sound {op : Tnum → Tnum → Tnum} {f : Word → Word → Word} (h : Sound op f)
    (hopen : ∀ {a b : Tnum}, a.Canonical → b.Canonical → ∀ i < 64, (op a b).mask.getLsbD i = true →
      ∃ x y x' y', a.Mem x ∧ b.Mem y ∧ a.Mem x' ∧ b.Mem y' ∧ (f x y).getLsbD i ≠ (f x' y').getLsbD i) :
    Exact op f := by
  intro a b ha hb
  refine best_of_bits ⟨_, Set.mem_image2_of_mem (mem_value ha) (mem_value hb)⟩ ?_ ?_
  · rintro - ⟨x, hx, y, hy, rfl⟩
    exact h.mem a b x y ha hb hx hy
  · intro i hi hm
    obtain ⟨x, y, x', y', hx, hy, hx', hy', hne⟩ := hopen ha hb i hi hm
    exact ⟨f x y, Set.mem_image2_of_mem hx hy, f x' y', Set.mem_image2_of_mem hx' hy', hne⟩

theorem exactUnary_of_sound {op : Tnum → Tnum} {f : Word → Word} (h : SoundUnary op f)
    (hopen : ∀ {a : Tnum}, a.Canonical → ∀ i < 64, (op a).mask.getLsbD i = true →
      ∃ x x', a.Mem x ∧ a.Mem x' ∧ (f x).getLsbD i ≠ (f x').getLsbD i) : ExactUnary op f := by
  intro a ha
  refine best_of_bits ⟨_, Set.mem_image_of_mem f (mem_value ha)⟩ ?_ ?_
  · rintro - ⟨x, hx, rfl⟩
    exact h.mem a x ha hx
  · intro i hi hm
    obtain ⟨x, x', hx, hx', hne⟩ := hopen ha i hi hm
    exact ⟨f x, Set.mem_image_of_mem f hx, f x', Set.mem_image_of_mem f hx', hne⟩

/-- An open bit of the sum is open in an operand, or the sums of the least and of the greatest members differ
there. -/
theorem exact_add : Exact add (· + ·) := by
  refine exact_of_sound (.of_mem mem_add) ?_
  intro a b ha hb i hi hm
  have hva := mem_value ha
  have hvb := mem_value hb
  simp only [add, BitVec.getLsbD_or, Bool.or_eq_true] at hm
  rcases hm with (hchi | hma) | hmb
  · refine ⟨_, _, _, _, hva, hvb, mem_greatest ha, mem_greatest hb, ?_⟩
    rw [BitVec.getLsbD_xor] at hchi
    rw [sum_or_eq ha hb]
    intro heq
    rw [heq, Bool.xor_self] at hchi
    cases hchi
  · refine ⟨_, _, _, _, hva, hvb, mem_value_add ha hma, hvb, ?_⟩
    have hsum : a.value + BitVec.twoPow 64 i + b.value = a.value + b.value + BitVec.twoPow 64 i := by ac_rfl
    rw [hsum, getLsbD_add_twoPow _ hi]
    simp
  · refine ⟨_, _, _, _, hva, hvb, hva, mem_value_add hb hmb, ?_⟩
    rw [← BitVec.add_assoc, getLsbD_add_twoPow _ hi]
    simp

theorem exact_sub : Exact sub (· - ·) := by
  refine exact_of_sound (.of_mem mem_sub) ?_
  intro a b ha hb i hi hm
  have hva := mem_value ha
  have hvb := mem_value hb
  simp only [sub, BitVec.getLsbD_or, Bool.or_eq_true] at hm
  rcases hm with (hchi | hma) | hmb
  · refine ⟨_, _, _, _, mem_greatest ha, hvb, hva, mem_greatest hb, ?_⟩
    have hgreatest : (a.value ||| a.mask) - b.value = a.value - b.value + a.mask := by
      rw [← Lib.add_eq_or ha]
      grind
    have hleast : a.value - (b.value ||| b.mask) = a.value - b.value - b.mask := by
      rw [← Lib.add_eq_or hb]
      grind
    rw [BitVec.getLsbD_xor] at hchi
    rw [hgreatest, hleast]
    intro heq
    rw [heq, Bool.xor_self] at hchi
    cases hchi
  · refine ⟨_, _, _, _, hva, hvb, mem_value_add ha hma, hvb, ?_⟩
    have hdiff : a.value + BitVec.twoPow 64 i - b.value = a.value - b.value + BitVec.twoPow 64 i := by grind
    rw [hdiff, getLsbD_add_twoPow _ hi]
    simp
  · refine ⟨_, _, _, _, hva, hvb, hva, mem_value_add hb hmb, ?_⟩
    have hdiff : a.value - b.value = a.value - (b.value + BitVec.twoPow 64 i) + BitVec.twoPow 64 i := by grind
    rw [hdiff, getLsbD_add_twoPow _ hi]
    simp

/-- The least members of both operands clear an open bit of the conjunction and the greatest set it. -/
theorem exact_and : Exact and (· &&& ·) := by
  refine exact_of_sound (.of_mem mem_and) ?_
  intro a b ha hb i hi hm
  refine ⟨_, _, _, _, mem_value ha, mem_value hb, mem_greatest ha, mem_greatest hb, ?_⟩
  simp only [and, BitVec.getLsbD_and, BitVec.getLsbD_or, BitVec.getLsbD_not, hi, decide_true, Bool.true_and] at hm ⊢
  revert hm
  cases a.value.getLsbD i <;> cases b.value.getLsbD i <;> simp

theorem exact_or : Exact or (· ||| ·) := by
  refine exact_of_sound (.of_mem mem_or) ?_
  intro a b ha hb i hi hm
  refine ⟨_, _, _, _, mem_value ha, mem_value hb, mem_greatest ha, mem_greatest hb, ?_⟩
  simp only [or, BitVec.getLsbD_and, BitVec.getLsbD_or, BitVec.getLsbD_not, hi, decide_true, Bool.true_and] at hm ⊢
  revert hm
  cases a.value.getLsbD i <;> cases b.value.getLsbD i <;> cases a.mask.getLsbD i <;> simp

theorem exact_xor : Exact xor (· ^^^ ·) := by
  refine exact_of_sound (.of_mem mem_xor) ?_
  intro a b ha hb i hi hm
  have hva := mem_value ha
  have hvb := mem_value hb
  have hflip : ∀ z : Word, (z + BitVec.twoPow 64 i).getLsbD i = !z.getLsbD i := fun z => getLsbD_add_twoPow z hi
  simp only [xor, BitVec.getLsbD_or, Bool.or_eq_true] at hm
  rcases hm with hma | hmb
  · refine ⟨_, _, _, _, hva, hvb, mem_value_add ha hma, hvb, ?_⟩
    simp only [BitVec.getLsbD_xor, hflip]
    simp
  · refine ⟨_, _, _, _, hva, hvb, hva, mem_value_add hb hmb, ?_⟩
    simp only [BitVec.getLsbD_xor, hflip]
    simp

theorem exact_lshift {k : ℕ} (hk : k < 64) : ExactUnary (lshift · k) (· <<< k) := by
  refine exactUnary_of_sound (.of_mem (mem_lshift hk)) ?_
  intro a ha i hi hm
  rw [lshift, if_neg (not_le.mpr hk)] at hm
  simp only [BitVec.getLsbD_shiftLeft, hi, decide_true, Bool.true_and, Bool.and_eq_true] at hm
  have hlt : i - k < 64 := by omega
  refine ⟨_, _, mem_value ha, mem_value_add ha hm.2, ?_⟩
  simp only [BitVec.getLsbD_shiftLeft, hm.1, Bool.and_true, hi, decide_true, Bool.true_and, getLsbD_add_twoPow _ hlt]
  simp

theorem exact_rshift {k : ℕ} (hk : k < 64) : ExactUnary (rshift · k) (· >>> k) := by
  refine exactUnary_of_sound (.of_mem (mem_rshift hk)) ?_
  intro a ha i hi hm
  rw [rshift, if_neg (not_le.mpr hk)] at hm
  simp only [BitVec.getLsbD_ushiftRight] at hm
  have hlt : k + i < 64 := by
    by_contra hge
    rw [BitVec.getLsbD_of_ge _ _ (not_lt.mp hge)] at hm
    cases hm
  refine ⟨_, _, mem_value ha, mem_value_add ha hm, ?_⟩
  simp only [BitVec.getLsbD_ushiftRight, getLsbD_add_twoPow _ hlt]
  simp

end Operators

section Joins

theorem best_join (ha : a.Canonical) (hb : b.Canonical) : Best values (a.values ∪ b.values) (join a b) := by
  have hva := mem_value ha
  have hvb := mem_value hb
  refine best_of_bits ⟨_, .inl hva⟩ ?_ ?_
  · exact Set.union_subset (fun x hx => mem_join_left b hx) (fun y hy => mem_join_right a hy)
  · intro i hi hm
    simp only [join, BitVec.getLsbD_or, BitVec.getLsbD_xor, Bool.or_eq_true] at hm
    rcases hm with (hma | hmb) | hdiffer
    · refine ⟨_, .inl hva, _, .inl (mem_value_add ha hma), ?_⟩
      rw [getLsbD_add_twoPow _ hi]
      simp
    · refine ⟨_, .inr hvb, _, .inr (mem_value_add hb hmb), ?_⟩
      rw [getLsbD_add_twoPow _ hi]
      simp
    · refine ⟨_, .inl hva, _, .inr hvb, ?_⟩
      intro heq
      rw [heq, Bool.xor_self] at hdiffer
      cases hdiffer

/-- The join of constants, in whatever number, is the best number for them. -/
theorem best_joins (v : Word) (vs : List Word) :
    ((vs.map const).foldl join (const v)).Canonical ∧
      Best values {x | x ∈ v :: vs} ((vs.map const).foldl join (const v)) := by
  have hconst : ∀ w : Word, Best values {w} (const w) := by
    intro w
    have hvalues : (const w).values = {w} := by
      ext x
      rw [mem_values, Mem, const, BitVec.not_zero, BitVec.and_allOnes]
      exact Iff.rfl
    rw [← hvalues]
    exact .self values (const w)
  induction vs using List.reverseRecOn with
  | nil => exact ⟨canonical_const v, by simpa using hconst v⟩
  | append_singleton vs w ih =>
    obtain ⟨hcan, hbest⟩ := ih
    rw [List.map_append, List.foldl_append]
    refine ⟨canonical_join _ _, ?_⟩
    have hset : {x | x ∈ v :: (vs ++ [w])} = {x | x ∈ v :: vs} ∪ {w} := by
      ext x
      simp only [Set.mem_ofPred_eq, List.mem_cons, List.mem_append, List.not_mem_nil, or_false, Set.mem_union,
        Set.mem_singleton_iff, or_assoc]
    rw [hset]
    exact hbest.union (hconst w) (best_join hcan (canonical_const w))

end Joins

/-- No operator of the tristate domain, in either copy of the header, can be replaced by a more precise one. -/
theorem operators_best :
    Exact add (· + ·) ∧ Exact sub (· - ·) ∧ Exact and (· &&& ·) ∧ Exact or (· ||| ·) ∧ Exact xor (· ^^^ ·) ∧
    (∀ k < 64, ExactUnary (lshift · k) (· <<< k)) ∧ (∀ k < 64, ExactUnary (rshift · k) (· >>> k)) ∧
    (∀ a b : Tnum, a.Canonical → b.Canonical → Best values (a.values ∪ b.values) (join a b)) ∧
    (∀ (v : Word) (vs : List Word), Best values {x | x ∈ v :: vs} ((vs.map const).foldl join (const v))) ∧
    Exact Kernel.tnumAdd (· + ·) ∧
    (∀ a b : Tnum, a.Canonical → b.Canonical → Best values (a.values ∪ b.values) (Kernel.tnumJoin a b)) := by
  refine ⟨exact_add, exact_sub, exact_and, exact_or, exact_xor, fun k hk => exact_lshift hk,
    fun k hk => exact_rshift hk, fun a b => best_join, fun v vs => (best_joins v vs).2, ?_, ?_⟩
  · rw [Kernel.tnumAdd_eq]
    exact exact_add
  · rw [Kernel.tnumJoin_eq]
    exact fun a b => best_join

end Tnum

end MerlinV
