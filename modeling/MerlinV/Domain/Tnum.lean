import MerlinV.Isa.Decode
import MerlinV.Lib.CarryBits

/-! # Tristate numbers

The part of `tools/merlin-verifier/tnum.h` the analysis computes with: constants, top,
the pointwise join and the carry-aware addition, together with the set of 64-bit
values a tristate number stands for.
-/
namespace MerlinV

/-- `struct merlin_tnum`: `mask` holds the unknown bits, `value` the known ones. -/
structure Tnum where
  value : Word
  mask : Word
  deriving DecidableEq, Repr

namespace Tnum

def const (v : Word) : Tnum := ⟨v, 0#64⟩

def top : Tnum := ⟨0#64, ~~~0#64⟩

def isConst (t : Tnum) : Bool := t.mask == 0#64

def equal (a b : Tnum) : Bool := a.value == b.value && a.mask == b.mask

/-- `tnum_join`: a bit stays known when both sides know it and agree. -/
def join (a b : Tnum) : Tnum :=
  let v := a.value &&& b.value
  let mu := a.value ^^^ b.value
  let mask := a.mask ||| b.mask ||| mu
  ⟨v &&& ~~~mask, mask⟩

def add (a b : Tnum) : Tnum :=
  let sm := a.mask + b.mask
  let sv := a.value + b.value
  let sigma := sv + sm
  let chi := sigma ^^^ sv
  let mu := chi ||| a.mask ||| b.mask
  ⟨sv &&& ~~~mu, mu⟩

def Mem (x : Word) (t : Tnum) : Prop := x &&& ~~~t.mask = t.value

/-- The representation invariant the header states: `value & mask == 0`. -/
def Canonical (t : Tnum) : Prop := t.value &&& t.mask = 0#64

theorem equal_iff {a b : Tnum} : equal a b = true ↔ a = b := by
  cases a; cases b
  simp [equal]

theorem mem_iff {x : Word} {t : Tnum} :
    Mem x t ↔ ∀ i < 64, (x.getLsbD i && !t.mask.getLsbD i) = t.value.getLsbD i := by
  rw [Mem, BitVec.eq_of_getLsbD_eq_iff]
  refine forall₂_congr fun i hi => ?_
  simp [hi]

theorem Canonical.bit {t : Tnum} (h : t.Canonical) (i : ℕ) :
    (t.value.getLsbD i && t.mask.getLsbD i) = false := by
  have := congrArg (fun v => v.getLsbD i) h
  simpa using this

theorem canonical_of_mem {x : Word} {t : Tnum} (h : Mem x t) : t.Canonical := by
  apply BitVec.eq_of_getLsbD_eq
  intro i hi
  have hx := mem_iff.mp h i hi
  simp only [BitVec.getLsbD_and, ← hx]
  cases t.mask.getLsbD i <;> simp

theorem mem_const (v : Word) : Mem v (const v) :=
  mem_iff.mpr fun i _ => by simp [const]

theorem mem_top (v : Word) : Mem v top :=
  mem_iff.mpr fun i hi => by
    simp only [top, BitVec.getLsbD_not, BitVec.getLsbD_zero, hi]
    simp

theorem eq_of_mem_isConst {x : Word} {t : Tnum} (hc : t.isConst = true) (h : Mem x t) :
    x = t.value := by
  have hm : t.mask = 0#64 := by simpa [isConst] using hc
  apply BitVec.eq_of_getLsbD_eq
  intro i hi
  have hx := mem_iff.mp h i hi
  simpa [hm] using hx

theorem canonical_const (v : Word) : (const v).Canonical := canonical_of_mem (mem_const v)

theorem canonical_top : top.Canonical := canonical_of_mem (mem_top 0)

theorem canonical_join (a b : Tnum) : (join a b).Canonical := by
  apply BitVec.eq_of_getLsbD_eq
  intro i hi
  simp only [join, BitVec.getLsbD_and, BitVec.getLsbD_or, BitVec.getLsbD_xor, BitVec.getLsbD_not,
    hi, decide_true, Bool.true_and, BitVec.getLsbD_zero]
  generalize a.value.getLsbD i = p
  generalize b.value.getLsbD i = q
  generalize a.mask.getLsbD i = r
  generalize b.mask.getLsbD i = t
  revert p q r t
  decide

theorem canonical_add (a b : Tnum) : (add a b).Canonical := by
  apply BitVec.eq_of_getLsbD_eq
  intro i hi
  simp only [add, BitVec.getLsbD_and, BitVec.getLsbD_not, hi, decide_true, Bool.true_and]
  cases ((a.value + b.value + (a.mask + b.mask) ^^^ a.value + b.value) ||| a.mask |||
    b.mask).getLsbD i <;> simp

theorem join_comm (a b : Tnum) : join a b = join b a := by
  simp only [join, BitVec.and_comm a.value, BitVec.or_comm a.mask, BitVec.xor_comm a.value]

theorem ext_bits {a b : Tnum} (h : ∀ i < 64, a.mask.getLsbD i = b.mask.getLsbD i ∧
    a.value.getLsbD i = b.value.getLsbD i) : a = b := by
  have hm := BitVec.eq_of_getLsbD_eq fun i hi => (h i hi).1
  have hv := BitVec.eq_of_getLsbD_eq fun i hi => (h i hi).2
  cases a; cases b
  simp_all

theorem join_assoc (a b c : Tnum) : join (join a b) c = join a (join b c) := by
  apply ext_bits
  intro i hi
  simp only [join, BitVec.getLsbD_or, BitVec.getLsbD_xor, BitVec.getLsbD_and, BitVec.getLsbD_not,
    hi, decide_true, Bool.true_and]
  generalize a.value.getLsbD i = p
  generalize a.mask.getLsbD i = q
  generalize b.value.getLsbD i = r
  generalize b.mask.getLsbD i = s
  generalize c.value.getLsbD i = t
  generalize c.mask.getLsbD i = u
  revert p q r s t u
  decide

theorem join_self {a : Tnum} (h : a.Canonical) : join a a = a := by
  have hv : a.value &&& ~~~a.mask = a.value := by
    apply BitVec.eq_of_getLsbD_eq
    intro i hi
    have := h.bit i
    simp only [BitVec.getLsbD_and, BitVec.getLsbD_not, hi, decide_true, Bool.true_and]
    revert this
    cases a.value.getLsbD i <;> cases a.mask.getLsbD i <;> simp
  cases a
  simp_all [join]

theorem join_top (a : Tnum) : join a top = top := by
  apply ext_bits
  intro i hi
  simp only [join, top, BitVec.getLsbD_or, BitVec.getLsbD_xor, BitVec.getLsbD_and,
    BitVec.getLsbD_not, BitVec.getLsbD_zero, hi, decide_true, Bool.true_and, Bool.not_false,
    Bool.or_true, Bool.true_or, Bool.not_true, Bool.and_false, and_self]

/-- The join contains its left argument; the right one follows by `join_comm`. -/
theorem mem_join_left {x : Word} {a : Tnum} (b : Tnum) (h : Mem x a) : Mem x (join a b) := by
  rw [mem_iff] at h ⊢
  intro i hi
  have hx := h i hi
  simp only [join, BitVec.getLsbD_or, BitVec.getLsbD_xor, BitVec.getLsbD_and, BitVec.getLsbD_not,
    hi, decide_true, Bool.true_and]
  revert hx
  generalize x.getLsbD i = p
  generalize a.value.getLsbD i = q
  generalize a.mask.getLsbD i = r
  generalize b.value.getLsbD i = t
  generalize b.mask.getLsbD i = u
  revert p q r t u
  decide

theorem mem_join_right {x : Word} (a : Tnum) {b : Tnum} (h : Mem x b) : Mem x (join a b) := by
  rw [join_comm]
  exact mem_join_left a h

/-- Every member lies between the known bits and the known-or-unknown bits. -/
theorem Mem.bounds {x : Word} {t : Tnum} (h : Mem x t) :
    t.value &&& x = t.value ∧ x &&& (t.value ||| t.mask) = x := by
  rw [mem_iff] at h
  constructor <;>
  · apply BitVec.eq_of_getLsbD_eq
    intro i hi
    have hx := h i hi
    simp only [BitVec.getLsbD_and, BitVec.getLsbD_or, ← hx]
    cases x.getLsbD i <;> cases t.mask.getLsbD i <;> rfl

/-- The two sums `tnum_add` compares are the sums of the least and of the greatest members. -/
theorem sum_or_eq {a b : Tnum} (ha : a.Canonical) (hb : b.Canonical) :
    (a.value ||| a.mask) + (b.value ||| b.mask) =
      (a.value + b.value) + (a.mask + b.mask) := by
  rw [← Lib.add_eq_or ha, ← Lib.add_eq_or hb]
  ac_rfl

theorem mem_add {x y : Word} {a b : Tnum} (hx : Mem x a) (hy : Mem y b) :
    Mem (x + y) (add a b) := by
  obtain ⟨hxl, hxh⟩ := hx.bounds
  obtain ⟨hyl, hyh⟩ := hy.bounds
  have hsum := sum_or_eq (canonical_of_mem hx) (canonical_of_mem hy)
  rw [mem_iff]
  intro i hi
  simp only [add, BitVec.getLsbD_and, BitVec.getLsbD_not, hi, decide_true, Bool.true_and]
  cases hm : ((a.value + b.value + (a.mask + b.mask) ^^^ a.value + b.value) ||| a.mask |||
      b.mask).getLsbD i with
  | true => simp
  | false =>
    -- outside the mask no operand bit is open and the extreme sums agree
    simp only [BitVec.getLsbD_or, BitVec.getLsbD_xor, Bool.or_eq_false_iff] at hm
    obtain ⟨⟨hchi, ham⟩, hbm⟩ := hm
    have hadd := Lib.add_bit_of_bounds hi hxl hxh hyl hyh
      (by simp [ham]) (by simp [hbm]) (by
        rw [hsum]
        revert hchi
        cases (a.value + b.value + (a.mask + b.mask)).getLsbD i <;>
          cases (a.value + b.value).getLsbD i <;> simp)
    simp [hadd]

end Tnum
end MerlinV
