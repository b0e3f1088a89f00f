import MerlinV.Domain.Tnum

/-! # Scalars: a tristate number with a signed and an unsigned range

`struct merlin_scalar` of `tnum.h`.  Membership has three components, and the join and
the saturating addition are sound for each of them separately.
-/
namespace MerlinV

structure Scalar where
  smin : Word
  smax : Word
  umin : Word
  umax : Word
  tn : Tnum
  deriving DecidableEq, Repr

def int64Min : Word := 1#64 <<< 63

def int64Max : Word := (1#64 <<< 63) - 1#64

namespace Scalar

def const (v : Word) : Scalar := ⟨v, v, v, v, Tnum.const v⟩

def top : Scalar := ⟨int64Min, int64Max, 0#64, ~~~0#64, Tnum.top⟩

def isConst (s : Scalar) : Bool := s.tn.isConst && s.smin == s.smax

def join (a b : Scalar) : Scalar where
  smin := if a.smin.slt b.smin then a.smin else b.smin
  smax := if b.smax.slt a.smax then a.smax else b.smax
  umin := if a.umin < b.umin then a.umin else b.umin
  umax := if a.umax > b.umax then a.umax else b.umax
  tn := a.tn.join b.tn

/-- The test of `scalar_add` for a signed sum that does not fit. -/
def signedOverflow (x y : Word) : Bool :=
  (x.slt 0#64 == y.slt 0#64) && ((x + y).slt 0#64 != x.slt 0#64)

/-- `scalar_add`: a range whose bounds overflow falls back to the full range. -/
def add (a b : Scalar) : Scalar where
  smin := if signedOverflow a.smin b.smin || signedOverflow a.smax b.smax then int64Min
    else a.smin + b.smin
  smax := if signedOverflow a.smin b.smin || signedOverflow a.smax b.smax then int64Max
    else a.smax + b.smax
  umin := if a.umin + b.umin < a.umin ∨ a.umax + b.umax < a.umax then 0#64 else a.umin + b.umin
  umax := if a.umin + b.umin < a.umin ∨ a.umax + b.umax < a.umax then ~~~0#64
    else a.umax + b.umax
  tn := a.tn.add b.tn

def equal (a b : Scalar) : Bool :=
  a.smin == b.smin && a.smax == b.smax && a.umin == b.umin && a.umax == b.umax &&
    a.tn.equal b.tn

theorem equal_iff {a b : Scalar} : equal a b = true ↔ a = b := by
  cases a; cases b
  simp [equal, Tnum.equal_iff, and_assoc]

def MemSigned (v : Word) (s : Scalar) : Prop :=
  s.smin.toInt ≤ v.toInt ∧ v.toInt ≤ s.smax.toInt

def MemUnsigned (v : Word) (s : Scalar) : Prop :=
  s.umin.toNat ≤ v.toNat ∧ v.toNat ≤ s.umax.toNat

/-- `v` satisfies the signed range, the unsigned range and the tristate number. -/
structure Mem (v : Word) (s : Scalar) : Prop where
  signed : MemSigned v s
  unsigned : MemUnsigned v s
  tn : s.tn.Mem v

theorem memSigned_top (v : Word) : MemSigned v top := by
  have h₁ := BitVec.le_toInt (x := v)
  have h₂ := BitVec.toInt_lt (x := v)
  have e₁ : int64Min.toInt = -2 ^ 63 := by decide
  have e₂ : int64Max.toInt = 2 ^ 63 - 1 := by decide
  simp only [MemSigned, top, e₁, e₂]
  omega

theorem memUnsigned_top (v : Word) : MemUnsigned v top := by
  have h : (~~~0#64).toNat = 2 ^ 64 - 1 := by decide
  have hv := v.isLt
  simp only [MemUnsigned, top, h, BitVec.toNat_ofNat]
  omega

theorem mem_top (v : Word) : Mem v top := ⟨memSigned_top v, memUnsigned_top v, Tnum.mem_top v⟩

theorem mem_const (v : Word) : Mem v (const v) :=
  ⟨⟨le_rfl, le_rfl⟩, ⟨le_rfl, le_rfl⟩, Tnum.mem_const v⟩

theorem eq_value_of_isConst {v : Word} {s : Scalar} (hc : s.isConst = true) (h : s.tn.Mem v) :
    v = s.tn.value := by
  simp only [isConst, Bool.and_eq_true] at hc
  exact Tnum.eq_of_mem_isConst hc.1 h

theorem join_smin_toInt (a b : Scalar) :
    (join a b).smin.toInt = min a.smin.toInt b.smin.toInt := by
  simp only [join, BitVec.slt_iff_toInt_lt]
  split <;> omega

theorem join_smax_toInt (a b : Scalar) :
    (join a b).smax.toInt = max a.smax.toInt b.smax.toInt := by
  simp only [join, BitVec.slt_iff_toInt_lt]
  split <;> omega

theorem join_umin_toNat (a b : Scalar) :
    (join a b).umin.toNat = min a.umin.toNat b.umin.toNat := by
  simp only [join, BitVec.lt_def]
  split <;> omega

theorem join_umax_toNat (a b : Scalar) :
    (join a b).umax.toNat = max a.umax.toNat b.umax.toNat := by
  simp only [join, gt_iff_lt, BitVec.lt_def]
  split <;> omega

theorem ext_toInt {a b : Scalar} (h₁ : a.smin.toInt = b.smin.toInt) (h₂ : a.smax.toInt = b.smax.toInt)
    (h₃ : a.umin.toNat = b.umin.toNat) (h₄ : a.umax.toNat = b.umax.toNat) (h₅ : a.tn = b.tn) :
    a = b := by
  cases a; cases b
  simp only [Scalar.mk.injEq]
  exact ⟨BitVec.eq_of_toInt_eq h₁, BitVec.eq_of_toInt_eq h₂, BitVec.eq_of_toNat_eq h₃,
    BitVec.eq_of_toNat_eq h₄, h₅⟩

theorem join_comm (a b : Scalar) : join a b = join b a := by
  apply ext_toInt
  · rw [join_smin_toInt, join_smin_toInt, min_comm]
  · rw [join_smax_toInt, join_smax_toInt, max_comm]
  · rw [join_umin_toNat, join_umin_toNat, min_comm]
  · rw [join_umax_toNat, join_umax_toNat, max_comm]
  · exact Tnum.join_comm _ _

theorem join_assoc (a b c : Scalar) : join (join a b) c = join a (join b c) := by
  apply ext_toInt
  · simp only [join_smin_toInt, min_assoc]
  · simp only [join_smax_toInt, max_assoc]
  · simp only [join_umin_toNat, min_assoc]
  · simp only [join_umax_toNat, max_assoc]
  · exact Tnum.join_assoc _ _ _

theorem join_self {a : Scalar} (h : a.tn.Canonical) : join a a = a := by
  apply ext_toInt
  · rw [join_smin_toInt, min_self]
  · rw [join_smax_toInt, max_self]
  · rw [join_umin_toNat, min_self]
  · rw [join_umax_toNat, max_self]
  · exact Tnum.join_self h

theorem join_top (a : Scalar) : join a top = top := by
  obtain ⟨h₁, h₂⟩ := memSigned_top a.smin
  obtain ⟨h₁', h₂'⟩ := memSigned_top a.smax
  obtain ⟨h₃, h₄⟩ := memUnsigned_top a.umin
  obtain ⟨h₃', h₄'⟩ := memUnsigned_top a.umax
  apply ext_toInt
  · rw [join_smin_toInt, min_eq_right h₁]
  · rw [join_smax_toInt, max_eq_right h₂']
  · rw [join_umin_toNat, min_eq_right h₃]
  · rw [join_umax_toNat, max_eq_right h₄']
  · exact Tnum.join_top _

theorem memSigned_join_left {v : Word} {a : Scalar} (b : Scalar) (h : MemSigned v a) :
    MemSigned v (join a b) := by
  constructor
  · rw [join_smin_toInt]
    exact min_le_of_left_le h.1
  · rw [join_smax_toInt]
    exact le_max_of_le_left h.2

theorem memUnsigned_join_left {v : Word} {a : Scalar} (b : Scalar) (h : MemUnsigned v a) :
    MemUnsigned v (join a b) := by
  constructor
  · rw [join_umin_toNat]
    exact min_le_of_left_le h.1
  · rw [join_umax_toNat]
    exact le_max_of_le_left h.2

theorem mem_join_left {v : Word} {a : Scalar} (b : Scalar) (h : Mem v a) : Mem v (join a b) :=
  ⟨memSigned_join_left b h.signed, memUnsigned_join_left b h.unsigned, Tnum.mem_join_left _ h.tn⟩

theorem eq_top_of_forall_mem {s : Scalar} (h : ∀ v, Mem v s) : s = top := by
  apply ext_toInt
  · exact le_antisymm (h int64Min).signed.1 (memSigned_top s.smin).1
  · exact le_antisymm (memSigned_top s.smax).2 (h int64Max).signed.2
  · exact le_antisymm (h 0#64).unsigned.1 (memUnsigned_top s.umin).1
  · exact le_antisymm (memUnsigned_top s.umax).2 (h (~~~0#64)).unsigned.2
  · apply Tnum.ext_bits
    intro i hi
    have h₀ := Tnum.mem_iff.mp (h 0#64).tn i hi
    have h₁ := Tnum.mem_iff.mp (h (~~~0#64)).tn i hi
    simp only [BitVec.getLsbD_zero, BitVec.getLsbD_not, hi, decide_true, Bool.true_and,
      Bool.false_and, Bool.not_false] at h₀ h₁
    rw [← h₀, Bool.not_eq_false'] at h₁
    have htop : (Tnum.top).mask.getLsbD i = true := by
      simp only [Tnum.top, BitVec.getLsbD_not, BitVec.getLsbD_zero, hi, decide_true, Bool.not_false,
        Bool.and_self]
    exact ⟨h₁.trans htop.symm, h₀.symm.trans (BitVec.getLsbD_zero).symm⟩

theorem signedOverflow_eq_false {x y : Word} (h : signedOverflow x y = false) :
    (x + y).toInt = x.toInt + y.toInt := by
  have hx₁ := BitVec.le_toInt (x := x)
  have hx₂ := BitVec.toInt_lt (x := x)
  have hy₁ := BitVec.le_toInt (x := y)
  have hy₂ := BitVec.toInt_lt (x := y)
  have hs := BitVec.toInt_add x y
  simp only [signedOverflow, BitVec.slt_eq_decide, BitVec.toInt_zero] at h
  rw [Int.bmod_def] at hs
  generalize (x + y).toInt = z at h hs ⊢
  by_cases hx : x.toInt < 0 <;> by_cases hy : y.toInt < 0 <;> by_cases hz : z < 0 <;>
    simp [hx, hy, hz] at h <;> split at hs <;> omega

theorem memSigned_add {v w : Word} {a b : Scalar} (hv : MemSigned v a) (hw : MemSigned w b) :
    MemSigned (v + w) (add a b) := by
  by_cases ho : (signedOverflow a.smin b.smin || signedOverflow a.smax b.smax) = true
  · have := memSigned_top (v + w)
    simpa [MemSigned, add, ho, top] using this
  · have hlo := signedOverflow_eq_false (x := a.smin) (y := b.smin) (by simp_all)
    have hhi := signedOverflow_eq_false (x := a.smax) (y := b.smax) (by simp_all)
    have l₁ := BitVec.le_toInt (x := a.smin + b.smin)
    have l₂ := BitVec.toInt_lt (x := a.smax + b.smax)
    have hs := BitVec.toInt_add v w
    simp only [MemSigned, add, if_neg ho, hlo, hhi] at hv hw ⊢
    rw [hlo] at l₁
    rw [hhi] at l₂
    rw [hs, Int.bmod_eq_of_le (by omega) (by omega)]
    omega

theorem memUnsigned_add {v w : Word} {a b : Scalar} (hv : MemUnsigned v a)
    (hw : MemUnsigned w b) : MemUnsigned (v + w) (add a b) := by
  by_cases ho : a.umin + b.umin < a.umin ∨ a.umax + b.umax < a.umax
  · have := memUnsigned_top (v + w)
    simpa only [MemUnsigned, add, if_pos ho, top] using this
  · have h₁ := v.isLt
    have h₂ := w.isLt
    have h₃ := a.umax.isLt
    have h₄ := b.umax.isLt
    simp only [MemUnsigned, add, if_neg ho, BitVec.toNat_add] at hv hw ⊢
    simp only [BitVec.lt_def, BitVec.toNat_add, not_or] at ho
    omega

theorem mem_add {v w : Word} {a b : Scalar} (hv : Mem v a) (hw : Mem w b) :
    Mem (v + w) (add a b) :=
  ⟨memSigned_add hv.signed hw.signed, memUnsigned_add hv.unsigned hw.unsigned,
    Tnum.mem_add hv.tn hw.tn⟩

end Scalar
end MerlinV
