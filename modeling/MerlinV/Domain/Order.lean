import MerlinV.Domain.Rval

/-! # The order of the abstract domain

`a ≤ b` when joining `a` into `b` changes nothing.  On tristate numbers and on ranges this
is inclusion, and the operations of the transfer function that keep information respect
it; the two that do not are the tests on `Uninit` and on two pointers.
-/
namespace MerlinV

namespace Tnum

def Le (t h : Tnum) : Prop :=
  ∀ i < 64, h.mask.getLsbD i = false → t.mask.getLsbD i = false ∧ t.value.getLsbD i = h.value.getLsbD i

theorem join_eq_left_iff {t h : Tnum} (hc : h.Canonical) : join h t = h ↔ Le t h := by
  constructor
  · intro hj i hi hm
    have hmask := congrArg (fun a : Tnum => a.mask.getLsbD i) hj
    simp only [join, BitVec.getLsbD_or, BitVec.getLsbD_xor, hm] at hmask
    revert hmask
    cases t.mask.getLsbD i <;> cases t.value.getLsbD i <;> cases h.value.getLsbD i <;> simp
  · intro hle
    apply ext_bits
    intro i hi
    have hbit := hc.bit i
    have hl := hle i hi
    simp only [join, BitVec.getLsbD_or, BitVec.getLsbD_xor, BitVec.getLsbD_and, BitVec.getLsbD_not, hi,
      decide_true, Bool.true_and]
    revert hbit hl
    cases h.mask.getLsbD i <;> cases t.mask.getLsbD i <;> cases t.value.getLsbD i <;>
      cases h.value.getLsbD i <;> simp

theorem Le.mem {t h : Tnum} (hle : Le t h) (hc : h.Canonical) {x : Word} (hx : t.Mem x) : h.Mem x := by
  rw [mem_iff] at hx ⊢
  intro i hi
  have hbit := hc.bit i
  have hl := hle i hi
  have hxi := hx i hi
  revert hbit hl hxi
  cases h.mask.getLsbD i <;> cases t.mask.getLsbD i <;> cases t.value.getLsbD i <;>
    cases h.value.getLsbD i <;> cases x.getLsbD i <;> simp

theorem mem_value {t : Tnum} (hc : t.Canonical) : t.Mem t.value := by
  rw [mem_iff]
  intro i hi
  have hbit := hc.bit i
  revert hbit
  cases t.mask.getLsbD i <;> cases t.value.getLsbD i <;> simp

theorem mem_value_or_mask {t : Tnum} (hc : t.Canonical) : t.Mem (t.value ||| t.mask) := by
  rw [mem_iff]
  intro i hi
  have hbit := hc.bit i
  simp only [BitVec.getLsbD_or]
  revert hbit
  cases t.mask.getLsbD i <;> cases t.value.getLsbD i <;> simp

/-- `tnum_add` respects the order: the two sums it compares are sums of members. -/
theorem Le.add {t h k : Tnum} (hle : Le t h) (ht : t.Canonical) (hh : h.Canonical) (hk : k.Canonical) :
    Le (Tnum.add t k) (Tnum.add h k) := by
  intro i hi hm
  have hlo := mem_iff.mp (mem_add (hle.mem hh (mem_value ht)) (mem_value hk)) i hi
  have hup := mem_iff.mp (mem_add (hle.mem hh (mem_value_or_mask ht)) (mem_value_or_mask hk)) i hi
  rw [sum_or_eq ht hk] at hup
  simp only [hm, Bool.not_false, Bool.and_true] at hlo hup
  have hmask : h.mask.getLsbD i = false ∧ k.mask.getLsbD i = false := by
    simp only [Tnum.add, BitVec.getLsbD_or, Bool.or_eq_false_iff] at hm
    exact ⟨hm.1.2, hm.2⟩
  have htm := (hle i hi hmask.1).1
  have hout : (Tnum.add t k).mask.getLsbD i = false := by
    simp only [Tnum.add, BitVec.getLsbD_or, BitVec.getLsbD_xor, htm, hmask.2, hlo, hup]
    simp
  refine ⟨hout, ?_⟩
  rw [← hlo]
  have hval : (Tnum.add t k).value.getLsbD i =
      ((t.value + k.value).getLsbD i && !(Tnum.add t k).mask.getLsbD i) := by
    simp only [Tnum.add, BitVec.getLsbD_and, BitVec.getLsbD_not, hi, decide_true, Bool.true_and]
  rw [hval, hout]
  simp

end Tnum

namespace Scalar

/-- Inclusion of the two ranges and of the tristate numbers. -/
structure Le (s c : Scalar) : Prop where
  smin : c.smin.toInt ≤ s.smin.toInt
  smax : s.smax.toInt ≤ c.smax.toInt
  umin : c.umin.toNat ≤ s.umin.toNat
  umax : s.umax.toNat ≤ c.umax.toNat
  tn : Tnum.Le s.tn c.tn

structure WellFormed (s : Scalar) : Prop where
  signed : s.smin.toInt ≤ s.smax.toInt
  unsigned : s.umin.toNat ≤ s.umax.toNat
  tn : s.tn.Canonical

theorem join_eq_left_iff {s c : Scalar} (hc : c.tn.Canonical) : join c s = c ↔ Le s c := by
  constructor
  · intro hj
    have h₁ := join_smin_toInt c s
    have h₂ := join_smax_toInt c s
    have h₃ := join_umin_toNat c s
    have h₄ := join_umax_toNat c s
    rw [hj] at h₁ h₂ h₃ h₄
    exact ⟨by omega, by omega, by omega, by omega,
      (Tnum.join_eq_left_iff hc).mp (congrArg Scalar.tn hj)⟩
  · intro h
    apply ext_toInt
    · rw [join_smin_toInt, min_eq_left h.smin]
    · rw [join_smax_toInt, max_eq_left h.smax]
    · rw [join_umin_toNat, min_eq_left h.umin]
    · rw [join_umax_toNat, max_eq_left h.umax]
    · exact (Tnum.join_eq_left_iff hc).mpr h.tn

theorem wellFormed_const (v : Word) : (const v).WellFormed :=
  ⟨le_rfl, le_rfl, Tnum.canonical_const v⟩

theorem wellFormed_top : top.WellFormed := ⟨by decide, by decide, Tnum.canonical_top⟩

theorem WellFormed.join {a : Scalar} (ha : a.WellFormed) (b : Scalar) : (join a b).WellFormed := by
  refine ⟨?_, ?_, Tnum.canonical_join _ _⟩
  · rw [join_smin_toInt, join_smax_toInt]
    have := ha.signed
    omega
  · rw [join_umin_toNat, join_umax_toNat]
    have := ha.unsigned
    omega

theorem signedOverflow_of_fits {x y : Word} (h₁ : -2 ^ 63 ≤ x.toInt + y.toInt)
    (h₂ : x.toInt + y.toInt < 2 ^ 63) : signedOverflow x y = false := by
  have hs : (x + y).toInt = x.toInt + y.toInt := by
    rw [BitVec.toInt_add, Int.bmod_eq_of_le (by omega) (by omega)]
  simp only [signedOverflow, BitVec.slt_eq_decide, BitVec.toInt_zero, hs]
  by_cases hx : x.toInt < 0 <;> by_cases hy : y.toInt < 0 <;>
    by_cases hz : x.toInt + y.toInt < 0 <;> simp [hx, hy, hz] <;> omega

theorem signed_add_cases (a b : Scalar) :
    ((add a b).smin.toInt = a.smin.toInt + b.smin.toInt ∧
        (add a b).smax.toInt = a.smax.toInt + b.smax.toInt) ∨
      ((add a b).smin = int64Min ∧ (add a b).smax = int64Max ∧
        (a.smin.toInt + b.smin.toInt < -2 ^ 63 ∨ 2 ^ 63 ≤ a.smin.toInt + b.smin.toInt ∨
          a.smax.toInt + b.smax.toInt < -2 ^ 63 ∨ 2 ^ 63 ≤ a.smax.toInt + b.smax.toInt)) := by
  by_cases ho : (signedOverflow a.smin b.smin || signedOverflow a.smax b.smax) = true
  · refine .inr ⟨by simp [add, ho], by simp [add, ho], ?_⟩
    by_contra hno
    push Not at hno
    obtain ⟨h₁, h₂, h₃, h₄⟩ := hno
    rw [signedOverflow_of_fits h₁ h₂, signedOverflow_of_fits h₃ h₄] at ho
    cases ho
  · rw [Bool.not_eq_true, Bool.or_eq_false_iff] at ho
    left
    simp only [add, ho.1, ho.2, Bool.or_self, Bool.false_eq_true, if_false]
    exact ⟨signedOverflow_eq_false ho.1, signedOverflow_eq_false ho.2⟩

theorem unsigned_add_cases (a b : Scalar) :
    ((add a b).umin.toNat = a.umin.toNat + b.umin.toNat ∧
        (add a b).umax.toNat = a.umax.toNat + b.umax.toNat) ∨
      ((add a b).umin.toNat = 0 ∧ (add a b).umax.toNat = 2 ^ 64 - 1 ∧
        (2 ^ 64 ≤ a.umin.toNat + b.umin.toNat ∨ 2 ^ 64 ≤ a.umax.toNat + b.umax.toNat)) := by
  have h₁ := a.umin.isLt
  have h₂ := b.umin.isLt
  have h₃ := a.umax.isLt
  have h₄ := b.umax.isLt
  by_cases ho : a.umin + b.umin < a.umin ∨ a.umax + b.umax < a.umax
  · right
    simp only [add, if_pos ho]
    simp only [BitVec.lt_def, BitVec.toNat_add] at ho
    exact ⟨rfl, by decide, by omega⟩
  · left
    simp only [add, if_neg ho, BitVec.toNat_add]
    simp only [BitVec.lt_def, BitVec.toNat_add, not_or] at ho
    omega

theorem WellFormed.add {a b : Scalar} (ha : a.WellFormed) (hb : b.WellFormed) :
    (add a b).WellFormed := by
  have hs := signed_add_cases a b
  have hu := unsigned_add_cases a b
  have h₁ := ha.signed
  have h₂ := hb.signed
  have h₃ := ha.unsigned
  have h₄ := hb.unsigned
  refine ⟨?_, ?_, Tnum.canonical_add _ _⟩
  · rcases hs with hs | ⟨hlo, hhi, -⟩
    · omega
    · rw [hlo, hhi]
      decide
  · omega

theorem Le.add {s c k : Scalar} (h : Le s c) (hs : s.WellFormed) (hc : c.WellFormed)
    (hk : k.WellFormed) : Le (Scalar.add s k) (Scalar.add c k) := by
  have e₁ : int64Min.toInt = -2 ^ 63 := by decide
  have e₂ : int64Max.toInt = 2 ^ 63 - 1 := by decide
  have b₁ := BitVec.le_toInt (x := (Scalar.add s k).smin)
  have b₂ := BitVec.toInt_lt (x := (Scalar.add s k).smax)
  have b₃ := (Scalar.add s k).umax.isLt
  have cs := signed_add_cases s k
  have cc := signed_add_cases c k
  have us := unsigned_add_cases s k
  have uc := unsigned_add_cases c k
  have ws := hs.signed
  have wk := hk.signed
  have vs := hs.unsigned
  have vk := hk.unsigned
  have i₁ := BitVec.le_toInt (x := (Scalar.add c k).smin)
  have i₂ := BitVec.toInt_lt (x := (Scalar.add c k).smax)
  have i₃ := (Scalar.add c k).umax.isLt
  obtain ⟨h₁, h₂, h₃, h₄, h₅⟩ := h
  have hsigned : (Scalar.add c k).smin.toInt ≤ (Scalar.add s k).smin.toInt ∧
      (Scalar.add s k).smax.toInt ≤ (Scalar.add c k).smax.toInt := by
    rcases cc with cc | ⟨cc₁, cc₂, -⟩
    · rcases cs with cs | ⟨-, -, cs⟩
      · omega
      · omega
    · rw [cc₁, cc₂]
      omega
  have hunsigned : (Scalar.add c k).umin.toNat ≤ (Scalar.add s k).umin.toNat ∧
      (Scalar.add s k).umax.toNat ≤ (Scalar.add c k).umax.toNat := by
    omega
  exact ⟨hsigned.1, hsigned.2, hunsigned.1, hunsigned.2, h₅.add hs.tn hc.tn hk.tn⟩

theorem tnum_add_top (k : Tnum) : Tnum.add Tnum.top k = Tnum.top := by
  apply Tnum.ext_bits
  intro i hi
  simp only [Tnum.add, Tnum.top, BitVec.getLsbD_or, BitVec.getLsbD_xor, BitVec.getLsbD_and,
    BitVec.getLsbD_not, BitVec.getLsbD_zero, hi, decide_true, Bool.true_and, Bool.not_false,
    Bool.or_true, Bool.true_or, Bool.not_true, Bool.and_false, and_self]

/-- Nothing is gained by adding a constant to an unknown scalar. -/
theorem add_top_const (v : Word) : Scalar.add top (const v) = top := by
  have e₁ : int64Min.toInt = -2 ^ 63 := by decide
  have e₂ : int64Max.toInt = 2 ^ 63 - 1 := by decide
  have e₃ : (~~~0#64).toNat = 2 ^ 64 - 1 := by decide
  have e₄ : (0#64).toNat = 0 := rfl
  have b₁ := BitVec.le_toInt (x := (Scalar.add top (const v)).smin)
  have b₂ := BitVec.toInt_lt (x := (Scalar.add top (const v)).smax)
  have b₃ := (Scalar.add top (const v)).umax.isLt
  have hs := signed_add_cases top (const v)
  have hu := unsigned_add_cases top (const v)
  simp only [top, const, e₁, e₂, e₃, e₄] at hs hu b₁ b₂ b₃ ⊢
  apply ext_toInt
  · rcases hs with hs | ⟨hs, -⟩
    · rw [e₁]
      omega
    · rw [hs]
  · rcases hs with hs | ⟨-, hs, -⟩
    · rw [e₂]
      omega
    · rw [hs]
  · rw [e₄]
    omega
  · rw [e₃]
    omega
  · exact tnum_add_top _

end Scalar

namespace Rval

/-- Joining `a` into `b` changes nothing. -/
def Le (a b : Rval) : Prop := b.join a = b

def WellFormed : Rval → Prop
  | .scalar s => s.WellFormed
  | _ => True

theorem WellFormed.canonical {a : Rval} (h : a.WellFormed) : a.Canonical := by
  cases a with
  | scalar s => exact Scalar.WellFormed.tn h
  | _ => trivial

theorem wellFormed_scalarTop : scalarTop.WellFormed := Scalar.wellFormed_top

theorem WellFormed.join {a b : Rval} (ha : a.WellFormed) (hb : b.WellFormed) :
    (Rval.join a b).WellFormed := by
  cases a <;> cases b <;> simp only [Rval.join] <;> first
    | exact Scalar.WellFormed.join ha _
    | exact ha
    | exact hb
    | exact wellFormed_scalarTop
    | (split <;> first | exact wellFormed_scalarTop | exact ha)

theorem le_scalarTop (a : Rval) : Le a scalarTop := join_scalarTop_left a

theorem le_refl {a : Rval} (h : a.WellFormed) : Le a a := join_self h.canonical

theorem Le.trans {a b c : Rval} (hab : Le a b) (hbc : Le b c) : Le a c := by
  unfold Le at *
  rw [← hbc, join_assoc, hab]

theorem join_le {a b c : Rval} (ha : Le a c) (hb : Le b c) : Le (a.join b) c := by
  unfold Le at *
  rw [← join_assoc, ha, hb]

theorem scalar_le_scalar {s c : Scalar} (hc : c.tn.Canonical) :
    Le (.scalar s) (.scalar c) ↔ Scalar.Le s c := by
  unfold Le
  rw [join_scalar_scalar, Rval.scalar.injEq, Scalar.join_eq_left_iff hc]

def OffLe (lo hi lo' hi' : Word) : Prop := lo'.toInt ≤ lo.toInt ∧ hi.toInt ≤ hi'.toInt

theorem offJoin_eq_iff {lo hi lo' hi' : Word} :
    (offMinJoin lo' lo = lo' ∧ offMaxJoin hi' hi = hi') ↔ OffLe lo hi lo' hi' := by
  have h₁ := offMinJoin_toInt lo' lo
  have h₂ := offMaxJoin_toInt hi' hi
  unfold OffLe
  constructor
  · rintro ⟨e₁, e₂⟩
    rw [e₁] at h₁
    rw [e₂] at h₂
    omega
  · rintro ⟨l₁, l₂⟩
    exact ⟨BitVec.eq_of_toInt_eq (by omega), BitVec.eq_of_toInt_eq (by omega)⟩

theorem ctx_le_ctx {lo hi lo' hi' : Word} :
    Le (.ptrCtx lo hi) (.ptrCtx lo' hi') ↔ OffLe lo hi lo' hi' := by
  unfold Le
  rw [join_ctx_ctx, Rval.ptrCtx.injEq, offJoin_eq_iff]

theorem stack_le_stack {lo hi lo' hi' : Word} :
    Le (.ptrStack lo hi) (.ptrStack lo' hi') ↔ OffLe lo hi lo' hi' := by
  unfold Le
  rw [join_stack_stack, Rval.ptrStack.injEq, offJoin_eq_iff]

theorem slot_le_slot {i j : BitVec 32} : Le (.ptrKfuncSlot i) (.ptrKfuncSlot j) ↔ i = j := by
  unfold Le
  rw [join_slot_slot, scalarTop]
  by_cases h : j = i
  · simp [h]
  · simp [h, Ne.symm h]

/-- What lies below an abstract value: nothing known, or something of its kind, or it is top. -/
theorem Le.cases {a b : Rval} (h : Le a b) : a = .uninit ∨ b = .scalarTop ∨ a.kind = b.kind := by
  by_cases ha : a = .uninit
  · exact .inl ha
  by_cases hk : b.kind = a.kind
  · exact .inr (.inr hk.symm)
  · right
    left
    unfold Le at h
    by_cases hb : b = .uninit
    · rw [hb, join_uninit_left] at h
      exact absurd h ha
    · rw [← h]
      exact join_of_kind_ne hb ha hk

end Rval

end MerlinV
