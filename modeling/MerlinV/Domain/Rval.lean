import MerlinV.Domain.Scalar

/-! # Abstract register values and states

`struct merlin_rval` and `struct merlin_vstate` of `verify.h` with the joins of
`verify.c`.  A kind carries exactly the fields that some function reads for it, so
`rval_equal` is equality.
-/
namespace MerlinV

/-- `struct merlin_rval`, one constructor for each `enum merlin_rval_kind`. -/
inductive Rval where
  | uninit
  | scalar (s : Scalar)
  | ptrCtx (offMin offMax : Word)
  | ptrStack (offMin offMax : Word)
  | ptrHelperRet (helperId : BitVec 32)
  | ptrKfuncSlot (helperId : BitVec 32)
  deriving DecidableEq, Repr

namespace Rval

def const (v : Word) : Rval := .scalar (Scalar.const v)

def scalarTop : Rval := .scalar Scalar.top

/-- `ptr_kind`: the kinds a load or store may go through. -/
def isPtr : Rval → Bool
  | .ptrCtx _ _ | .ptrStack _ _ | .ptrHelperRet _ => true
  | _ => false

/-- The value of a constant scalar, the test in front of every constant argument. -/
def const? : Rval → Option Scalar
  | .scalar s => if s.isConst then some s else none
  | _ => none

def offMinJoin (a b : Word) : Word := if a.slt b then a else b

def offMaxJoin (a b : Word) : Word := if b.slt a then a else b

/-- `rval_join`: `Uninit` is the identity and a mismatch of kinds gives the top scalar. -/
def join : Rval → Rval → Rval
  | .uninit, b => b
  | a, .uninit => a
  | .scalar s, .scalar t => .scalar (s.join t)
  | .ptrHelperRet i, .ptrHelperRet j => if i ≠ j then scalarTop else .ptrHelperRet i
  | .ptrKfuncSlot i, .ptrKfuncSlot j => if i ≠ j then scalarTop else .ptrKfuncSlot i
  | .ptrCtx lo hi, .ptrCtx lo' hi' => .ptrCtx (offMinJoin lo lo') (offMaxJoin hi hi')
  | .ptrStack lo hi, .ptrStack lo' hi' => .ptrStack (offMinJoin lo lo') (offMaxJoin hi hi')
  | _, _ => scalarTop

def equal : Rval → Rval → Bool
  | .uninit, .uninit => true
  | .scalar s, .scalar t => s.equal t
  | .ptrHelperRet i, .ptrHelperRet j => i == j
  | .ptrKfuncSlot i, .ptrKfuncSlot j => i == j
  | .ptrCtx lo hi, .ptrCtx lo' hi' => lo == lo' && hi == hi'
  | .ptrStack lo hi, .ptrStack lo' hi' => lo == lo' && hi == hi'
  | _, _ => false

theorem const?_eq_some {a : Rval} {c : Scalar} (h : a.const? = some c) :
    a = .scalar c ∧ c.isConst = true := by
  cases a with
  | scalar d =>
    simp only [const?] at h
    split at h
    · rename_i hc
      obtain rfl := Option.some.inj h
      exact ⟨rfl, hc⟩
    · cases h
  | _ => cases h

theorem equal_iff {a b : Rval} : equal a b = true ↔ a = b := by
  cases a <;> cases b <;> simp [equal, Scalar.equal_iff]

@[simp] theorem join_uninit_left (a : Rval) : join .uninit a = a := by
  cases a <;> rfl

@[simp] theorem join_uninit_right (a : Rval) : join a .uninit = a := by
  cases a <;> rfl

theorem offMinJoin_toInt (a b : Word) : (offMinJoin a b).toInt = min a.toInt b.toInt := by
  simp only [offMinJoin, BitVec.slt_iff_toInt_lt]
  split <;> omega

theorem offMaxJoin_toInt (a b : Word) : (offMaxJoin a b).toInt = max a.toInt b.toInt := by
  simp only [offMaxJoin, BitVec.slt_iff_toInt_lt]
  split <;> omega

theorem offMinJoin_comm (a b : Word) : offMinJoin a b = offMinJoin b a :=
  BitVec.eq_of_toInt_eq (by rw [offMinJoin_toInt, offMinJoin_toInt, min_comm])

theorem offMaxJoin_comm (a b : Word) : offMaxJoin a b = offMaxJoin b a :=
  BitVec.eq_of_toInt_eq (by rw [offMaxJoin_toInt, offMaxJoin_toInt, max_comm])

theorem offMinJoin_assoc (a b c : Word) :
    offMinJoin (offMinJoin a b) c = offMinJoin a (offMinJoin b c) :=
  BitVec.eq_of_toInt_eq (by simp only [offMinJoin_toInt, min_assoc])

theorem offMaxJoin_assoc (a b c : Word) :
    offMaxJoin (offMaxJoin a b) c = offMaxJoin a (offMaxJoin b c) :=
  BitVec.eq_of_toInt_eq (by simp only [offMaxJoin_toInt, max_assoc])

@[simp] theorem join_scalarTop_right (a : Rval) : join a scalarTop = scalarTop := by
  cases a <;> simp [join, scalarTop, Scalar.join_top]

theorem join_comm (a b : Rval) : join a b = join b a := by
  cases a <;> cases b <;>
    simp only [join, Scalar.join_comm, offMinJoin_comm, offMaxJoin_comm, eq_comm, ne_eq] <;>
    split <;> simp_all

@[simp] theorem join_scalarTop_left (a : Rval) : join scalarTop a = scalarTop := by
  rw [join_comm, join_scalarTop_right]

theorem ite_join (p : Prop) [Decidable p] (a b c : Rval) :
    join (if p then a else b) c = if p then join a c else join b c := by
  split <;> rfl

theorem join_ite (p : Prop) [Decidable p] (a b c : Rval) :
    join a (if p then b else c) = if p then join a b else join a c := by
  split <;> rfl

theorem join_scalar_scalar (s t : Scalar) : join (.scalar s) (.scalar t) = .scalar (s.join t) := rfl

theorem join_ret_ret (i j : BitVec 32) :
    join (.ptrHelperRet i) (.ptrHelperRet j) = if i = j then .ptrHelperRet i else scalarTop := by
  simp [join]

theorem join_slot_slot (i j : BitVec 32) :
    join (.ptrKfuncSlot i) (.ptrKfuncSlot j) = if i = j then .ptrKfuncSlot i else scalarTop := by
  simp [join]

theorem join_ctx_ctx (a b c d : Word) :
    join (.ptrCtx a b) (.ptrCtx c d) = .ptrCtx (offMinJoin a c) (offMaxJoin b d) := rfl

theorem join_stack_stack (a b c d : Word) :
    join (.ptrStack a b) (.ptrStack c d) = .ptrStack (offMinJoin a c) (offMaxJoin b d) := rfl

inductive Kind where
  | uninit | scalar | ptrCtx | ptrStack | ptrHelperRet | ptrKfuncSlot
  deriving DecidableEq

def kind : Rval → Kind
  | .uninit => .uninit
  | .scalar _ => .scalar
  | .ptrCtx _ _ => .ptrCtx
  | .ptrStack _ _ => .ptrStack
  | .ptrHelperRet _ => .ptrHelperRet
  | .ptrKfuncSlot _ => .ptrKfuncSlot

theorem kind_eq_uninit {a : Rval} : a.kind = .uninit ↔ a = .uninit := by
  cases a <;> simp [kind]

theorem join_of_kind_ne {a b : Rval} (ha : a ≠ .uninit) (hb : b ≠ .uninit) (h : a.kind ≠ b.kind) :
    join a b = scalarTop := by
  cases a <;> cases b <;> first | rfl | exact absurd rfl ‹_›

theorem join_same_kind {a b : Rval} (h : a.kind = b.kind) :
    join a b = scalarTop ∨ (join a b).kind = a.kind := by
  cases a <;> cases b <;> simp only [kind, reduceCtorEq] at h <;>
    simp only [join, kind, or_true] <;> split <;> simp

theorem join_assoc (a b c : Rval) : join (join a b) c = join a (join b c) := by
  by_cases ha : a = .uninit
  · simp [ha]
  by_cases hb : b = .uninit
  · simp [hb]
  by_cases hc : c = .uninit
  · simp [hc]
  have hne : ∀ {x y : Rval}, x.kind = y.kind → y ≠ .uninit → x ≠ .uninit := by
    intro x y hxy hy hx
    exact hy (kind_eq_uninit.mp (hxy ▸ kind_eq_uninit.mpr hx))
  by_cases hab : a.kind = b.kind
  · by_cases hbc : b.kind = c.kind
    · cases a <;> cases b <;> simp only [kind, reduceCtorEq] at hab <;> cases c <;>
        simp only [kind, reduceCtorEq] at hbc
      · rfl
      · simp only [join_scalar_scalar, Scalar.join_assoc]
      · simp only [join_ctx_ctx, offMinJoin_assoc, offMaxJoin_assoc]
      · simp only [join_stack_stack, offMinJoin_assoc, offMaxJoin_assoc]
      · simp only [join_ret_ret, ite_join, join_ite, join_scalarTop_left, join_scalarTop_right]
        grind
      · simp only [join_slot_slot, ite_join, join_ite, join_scalarTop_left, join_scalarTop_right]
        grind
    · rw [join_of_kind_ne hb hc hbc, join_scalarTop_right]
      rcases join_same_kind hab with h | h
      · rw [h, join_scalarTop_left]
      · exact join_of_kind_ne (hne h ha) hc (by rw [h, hab]; exact hbc)
  · rw [join_of_kind_ne ha hb hab, join_scalarTop_left]
    by_cases hbc : b.kind = c.kind
    · rcases join_same_kind hbc with h | h
      · rw [h, join_scalarTop_right]
      · exact (join_of_kind_ne ha (hne h hb) (by rw [h]; exact hab)).symm
    · rw [join_of_kind_ne hb hc hbc, join_scalarTop_right]

def Canonical : Rval → Prop
  | .scalar s => s.tn.Canonical
  | _ => True

theorem join_self {a : Rval} (h : a.Canonical) : join a a = a := by
  cases a with
  | uninit => rfl
  | scalar s => rw [join_scalar_scalar, Scalar.join_self h]
  | ptrCtx lo hi =>
    rw [join_ctx_ctx]
    simp [offMinJoin, offMaxJoin]
  | ptrStack lo hi =>
    rw [join_stack_stack]
    simp [offMinJoin, offMaxJoin]
  | ptrHelperRet i => rw [join_ret_ret, if_pos rfl]
  | ptrKfuncSlot i => rw [join_slot_slot, if_pos rfl]

theorem canonical_scalarTop : scalarTop.Canonical := Tnum.canonical_top

theorem canonical_const (v : Word) : (const v).Canonical := Tnum.canonical_const v

theorem Canonical.join {a b : Rval} (ha : a.Canonical) (hb : b.Canonical) :
    (Rval.join a b).Canonical := by
  by_cases hau : a = .uninit
  · simpa [hau] using hb
  by_cases hbu : b = .uninit
  · simpa [hbu] using ha
  by_cases hk : a.kind = b.kind
  · cases a <;> cases b <;> simp only [kind, reduceCtorEq] at hk
    · trivial
    · exact Tnum.canonical_join _ _
    · trivial
    · trivial
    · rw [join_ret_ret]
      split
      · trivial
      · exact canonical_scalarTop
    · rw [join_slot_slot]
      split
      · trivial
      · exact canonical_scalarTop
  · rw [join_of_kind_ne hau hbu hk]
    exact canonical_scalarTop

end Rval

structure VState where
  x : Reg → Rval
  valid : Bool

namespace VState

/-- An entry state as `calloc` leaves it. -/
def bottom : VState := ⟨fun _ => .uninit, false⟩

def set (st : VState) (r : Reg) (v : Rval) : VState := { st with x := Function.update st.x r v }

@[simp] theorem set_valid (st : VState) (r : Reg) (v : Rval) : (st.set r v).valid = st.valid := rfl

theorem set_x (st : VState) (r s : Reg) (v : Rval) :
    (st.set r v).x s = if s = r then v else st.x s := by
  simp [set, Function.update_apply]

@[simp] theorem set_x_same (st : VState) (r : Reg) (v : Rval) : (st.set r v).x r = v := by
  simp [set_x]

/-- The state `vstate_join` leaves in its destination. -/
def join (dst src : VState) : VState :=
  if !src.valid then dst
  else if !dst.valid then src
  else { dst with x := fun i => (dst.x i).join (src.x i) }

def joinChanged (dst src : VState) : Bool :=
  if !src.valid then false
  else if !dst.valid then true
  else (List.finRange 32).any fun i => !((dst.x i).join (src.x i)).equal (dst.x i)

theorem ext_iff' {a b : VState} : a = b ↔ a.valid = b.valid ∧ ∀ r, a.x r = b.x r := by
  constructor
  · rintro rfl
    exact ⟨rfl, fun _ => rfl⟩
  · rintro ⟨hv, hx⟩
    cases a; cases b
    simp_all [funext_iff]

theorem joinChanged_eq_false {dst src : VState} :
    joinChanged dst src = false ↔ join dst src = dst := by
  unfold joinChanged join
  cases hs : src.valid with
  | false => simp
  | true =>
    cases hd : dst.valid with
    | false =>
      simp only [Bool.not_true, Bool.false_eq_true, if_false, Bool.not_false, if_true,
        Bool.true_eq_false, false_iff]
      intro h
      rw [h, hd] at hs
      exact absurd hs (by simp)
    | true =>
      simp only [Bool.not_true, Bool.false_eq_true, if_false, List.any_eq_false,
        List.mem_finRange, Bool.not_eq_true', Bool.not_eq_false, Rval.equal_iff, forall_const]
      rw [ext_iff']
      simp [hd]

def Canonical (st : VState) : Prop := ∀ r, (st.x r).Canonical

theorem canonical_bottom : bottom.Canonical := fun _ => trivial

theorem join_values {P : Rval → Prop} (hP : ∀ v w, P v → P w → P (v.join w)) {a b : VState}
    (ha : ∀ r, P (a.x r)) (hb : ∀ r, P (b.x r)) (r : Reg) : P ((join a b).x r) := by
  unfold VState.join
  split
  · exact ha r
  · split
    · exact hb r
    · exact hP _ _ (ha r) (hb r)

theorem Canonical.join {a b : VState} (ha : a.Canonical) (hb : b.Canonical) :
    (VState.join a b).Canonical :=
  join_values (fun _ _ => Rval.Canonical.join) ha hb

theorem join_valid (a b : VState) : (join a b).valid = (a.valid || b.valid) := by
  unfold join
  cases ha : a.valid <;> cases hb : b.valid <;> simp [ha, hb]

/-- The join of two valid states is taken register by register. -/
theorem join_x {a b : VState} (ha : a.valid = true) (hb : b.valid = true) (r : Reg) :
    (join a b).x r = (a.x r).join (b.x r) := by
  simp [join, ha, hb]

theorem join_of_valid {a b : VState} (ha : a.valid = true) (hb : b.valid = true) :
    join a b = ⟨fun r => (a.x r).join (b.x r), true⟩ := by
  simp [join, ha, hb]

/-- Joining the same source twice changes nothing the second time. -/
theorem join_join_self {a b : VState} (hb : b.Canonical) : join (join a b) b = join a b := by
  cases hbv : b.valid with
  | false => simp [join, hbv]
  | true =>
    cases hav : a.valid with
    | false =>
      have hab : join a b = b := by simp [join, hav, hbv]
      rw [hab, join_of_valid hbv hbv, ext_iff']
      exact ⟨hbv.symm, fun r => Rval.join_self (hb r)⟩
    | true =>
      rw [join_of_valid hav hbv, join_of_valid rfl hbv, ext_iff']
      refine ⟨rfl, fun r => ?_⟩
      change ((a.x r).join (b.x r)).join (b.x r) = (a.x r).join (b.x r)
      rw [Rval.join_assoc, Rval.join_self (hb r)]

/-- A source that was absorbed stays absorbed when the destination grows. -/
theorem join_absorb {a b : VState} (c : VState) (h : join a b = a) :
    join (join a c) b = join a c := by
  cases hbv : b.valid with
  | false => simp [join, hbv]
  | true =>
    have hav : a.valid = true := by
      rw [← h, join_valid, hbv, Bool.or_true]
    cases hcv : c.valid with
    | false =>
      have hac : join a c = a := by simp [join, hcv]
      rw [hac, h]
    | true =>
      have hx : ∀ r, (a.x r).join (b.x r) = a.x r := fun r => by rw [← join_x hav hbv, h]
      rw [join_of_valid hav hcv, join_of_valid rfl hbv, ext_iff']
      refine ⟨rfl, fun r => ?_⟩
      change ((a.x r).join (c.x r)).join (b.x r) = (a.x r).join (c.x r)
      rw [Rval.join_assoc, Rval.join_comm (c.x r), ← Rval.join_assoc, hx]

end VState
end MerlinV
