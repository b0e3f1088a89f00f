import MerlinV.Domain.Rval
import MerlinV.Lib.UpTo

/-! # Abstract register values as the source stores them

`struct merlin_rval` has the fields of every kind side by side; `rval_join` copies fields that
`rval_equal` does not look at.  `Rval` keeps for each kind the fields that are looked at, and the functions
on records are the functions on `Rval` up to that.
-/
namespace MerlinV

structure RvalRecord where
  kind : Rval.Kind
  s : Scalar
  offMin : Word
  offMax : Word
  helperId : BitVec 32
  deriving DecidableEq

namespace RvalRecord

/-- A compound literal that names the kind only. -/
def ofKind (kind : Rval.Kind) : RvalRecord := ⟨kind, ⟨0, 0, 0, 0, ⟨0, 0⟩⟩, 0, 0, 0⟩

def rvUninit : RvalRecord := ofKind .uninit

def rvScalar (s : Scalar) : RvalRecord := { ofKind .scalar with s := s }

def rvScalarTop : RvalRecord := rvScalar Scalar.top

def join (a b : RvalRecord) : RvalRecord :=
  if a.kind = .uninit then b
  else if b.kind = .uninit then a
  else if a.kind ≠ b.kind then rvScalarTop
  else if a.kind = .scalar then rvScalar (a.s.join b.s)
  else if a.kind = .ptrHelperRet ∨ a.kind = .ptrKfuncSlot then
    if a.helperId ≠ b.helperId then rvScalarTop else a
  else
    { a with
      offMin := if a.offMin.slt b.offMin then a.offMin else b.offMin
      offMax := if b.offMax.slt a.offMax then a.offMax else b.offMax }

def equal (a b : RvalRecord) : Bool :=
  if a.kind ≠ b.kind then false
  else match a.kind with
    | .uninit => true
    | .scalar => a.s.equal b.s
    | .ptrHelperRet | .ptrKfuncSlot => a.helperId == b.helperId
    | .ptrCtx | .ptrStack => a.offMin == b.offMin && a.offMax == b.offMax

def Canonical (a : RvalRecord) : Prop := a.kind = .scalar → a.s.tn.Canonical

/-- What the kind of a record makes of its fields. -/
def toRval (a : RvalRecord) : Rval :=
  match a.kind with
  | .uninit => .uninit
  | .scalar => .scalar a.s
  | .ptrCtx => .ptrCtx a.offMin a.offMax
  | .ptrStack => .ptrStack a.offMin a.offMax
  | .ptrHelperRet => .ptrHelperRet a.helperId
  | .ptrKfuncSlot => .ptrKfuncSlot a.helperId

theorem toRval_join (a b : RvalRecord) : (a.join b).toRval = a.toRval.join b.toRval := by
  obtain ⟨ka, sa, loa, hia, ia⟩ := a
  obtain ⟨kb, sb, lob, hib, ib⟩ := b
  cases ka <;> cases kb <;> try rfl
  · simp only [toRval, Rval.join_ret_ret]
    by_cases h : ia = ib <;> simp [join, h, rvScalarTop, rvScalar, ofKind, Rval.scalarTop]
  · simp only [toRval, Rval.join_slot_slot]
    by_cases h : ia = ib <;> simp [join, h, rvScalarTop, rvScalar, ofKind, Rval.scalarTop]

/-- `rval_equal` compares what the kinds make of the records. -/
theorem equal_eq (a b : RvalRecord) : a.equal b = a.toRval.equal b.toRval := by
  obtain ⟨ka, sa, loa, hia, ia⟩ := a
  obtain ⟨kb, sb, lob, hib, ib⟩ := b
  cases ka <;> cases kb <;> rfl

theorem equal_iff {a b : RvalRecord} : a.equal b = true ↔ a.toRval = b.toRval := by
  rw [equal_eq, Rval.equal_iff]

theorem equal_refl (a : RvalRecord) : a.equal a = true := equal_iff.mpr rfl

theorem canonical_iff (a : RvalRecord) : a.Canonical ↔ a.toRval.Canonical := by
  obtain ⟨ka, sa, loa, hia, ia⟩ := a
  cases ka <;> simp [Canonical, toRval, Rval.Canonical]

end RvalRecord

structure VStateRecord where
  x : Reg → RvalRecord
  valid : Bool

namespace VStateRecord

/-- `vstate_join`: the state left in `dst` and the flag returned. -/
def vstateJoin (dst src : VStateRecord) : VStateRecord × Bool :=
  if !src.valid then (dst, false)
  else if !dst.valid then (src, true)
  else
    let st := (List.finRange 32).foldl
      (Lib.sweepStep RvalRecord.equal fun i v => v.join (src.x i)) (dst.x, false)
    ({ dst with x := st.1 }, st.2)

def Canonical (st : VStateRecord) : Prop := ∀ r, (st.x r).Canonical

def Equal (a b : VStateRecord) : Prop := a.valid = b.valid ∧ ∀ r, (a.x r).equal (b.x r) = true

def toVState (st : VStateRecord) : VState := ⟨fun r => (st.x r).toRval, st.valid⟩

variable {dst src : VStateRecord}

theorem equal_iff {a b : VStateRecord} : a.Equal b ↔ a.toVState = b.toVState := by
  rw [VState.ext_iff']
  exact and_congr_right fun _ => forall_congr' fun r => RvalRecord.equal_iff

/-- The loop that stores only what differs leaves the join of the values. -/
theorem toVState_vstateJoin (dst src : VStateRecord) :
    (vstateJoin dst src).1.toVState = dst.toVState.join src.toVState := by
  unfold vstateJoin VState.join
  cases hs : src.valid with
  | false => simp [toVState, hs]
  | true =>
    cases hd : dst.valid with
    | false => simp [toVState, hs, hd]
    | true =>
      simp only [toVState, hs, hd, Bool.not_true, Bool.false_eq_true, if_false]
      rw [VState.ext_iff']
      refine ⟨rfl, fun r => ?_⟩
      dsimp only
      rw [Lib.sweep_apply (List.nodup_finRange 32) r]
      split
      · exact RvalRecord.toRval_join _ _
      · rename_i hkept
        have hkept : ((dst.x r).join (src.x r)).equal (dst.x r) = true := by
          simpa [List.mem_finRange] using hkept
        rw [← RvalRecord.toRval_join, ← RvalRecord.equal_iff.mp hkept]

theorem vstateJoin_changed (dst src : VStateRecord) :
    (vstateJoin dst src).2 = dst.toVState.joinChanged src.toVState := by
  unfold vstateJoin VState.joinChanged
  cases hs : src.valid with
  | false => simp [toVState, hs]
  | true =>
    cases hd : dst.valid with
    | false => simp [toVState, hs, hd]
    | true =>
      simp only [toVState, hs, hd, Bool.not_true, Bool.false_eq_true, if_false]
      rw [Lib.sweep_changed (List.nodup_finRange 32), Bool.false_or]
      simp only [RvalRecord.equal_eq, RvalRecord.toRval_join]

/-- The flag is set exactly when the call changed a field of its destination. -/
theorem vstateJoin_changed_iff : (vstateJoin dst src).2 = true ↔ (vstateJoin dst src).1 ≠ dst := by
  unfold vstateJoin
  cases hs : src.valid with
  | false => simp
  | true =>
    cases hd : dst.valid with
    | false =>
      simp only [Bool.not_true, Bool.false_eq_true, if_false, Bool.not_false, if_true, true_iff]
      intro h
      rw [h, hd] at hs
      cases hs
    | true =>
      simp only [Bool.not_true, Bool.false_eq_true, if_false]
      rw [Lib.sweep_changed_iff RvalRecord.equal_refl (List.nodup_finRange 32)]
      obtain ⟨x, valid⟩ := dst
      obtain rfl : valid = true := hd
      simp [mk.injEq]

/-- The flag is set exactly when some register is no longer equal to its old value. -/
theorem vstateJoin_changed_iff_not_equal :
    (vstateJoin dst src).2 = true ↔ ¬ (vstateJoin dst src).1.Equal dst := by
  rw [equal_iff, toVState_vstateJoin, ← VState.joinChanged_eq_false, ← vstateJoin_changed,
    Bool.not_eq_false]

theorem vstateJoin_twice (hsrc : src.Canonical) :
    vstateJoin (vstateJoin dst src).1 src = ((vstateJoin dst src).1, false) := by
  have hcanon : src.toVState.Canonical := fun r => ((src.x r).canonical_iff).mp (hsrc r)
  have hflag : (vstateJoin (vstateJoin dst src).1 src).2 = false := by
    rw [vstateJoin_changed, VState.joinChanged_eq_false, toVState_vstateJoin, VState.join_join_self hcanon]
  have hsame : (vstateJoin (vstateJoin dst src).1 src).1 = (vstateJoin dst src).1 := by
    by_contra h
    rw [vstateJoin_changed_iff.mpr h] at hflag
    cases hflag
  exact Prod.ext hsame hflag

end VStateRecord

theorem Rval.joinLaws : Lib.JoinLaws Rval.join Eq Rval.Canonical .uninit scalarTop where
  closed _ _ := Canonical.join
  comm a b _ _ := join_comm a b
  assoc a b c _ _ _ := join_assoc a b c
  idem _ := join_self
  bot_left a _ := join_uninit_left a
  bot_right a _ := join_uninit_right a
  top_left a _ := join_scalarTop_left a
  top_right a _ := join_scalarTop_right a
  congr := by
    rintro a _ b _ - - - - rfl rfl
    rfl

/-- `rval_join` is a semilattice up to `rval_equal`, and the flag of `vstate_join` tells whether the state
changed, which a second join with the same source does not do. -/
theorem rvalJoin_semilattice :
    Lib.JoinLaws RvalRecord.join (fun a b => a.equal b = true) RvalRecord.Canonical RvalRecord.rvUninit
      RvalRecord.rvScalarTop ∧
    ∀ dst src : VStateRecord,
      (((dst.vstateJoin src).2 = true ↔ (dst.vstateJoin src).1 ≠ dst) ∧
        ((dst.vstateJoin src).2 = true ↔ ¬ (dst.vstateJoin src).1.Equal dst)) ∧
      (src.Canonical → (dst.vstateJoin src).1.vstateJoin src = ((dst.vstateJoin src).1, false)) :=
  ⟨.of_projection (fun _ _ => RvalRecord.equal_iff) RvalRecord.toRval_join RvalRecord.canonical_iff
      Rval.joinLaws,
    fun _ _ => ⟨⟨VStateRecord.vstateJoin_changed_iff, VStateRecord.vstateJoin_changed_iff_not_equal⟩,
      VStateRecord.vstateJoin_twice⟩⟩

end MerlinV
