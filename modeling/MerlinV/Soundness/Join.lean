import MerlinV.Soundness.Transfer

/-! # What a join keeps

`rval_join` takes `Uninit` for "no information yet", while `step_insn` assigns it to the
registers that a helper may have overwritten.  A join with `Uninit` therefore forgets the
contents of such a register; all other pairs over-approximate both sides.
-/
namespace MerlinV

def Concretises (E : Env) (st : VState) (x : Reg → Word) : Prop := ∀ r, Gamma E (st.x r) (x r)

/-- Every register file of either side is one of the joined state. -/
def JoinSound (E : Env) (d s : VState) : Prop :=
  ∀ x, Concretises E d x ∨ Concretises E s x → Concretises E (d.join s) x

def Rval.Full : Rval → Prop
  | .scalar s => s = Scalar.top
  | .ptrCtx lo hi => lo = int64Min ∧ hi = int64Max
  | .ptrStack lo hi => lo = int64Min ∧ hi = int64Max
  | _ => True

/-- A register that may hold anything in `a` is as unconstrained in `b`, unless `a` stands for
no register file. -/
def UninitMeetsFull (E : Env) (a b : VState) : Prop :=
  (∃ x, Concretises E a x) → ∀ r, a.x r = .uninit → (b.x r).Full

section Values

variable {E : Env}

/-- A window of offsets around a base covers every value only when it is the whole range. -/
theorem forall_window_iff {base lo hi : Word} :
    (∀ v : Word, lo.toInt ≤ (v - base).toInt ∧ (v - base).toInt ≤ hi.toInt) ↔
      lo = int64Min ∧ hi = int64Max := by
  have e₁ : int64Min.toInt = -2 ^ 63 := by decide
  have e₂ : int64Max.toInt = 2 ^ 63 - 1 := by decide
  constructor
  · intro h
    have hlo := (h (int64Min + base)).1
    have hhi := (h (int64Max + base)).2
    rw [BitVec.add_sub_cancel] at hlo hhi
    have b₁ := BitVec.le_toInt (x := lo)
    have b₂ := BitVec.toInt_lt (x := hi)
    exact ⟨BitVec.eq_of_toInt_eq (by omega), BitVec.eq_of_toInt_eq (by omega)⟩
  · rintro ⟨rfl, rfl⟩ v
    have b₁ := BitVec.le_toInt (x := v - base)
    have b₂ := BitVec.toInt_lt (x := v - base)
    rw [e₁, e₂]
    omega

theorem forall_gamma_iff {a : Rval} : (∀ v, Gamma E a v) ↔ a.Full := by
  cases a with
  | scalar s =>
    constructor
    · exact Scalar.eq_top_of_forall_mem
    · rintro rfl
      exact Scalar.mem_top
  | ptrCtx lo hi => exact forall_window_iff
  | ptrStack lo hi => exact forall_window_iff
  | uninit => simp [Rval.Full]
  | ptrHelperRet id => simp [Rval.Full]
  | ptrKfuncSlot id => simp [Rval.Full]

theorem window_join_left {d lo hi : Word} (lo' hi' : Word)
    (h : lo.toInt ≤ d.toInt ∧ d.toInt ≤ hi.toInt) :
    (Rval.offMinJoin lo lo').toInt ≤ d.toInt ∧ d.toInt ≤ (Rval.offMaxJoin hi hi').toInt := by
  rw [Rval.offMinJoin_toInt, Rval.offMaxJoin_toInt]
  exact ⟨min_le_of_left_le h.1, le_max_of_le_left h.2⟩

/-- A join keeps the values of its left side, provided an `Uninit` there meets a full value. -/
theorem gamma_join_left {a b : Rval} {v : Word} (h : Gamma E a v) (hu : a = .uninit → b.Full) :
    Gamma E (a.join b) v := by
  by_cases ha : a = .uninit
  · have hb : Gamma E b v := forall_gamma_iff.mpr (hu ha) v
    rwa [ha, Rval.join_uninit_left]
  by_cases hb : b = .uninit
  · rwa [hb, Rval.join_uninit_right]
  by_cases hk : a.kind = b.kind
  · cases a <;> cases b <;> simp only [Rval.kind, reduceCtorEq] at hk
    · exact absurd rfl ha
    · exact Scalar.mem_join_left _ h
    · exact window_join_left _ _ h
    · exact window_join_left _ _ h
    · rw [Rval.join_ret_ret]
      split
      · trivial
      · exact gamma_scalarTop v
    · rw [Rval.join_slot_slot]
      split
      · trivial
      · exact gamma_scalarTop v
  · rw [Rval.join_of_kind_ne ha hb hk]
    exact gamma_scalarTop v

end Values

section States

variable {E : Env} {d s : VState}

theorem joinSound_comm (hd : d.valid = true) (hs : s.valid = true) :
    JoinSound E d s ↔ JoinSound E s d := by
  have hj : ∀ x, Concretises E (d.join s) x ↔ Concretises E (s.join d) x := by
    intro x
    simp only [Concretises, VState.join_x hd hs, VState.join_x hs hd, Rval.join_comm]
  unfold JoinSound
  simp only [hj, or_comm]

theorem Concretises.join_left {x : Reg → Word} (hd : d.valid = true) (hs : s.valid = true)
    (hu : UninitMeetsFull E d s) (h : Concretises E d x) : Concretises E (d.join s) x := by
  intro r
  rw [VState.join_x hd hs]
  exact gamma_join_left (h r) (hu ⟨x, h⟩ r)

/-- Where a side stands for some register file, any value may be put in an `Uninit` register
of it. -/
theorem JoinSound.uninitMeetsFull (hd : d.valid = true) (hs : s.valid = true)
    (h : JoinSound E d s) : UninitMeetsFull E d s := by
  rintro ⟨x, hx⟩ r hr
  apply (forall_gamma_iff (E := E)).mp
  intro v
  have hv : Concretises E d (Function.update x r v) := by
    intro q
    rcases eq_or_ne q r with rfl | hq
    · rw [hr]
      trivial
    · rw [Function.update_of_ne hq]
      exact hx q
  have hj := h _ (.inl hv) r
  rwa [VState.join_x hd hs, hr, Rval.join_uninit_left, Function.update_self] at hj

/-- A join of two valid states over-approximates both exactly when no register is `Uninit` in
one side, which stands for some register file, and constrained in the other. -/
theorem joinSound_iff (hd : d.valid = true) (hs : s.valid = true) :
    JoinSound E d s ↔ UninitMeetsFull E d s ∧ UninitMeetsFull E s d := by
  constructor
  · intro h
    exact ⟨h.uninitMeetsFull hd hs, ((joinSound_comm hd hs).mp h).uninitMeetsFull hs hd⟩
  · rintro ⟨h₁, h₂⟩ x (hx | hx)
    · exact hx.join_left hd hs h₁
    · have hj := hx.join_left hs hd h₂
      intro r
      rw [VState.join_x hd hs, Rval.join_comm, ← VState.join_x hs hd]
      exact hj r

/-- The two paths that meet in `li a1, 1; beq ..; li a1, 5`, at the merge. -/
theorem joinSound_constants :
    JoinSound (sampleEnv []) ((vstateInitEntry merlinVerifierCfgInitForMvdp).set 11 (.const 1))
      ((vstateInitEntry merlinVerifierCfgInitForMvdp).set 11 (.const 5)) := by
  refine (joinSound_iff rfl rfl).mpr ⟨fun _ r hr => ?_, fun _ r hr => ?_⟩
  · rw [VState.set_x] at hr ⊢
    split at hr
    · cases hr
    · rw [if_neg ‹_›, hr]
      trivial
  · rw [VState.set_x] at hr ⊢
    split at hr
    · cases hr
    · rw [if_neg ‹_›, hr]
      trivial

/-- `a1` is `Uninit` at entry.  Where a path that skips `li a1, 5` meets the one that takes it,
the join says that `a1` is 5. -/
theorem skipped_li_not_joinSound :
    ¬ JoinSound (sampleEnv []) (vstateInitEntry merlinVerifierCfgInitForMvdp)
      (stepInsn merlinDecoder merlinVerifierCfgInitForMvdp (merlinDecode 0x00500593 4)
        (vstateInitEntry merlinVerifierCfgInitForMvdp) 0).st := by
  intro h
  have hj := h (sampleEntry 11 7).x (.inl (sampleEntry_gamma 7)) 11
  have hx : ((vstateInitEntry merlinVerifierCfgInitForMvdp).join
      (stepInsn merlinDecoder merlinVerifierCfgInitForMvdp (merlinDecode 0x00500593 4)
        (vstateInitEntry merlinVerifierCfgInitForMvdp) 0).st).x 11 = .const 5 := by
    decide +kernel
  rw [hx, gamma_const] at hj
  exact absurd hj (by decide)

end States

end MerlinV
