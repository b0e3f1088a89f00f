import MerlinV.Machine.Shadow

/-! # Replaying a run

A run is determined by its entry state and by what its helpers and kfuncs return.  `replay`
follows a list of such events and keeps the shadow along, so that a concrete run can be
computed.
-/
namespace MerlinV

/-- What happens next: an instruction, a helper that returns `a0`, or a kfunc that returns. -/
inductive Event where
  | insn
  | helper (a0 : Word)
  | kfunc (id : BitVec 32)

def advance (E : Env) (s : MState) : Event → Option MState
  | .insn => (E.fetch s.pc).bind fun insn => exec insn s
  | .helper a0 =>
    if (E.fetch s.pc).any fun insn => insn.cls = .ecall then
      some { s with
        pc := s.pc + 4
        x := Function.update s.x 10
          (if s.x 17 = helperKfuncResolve.setWidth 64 then E.slot ((s.x 10).setWidth 32) else a0) }
    else none
  | .kfunc id => if ¬ E.InText s.pc ∧ s.pc = E.slot id then some { s with pc := s.x 1 } else none

theorem advance_mStep {E : Env} {s s' : MState} {e : Event} (h : advance E s e = some s') :
    MStep E s s' := by
  cases e with
  | insn =>
    obtain ⟨insn, hf, he⟩ := Option.bind_eq_some_iff.mp h
    exact .plain insn hf he
  | helper a0 =>
    simp only [advance] at h
    split at h
    · rename_i hc
      cases hf : E.fetch s.pc with
      | none => simp [hf] at hc
      | some insn =>
        obtain rfl := Option.some.inj h
        refine .helper insn hf (by simpa [hf] using hc) ⟨rfl, fun r hr => ?_, fun h7 => ?_⟩
        · have h10 : r ≠ 10 := by
            rintro rfl
            cases hr
          exact Function.update_of_ne h10 _ _
        · simp [h7]
    · cases h
  | kfunc id =>
    simp only [advance] at h
    split at h
    · rename_i hc
      obtain rfl := Option.some.inj h
      exact .kfunc id hc.1 hc.2 ⟨rfl, fun _ _ => rfl⟩
    · cases h

instance (textOffset : BitVec 32) (E : Env) (g : Shadow) (s' : MState) :
    Decidable (AtCall textOffset E g s') := by
  unfold AtCall
  infer_instance

instance (textOffset : BitVec 32) (E : Env) (s : MState) (g : Shadow) (s' : MState) :
    Decidable (FlowOk textOffset E s g s') := by
  unfold FlowOk
  cases E.fetch s.pc with
  | none => exact inferInstanceAs (Decidable (_ → AtCall textOffset E g s'))
  | some insn =>
    dsimp only
    split <;> infer_instance

section Replay

variable (textOffset : BitVec 32) (E : Env)

def replay : List Event → MState × Shadow → Option (MState × Shadow)
  | [], p => some p
  | e :: es, (s, g) =>
    match advance E s e with
    | none => none
    | some s' => if FlowOk textOffset E s g s' then replay es (s', g.next E s s') else none

def replayAny : List Event → MState → Option MState
  | [], s => some s
  | e :: es, s => (advance E s e).bind (replayAny es)

variable {textOffset E} {callback : Bool}

theorem replay_shadowRun {es : List Event} {s s' : MState} {g g' : Shadow}
    (h : ShadowRun textOffset E callback s g) (hr : replay textOffset E es (s, g) = some (s', g')) :
    ShadowRun textOffset E callback s' g' := by
  induction es generalizing s g with
  | nil =>
    obtain ⟨rfl, rfl⟩ := Prod.mk.inj (Option.some.inj hr)
    exact h
  | cons e es ih =>
    rw [replay] at hr
    cases ha : advance E s e with
    | none => simp [ha] at hr
    | some s₁ =>
      simp only [ha] at hr
      split at hr
      · rename_i hf
        exact ih (h.step (advance_mStep ha) hf) hr
      · cases hr

theorem replayAny_mRun {es : List Event} {s s' : MState} (h : MRun E callback s)
    (hr : replayAny E es s = some s') : MRun E callback s' := by
  induction es generalizing s with
  | nil =>
    obtain rfl := Option.some.inj hr
    exact h
  | cons e es ih =>
    obtain ⟨s₁, ha, hr⟩ := Option.bind_eq_some_iff.mp hr
    exact ih (h.step (advance_mStep ha)) hr

end Replay

section Sample

/-- A text at `0x80000` with its context at `0x1000` and its stack below `0x20000`. -/
def sampleEnv (text : Text) : Env where
  text := text
  base := 0x80000
  slot _ := 0x90000
  ctx := 0x1000
  sp0 := 0x20000
  ra0 := 0xf000
  slot_even _ := by decide
  ra0_even := by decide

def sampleRegs (r : Reg) : Word :=
  if r = 1 then 0xf000 else if r = 2 then 0x20000 else if r = 10 then 0x1000 else 0

/-- The entry state in which one more register has a value. -/
def sampleEntry (r : Reg) (v : Word) : MState where
  pc := 0x80000
  x := Function.update sampleRegs r v
  mem _ := 0

theorem sampleEntry_x {i r : Reg} (h : i ≠ r) (v : Word) : (sampleEntry r v).x i = sampleRegs i := by
  simp [sampleEntry, h]

theorem sampleEnv_outside {text : Text} (hlen : text.length < 2 ^ 32) :
    ¬ (sampleEnv text).InText (sampleEnv text).ra0 := by
  have hoff : (sampleEnv text).off (sampleEnv text).ra0 = 2 ^ 64 - 0x71000 := by
    change (0xf000#64 - 0x80000#64).toNat = _
    decide
  unfold Env.InText
  rw [hoff]
  change ¬ _ < text.length
  omega

theorem sampleEntry_entry {text : Text} (hlen : text.length < 2 ^ 32) (r : Reg) (v : Word)
    (hr : r ≠ 0 ∧ r ≠ 1 ∧ r ≠ 2 ∧ r ≠ 10) : Entry (sampleEnv text) false (sampleEntry r v) where
  pc := rfl
  zero := sampleEntry_x hr.1.symm v
  ra := sampleEntry_x hr.2.1.symm v
  sp := sampleEntry_x hr.2.2.1.symm v
  ctx := sampleEntry_x hr.2.2.2.symm v
  index h := by cases h
  outside := sampleEnv_outside hlen

theorem sampleEntry_callback {text : Text} (hlen : text.length < 2 ^ 32) :
    Entry (sampleEnv text) true (sampleEntry 11 0x1000) where
  pc := rfl
  zero := rfl
  ra := rfl
  sp := rfl
  ctx := rfl
  index _ := by decide
  outside := sampleEnv_outside hlen

/-- A test that a replay along the block graph passes holds in some run. -/
theorem exists_shadowRun (textOffset : BitVec 32) (text : Text) (r : Reg) (v : Word) (es : List Event)
    (P : MState × Shadow → Bool) (hlen : text.length < 2 ^ 32) (hr : r ≠ 0 ∧ r ≠ 1 ∧ r ≠ 2 ∧ r ≠ 10)
    (h : (replay textOffset (sampleEnv text) es (sampleEntry r v, Shadow.entry false)).any P = true) :
    ∃ s g, ShadowRun textOffset (sampleEnv text) false s g ∧ P (s, g) = true := by
  obtain ⟨⟨s, g⟩, hrun, hP⟩ := (Option.any_eq_true _ _).mp h
  exact ⟨s, g, replay_shadowRun (.entry (sampleEntry_entry hlen r v hr)) hrun, hP⟩

theorem exists_mRun (text : Text) (r : Reg) (v : Word) (es : List Event) (P : MState → Bool)
    (hlen : text.length < 2 ^ 32) (hr : r ≠ 0 ∧ r ≠ 1 ∧ r ≠ 2 ∧ r ≠ 10)
    (h : (replayAny (sampleEnv text) es (sampleEntry r v)).any P = true) :
    ∃ s, MRun (sampleEnv text) false s ∧ P s = true := by
  obtain ⟨s, hrun, hP⟩ := (Option.any_eq_true _ _).mp h
  exact ⟨s, replayAny_mRun (.entry (sampleEntry_entry hlen r v hr)) hrun, hP⟩

end Sample

end MerlinV
