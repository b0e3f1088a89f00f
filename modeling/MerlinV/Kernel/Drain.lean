import MerlinV.Kernel.Holders
import MerlinV.Lib.Quiescence

/-! # No program is leaked

Once nobody loads, looks up or duplicates any more, the calls in progress, the closes and the work queue are all
that is left to happen.  They cannot go on for ever, and where they stop every program has been freed.
-/
namespace MerlinV.Kernel
open MerlinV.Lib

def ProgEvent.winding : ProgEvent → Bool
  | .load => false
  | .newFd _ getfd => getfd
  | .fget _ _ => false
  | .getById _ => false
  | .dup _ => false
  | _ => true

section Weights

/-- What is left of a call: the file it makes needs its close and its release, a load may abort its program. -/
def Call.weight : Call → ℕ
  | .building _ => 5
  | .loaded _ => 3
  | .unwinding _ => 1
  | .fetched _ _ => 3
  | .counted _ _ _ => 2
  | .inUse _ _ => 1
  | .returned => 0

def ProgFile.weight (f : ProgFile) : ℕ := f.fds + if f.released then 0 else 1

def ProgObject.weight (o : ProgObject) : ℕ := if o.phase = .loaded ∨ o.phase = .building then 1 else 0

def ProgWorld.weight (w : ProgWorld) : ℕ :=
  (w.calls.map Call.weight).sum + (w.files.map ProgFile.weight).sum + (w.progs.map ProgObject.weight).sum

end Weights

/-- Nothing is open, nothing goes on, and every program is freed: by its loader, or by the work queue, where its
free was scheduled once. -/
structure Quiet (w : ProgWorld) : Prop where
  calls : ∀ call ∈ w.calls, call = .returned
  files : ∀ file ∈ w.files, file.fds = 0 ∧ file.released = true
  progs : ∀ o ∈ w.progs, o.phase = .aborted ∧ o.scheduled = 0 ∨ o.phase = .freed ∧ o.scheduled = 1
  noBadPut : w.badPuts = []

variable {w w' : ProgWorld} {c p : ℕ} {e : ProgEvent}

section Lighter

@[simp] theorem put_weight (o : ProgObject) : o.put.weight = o.weight := by
  simp only [ProgObject.put]
  split <;> rfl

theorem merlinProgPut_weight (w : ProgWorld) (p : ℕ) :
    ((w.merlinProgPut p).progs.map ProgObject.weight).sum ≤ (w.progs.map ProgObject.weight).sum :=
  sum_modify_le (n := 0) fun o => (put_weight o).le

theorem modifyRefs_weight (w : ProgWorld) (p : ℕ) (g : Refcount → Refcount) :
    ((w.modifyRefs p g).progs.map ProgObject.weight).sum ≤ (w.progs.map ProgObject.weight).sum :=
  sum_modify_le (n := 0) fun _ => le_rfl

theorem setPhase_weight (w : ProgWorld) (p : ℕ) (phase : ProgPhase) :
    ((w.setPhase p phase).progs.map ProgObject.weight).sum ≤ (w.progs.map ProgObject.weight).sum + 1 := by
  apply sum_modify_le
  intro o
  simp only [ProgObject.weight]
  split_ifs <;> omega

/-- A call goes on, and its program and files become heavier by less than it becomes lighter. -/
theorem setCall_weight_lt {old new : Call} {n : ℕ} {w₁ : ProgWorld} (hc : w.calls[c]? = some old)
    (hcalls : w₁.calls = w.calls) (hlt : new.weight + n < old.weight)
    (hle : (w₁.files.map ProgFile.weight).sum + (w₁.progs.map ProgObject.weight).sum ≤
      (w.files.map ProgFile.weight).sum + (w.progs.map ProgObject.weight).sum + n) :
    (w₁.setCall c new).weight < w.weight := by
  have hsum := sum_set_add (f := Call.weight) (b := new) hc
  rw [← hcalls] at hsum
  simp only [ProgWorld.weight, ProgWorld.setCall]
  rw [← hcalls]
  omega

theorem progStep_weight_lt (he : e.winding = true) (hstep : progStep w e = some w') : w'.weight < w.weight := by
  cases e with
  | load => cases he
  | fget f user => cases he
  | getById p => cases he
  | dup f => cases he
  | loadFails c =>
    simp only [progStep] at hstep
    split at hstep
    case h_2 => cases hstep
    case h_1 p hc =>
      obtain rfl := Option.some.inj hstep
      refine setCall_weight_lt (n := 1) hc rfl (by simp [Call.weight]) ?_
      have hphase := setPhase_weight w p .aborted
      exact Nat.add_le_add_left hphase _
  | loadSucceeds c =>
    simp only [progStep] at hstep
    split at hstep
    case h_2 => cases hstep
    case h_1 p hc =>
      obtain rfl := Option.some.inj hstep
      refine setCall_weight_lt (n := 1) hc rfl (by simp [Call.weight]) ?_
      have hphase := setPhase_weight w p .loaded
      exact Nat.add_le_add_left hphase _
  | newFd c getfd =>
    obtain rfl : getfd = true := he
    simp only [progStep] at hstep
    split at hstep
    case h_2 => cases hstep
    case h_1 p hc =>
      obtain rfl := Option.some.inj hstep
      refine setCall_weight_lt (n := 2) hc rfl (by simp [Call.weight]) ?_
      simp [ProgWorld.merlinProgNewFd, ProgWorld.addFile, ProgFile.weight]
      omega
  | putUnwinding c =>
    simp only [progStep] at hstep
    split at hstep
    case h_2 => cases hstep
    case h_1 p hc =>
      obtain rfl := Option.some.inj hstep
      refine setCall_weight_lt (n := 0) hc rfl (by simp [Call.weight]) ?_
      exact Nat.add_le_add_left (merlinProgPut_weight w p) _
  | refcountInc c =>
    simp only [progStep] at hstep
    split at hstep
    case h_2 => cases hstep
    case h_1 f user hc =>
      split at hstep
      case h_2 => cases hstep
      case h_1 file hf =>
        obtain rfl := Option.some.inj hstep
        refine setCall_weight_lt (n := 0) hc rfl (by simp [Call.weight]) ?_
        exact Nat.add_le_add_left (modifyRefs_weight w file.prog Refcount.inc) _
  | fput c =>
    simp only [progStep] at hstep
    split at hstep
    case h_2 => cases hstep
    case h_1 f p user hc =>
      obtain rfl := Option.some.inj hstep
      exact setCall_weight_lt (n := 0) hc rfl (by simp [Call.weight]) le_rfl
  | exit c rc =>
    simp only [progStep] at hstep
    split at hstep
    case h_2 => cases hstep
    case h_1 p user hc =>
      split_ifs at hstep
      obtain rfl := Option.some.inj hstep
      refine setCall_weight_lt (n := 0) hc rfl (by simp [Call.weight]) ?_
      exact Nat.add_le_add_left (merlinProgPut_weight w p) _
  | close f =>
    simp only [progStep] at hstep
    split at hstep
    case h_2 => cases hstep
    case h_1 file hf =>
      split_ifs at hstep with hfds
      obtain rfl := Option.some.inj hstep
      have hsum := sum_set_add (f := ProgFile.weight) (b := { file with fds := file.fds - 1 }) hf
      simp only [ProgFile.weight] at hsum
      simp only [ProgWorld.weight]
      omega
  | release f =>
    simp only [progStep] at hstep
    split at hstep
    case h_2 => cases hstep
    case h_1 file hf =>
      split_ifs at hstep with hready
      obtain rfl := Option.some.inj hstep
      have hsum := sum_set_add (f := ProgFile.weight) (b := { file with released := true }) hf
      have hput := merlinProgPut_weight w file.prog
      simp only [ProgFile.weight, hready.1, Bool.false_eq_true, if_true, if_false] at hsum
      have hcalls : (w.merlinProgPut file.prog).calls = w.calls := rfl
      simp only [ProgWorld.weight, hcalls]
      omega
  | freeWork p =>
    simp only [progStep] at hstep
    split at hstep
    case h_2 => cases hstep
    case h_1 o ho =>
      split_ifs at hstep with hready
      obtain rfl := Option.some.inj hstep
      have hsum := sum_modify_add (f := ProgObject.weight) (g := fun o => { o with phase := .freed }) ho
      have hloaded : o.weight = 1 := by simp [ProgObject.weight, hready.1]
      have hfreed : ({ o with phase := .freed } : ProgObject).weight = 0 := by simp [ProgObject.weight]
      rw [hloaded, hfreed] at hsum
      simp only [ProgWorld.weight, ProgWorld.setPhase]
      omega

end Lighter

section Rest

structure Tidy (w : ProgWorld) : Prop where
  inv : Inv w
  fetched : ∀ (f : ℕ) (user : ProgUser), .fetched f user ∈ w.calls → f < w.files.length

theorem init_tidy : Tidy .init := ⟨init_inv, nofun⟩

theorem progStep_files_length (hstep : progStep w e = some w') : w.files.length ≤ w'.files.length := by
  cases e <;> simp only [progStep] at hstep <;> grind [ProgWorld.setCall, ProgWorld.addCall, ProgWorld.setPhase,
    ProgWorld.modifyRefs, ProgWorld.merlinProgPut, ProgWorld.merlinProgNewFd, ProgWorld.addFile]

/-- A call that has just fetched a file has done so before, or in this step. -/
theorem progStep_fetched (hstep : progStep w e = some w') {f : ℕ} {user : ProgUser}
    (hmem : .fetched f user ∈ w'.calls) : .fetched f user ∈ w.calls ∨ f < w.files.length := by
  cases e <;> simp only [progStep] at hstep <;> grind [ProgWorld.setCall, ProgWorld.addCall, ProgWorld.setPhase,
    ProgWorld.modifyRefs, ProgWorld.merlinProgPut, ProgWorld.merlinProgNewFd, ProgWorld.addFile,
    List.mem_or_eq_of_mem_set]

theorem progStep_tidy (he : e.getfdOk = true) (h : Tidy w) (hstep : progStep w e = some w') : Tidy w' := by
  refine ⟨progStep_inv he h.inv hstep, fun f user hmem => ?_⟩
  have hle := progStep_files_length hstep
  rcases progStep_fetched hstep hmem with hold | hnew
  · have hlt := h.fetched f user hold
    omega
  · omega

theorem progRun_eq_runSteps (w : ProgWorld) (es : List ProgEvent) : progRun w es = runSteps progStep w es := by
  induction es generalizing w with
  | nil => rfl
  | cons e es ih =>
    rw [progRun, runSteps]
    congr 1
    funext w₁
    exact ih w₁

theorem getfdOk_of_winding (he : e.winding = true) : e.getfdOk = true := by
  cases e <;> first | rfl | exact he

theorem Tidy.returned_of_stuck (h : Tidy w) (hstuck : Stuck progStep ProgEvent.winding w) :
    ∀ call ∈ w.calls, call = .returned := by
  intro call hmem
  obtain ⟨c, hlt, hget⟩ := List.mem_iff_getElem.mp hmem
  have hc : w.calls[c]? = some call := List.getElem?_eq_some_iff.mpr ⟨hlt, hget⟩
  cases call with
  | building p =>
    have hnone := hstuck (.loadSucceeds c) rfl
    simp [progStep, hc] at hnone
  | loaded p =>
    have hnone := hstuck (.newFd c true) rfl
    simp [progStep, hc] at hnone
  | unwinding p =>
    have hnone := hstuck (.putUnwinding c) rfl
    simp [progStep, hc] at hnone
  | fetched f user =>
    have hnone := hstuck (.refcountInc c) rfl
    have hf := h.fetched f user hmem
    simp [progStep, hc, List.getElem?_eq_getElem hf] at hnone
  | counted f p user =>
    have hnone := hstuck (.fput c) rfl
    simp [progStep, hc] at hnone
  | inUse p user =>
    have hnone := hstuck (.exit c 0) rfl
    have hzero : (0 : ℤ) ∈ user.exitCodes := by cases user <;> decide
    simp [progStep, hc, hzero] at hnone
  | returned => rfl

theorem released_of_stuck (hstuck : Stuck progStep ProgEvent.winding w)
    (hcalls : ∀ call ∈ w.calls, call = .returned) :
    ∀ file ∈ w.files, file.fds = 0 ∧ file.released = true := by
  intro file hmem
  obtain ⟨f, hlt, hget⟩ := List.mem_iff_getElem.mp hmem
  have hf : w.files[f]? = some file := List.getElem?_eq_some_iff.mpr ⟨hlt, hget⟩
  have hfds : file.fds = 0 := by
    have hnone := hstuck (.close f) rfl
    simpa [progStep, hf] using hnone
  refine ⟨hfds, ?_⟩
  have huses : w.calls.countP (Call.uses f) = 0 := by
    rw [List.countP_eq_zero]
    intro call hcall
    rw [hcalls call hcall]
    exact Bool.false_ne_true
  have hnone := hstuck (.release f) rfl
  simpa [progStep, hf, hfds, huses] using hnone

theorem Inv.freed_of_stuck (h : Inv w) (hstuck : Stuck progStep ProgEvent.winding w)
    (hcalls : ∀ call ∈ w.calls, call = .returned)
    (hfiles : ∀ file ∈ w.files, file.fds = 0 ∧ file.released = true) :
    ∀ o ∈ w.progs, o.phase = .aborted ∧ o.scheduled = 0 ∨ o.phase = .freed ∧ o.scheduled = 1 := by
  intro o hmem
  obtain ⟨p, hlt, hget⟩ := List.mem_iff_getElem.mp hmem
  have ho : w.progs[p]? = some o := List.getElem?_eq_some_iff.mpr ⟨hlt, hget⟩
  have hholders : w.holders p = 0 := by
    have hcalls' : w.calls.countP (Call.holds p) = 0 := by
      rw [List.countP_eq_zero]
      intro call hcall
      rw [hcalls call hcall]
      exact Bool.false_ne_true
    have hfiles' : w.files.countP (ProgFile.holds p) = 0 := by
      rw [List.countP_eq_zero]
      intro file hfile
      simp [ProgFile.holds, (hfiles file hfile).2]
    rw [ProgWorld.holders, hcalls', hfiles']
  have htracked := h.tracked p o ho
  rw [hholders] at htracked
  cases hphase : o.phase with
  | building =>
    simp only [Tracked, hphase] at htracked
    omega
  | aborted =>
    simp only [Tracked, hphase] at htracked
    exact .inl ⟨rfl, htracked.1⟩
  | loaded =>
    simp only [Tracked, hphase, if_true] at htracked
    have hnone := hstuck (.freeWork p) rfl
    simp [progStep, ho, hphase, htracked.2.1] at hnone
  | freed =>
    simp only [Tracked, hphase] at htracked
    exact .inr ⟨rfl, htracked.1⟩

theorem progStep_windsDown : WindsDown progStep Tidy ProgEvent.winding ProgWorld.weight Quiet where
  keeps _ _ _ h he hstep := progStep_tidy (getfdOk_of_winding he) h hstep
  lighter _ _ _ he hstep := progStep_weight_lt he hstep
  ends _ h hstuck := by
    have hcalls := h.returned_of_stuck hstuck
    have hfiles := released_of_stuck hstuck hcalls
    exact ⟨hcalls, hfiles, h.inv.freed_of_stuck hstuck hcalls hfiles, h.inv.noBadPut⟩

end Rest

section Runs

theorem progRun_tidy {es : List ProgEvent} (hes : ∀ e ∈ es, e.getfdOk = true) (h : Tidy w)
    (hrun : progRun w es = some w') : Tidy w' := by
  rw [progRun_eq_runSteps] at hrun
  exact runSteps_keeps (fun _ _ _ h he hstep => progStep_tidy he h hstep) h hes hrun

/-- However a run has gone on so far, when nothing new begins it ends within its weight, and only where nothing is
open and every program is freed; and it can end. -/
theorem progRun_drains (es : List ProgEvent) (w : ProgWorld) (hes : ∀ e ∈ es, e.getfdOk = true)
    (hrun : progRun .init es = some w) :
    (∀ es' w', (∀ e ∈ es', e.winding = true) → progRun w es' = some w' →
      es'.length ≤ w.weight ∧ (Stuck progStep ProgEvent.winding w' → Quiet w')) ∧
    ∃ es' w', (∀ e ∈ es', e.winding = true) ∧ progRun w es' = some w' ∧ Quiet w' := by
  have htidy := progRun_tidy hes init_tidy hrun
  refine ⟨fun es' w' hes' hrun' => ?_, ?_⟩
  · rw [progRun_eq_runSteps] at hrun'
    have hle := progStep_windsDown.length_add_weight_le hes' hrun'
    have htidy' := runSteps_keeps progStep_windsDown.keeps htidy hes' hrun'
    exact ⟨by omega, progStep_windsDown.ends w' htidy'⟩
  · obtain ⟨es', w', hes', hrun', hquiet⟩ := progStep_windsDown.exists_rest htidy
    rw [← progRun_eq_runSteps] at hrun'
    exact ⟨es', w', hes', hrun', hquiet⟩

/-- A descriptor closed while its program is looked up through it, and a load in progress. -/
theorem progRun_drains_sample :
    ∃ w, progRun .init [.load, .loadSucceeds 0, .load, .newFd 0 true, .fget 0 .testRun, .close 0] = some w ∧
      w.weight = 11 ∧ ∃ es' w', (∀ e ∈ es', e.winding = true) ∧ progRun w es' = some w' ∧ Quiet w' :=
  ⟨_, rfl, rfl, (progRun_drains
    [.load, .loadSucceeds 0, .load, .newFd 0 true, .fget 0 .testRun, .close 0] _ (by decide) rfl).2⟩

end Runs

end MerlinV.Kernel
