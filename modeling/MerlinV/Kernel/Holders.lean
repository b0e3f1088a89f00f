import MerlinV.Kernel.Lifetime

/-! # Who holds a program

Every put has a holder behind it, as long as `merlin_prog_new_fd` succeeds: when it fails it has already
dropped the reference that its caller then drops again.
-/
namespace MerlinV.Kernel
open MerlinV.Lib

variable {w w' : ProgWorld} {o : ProgObject} {n b p c f : ℕ}

section Protocol

/-- What a program object looks like with `n` holders, `b` of them loaders that are still building
it. -/
def Tracked (o : ProgObject) (n b : ℕ) : Prop :=
  match o.phase with
  | .building => o.refs = .counted 1 ∧ o.scheduled = 0 ∧ n = 1 ∧ b = 1
  | .aborted => o.scheduled = 0 ∧ n = 0 ∧ b = 0
  | .loaded => o.refs = .counted n ∧ o.scheduled = (if n = 0 then 1 else 0) ∧ b = 0
  | .freed => o.scheduled = 1 ∧ n = 0 ∧ b = 0

theorem Tracked.loaded_of_lt (h : Tracked o n b) (hb : b < n) :
    o.phase = .loaded ∧ o.refs = .counted n ∧ o.scheduled = 0 ∧ b = 0 := by
  cases hp : o.phase <;> simp only [Tracked, hp] at h
  · omega
  · omega
  · obtain ⟨hrefs, hsched, rfl⟩ := h
    rw [if_neg (by omega)] at hsched
    exact ⟨rfl, hrefs, hsched, rfl⟩
  · omega

theorem Tracked.put (h : Tracked o (n + 1) b) (hb : b < n + 1) : o.hasRef = true ∧ Tracked o.put n b := by
  obtain ⟨hphase, hrefs, hsched, rfl⟩ := h.loaded_of_lt hb
  constructor
  · simp [ProgObject.hasRef, hphase, hrefs]
  · cases n with
    | zero => simp [ProgObject.put, hrefs, Refcount.decAndTest, Tracked, hphase, hsched]
    | succ m => simp [ProgObject.put, hrefs, Refcount.decAndTest, Tracked, hphase, hsched]

theorem Tracked.inc (h : Tracked o n b) (hb : b < n) : Tracked { o with refs := o.refs.inc } (n + 1) b := by
  obtain ⟨hphase, hrefs, hsched, rfl⟩ := h.loaded_of_lt hb
  cases n with
  | zero => omega
  | succ m => simp [Tracked, hphase, hrefs, hsched, Refcount.inc]

theorem Tracked.building_of_pos (h : Tracked o n b) (hb : 0 < b) :
    o.refs = .counted 1 ∧ o.scheduled = 0 ∧ n = 1 ∧ b = 1 := by
  cases hp : o.phase <;> simp only [Tracked, hp] at h
  · exact h
  · omega
  · omega
  · omega

theorem Tracked.load (h : Tracked o n (b + 1)) : Tracked { o with phase := .loaded } n b := by
  obtain ⟨hrefs, hsched, rfl, hb⟩ := h.building_of_pos (by omega)
  simp only [Tracked]
  exact ⟨hrefs, by simpa using hsched, by omega⟩

theorem Tracked.abort (h : Tracked o (n + 1) (b + 1)) : Tracked { o with phase := .aborted } n b := by
  obtain ⟨-, hsched, hn, hb⟩ := h.building_of_pos (by omega)
  simp only [Tracked]
  exact ⟨hsched, by omega, by omega⟩

theorem Tracked.free (h : Tracked o n b) (hphase : o.phase = .loaded) (hsched : 0 < o.scheduled) :
    Tracked { o with phase := .freed } n b := by
  simp only [Tracked, hphase] at h
  obtain ⟨-, hs, rfl⟩ := h
  have hn : n = 0 := by
    by_contra hne
    rw [if_neg hne] at hs
    omega
  rw [if_pos hn] at hs
  simp only [Tracked]
  exact ⟨hs, hn, trivial⟩

end Protocol

section Counts

def Call.builds (p : ℕ) : Call → Bool
  | .building q => q = p
  | _ => false

@[simp] theorem Call.holds_returned (p : ℕ) : Call.returned.holds p = false := rfl

@[simp] theorem Call.builds_returned (p : ℕ) : Call.returned.builds p = false := rfl

def ProgWorld.builders (w : ProgWorld) (p : ℕ) : ℕ := w.calls.countP (Call.builds p)

theorem countP_builds_le (calls : List Call) (p : ℕ) :
    calls.countP (Call.builds p) ≤ calls.countP (Call.holds p) := by
  apply List.countP_mono_left
  intro call _ hb
  cases call <;> first | exact hb | cases hb

theorem builders_le_holders (w : ProgWorld) (p : ℕ) : w.builders p ≤ w.holders p := by
  have hle := countP_builds_le w.calls p
  rw [ProgWorld.builders, ProgWorld.holders]
  omega

theorem holders_setCall {old : Call} (hc : w.calls[c]? = some old) (new : Call) (p : ℕ) :
    (w.setCall c new).holders p + (if old.holds p then 1 else 0) =
      w.holders p + if new.holds p then 1 else 0 := by
  have := countP_set_add (p := Call.holds p) (b := new) hc
  simp only [ProgWorld.holders, ProgWorld.setCall]
  omega

theorem builders_setCall {old : Call} (hc : w.calls[c]? = some old) (new : Call) (p : ℕ) :
    (w.setCall c new).builders p + (if old.builds p then 1 else 0) =
      w.builders p + if new.builds p then 1 else 0 :=
  countP_set_add hc

theorem holders_addCall (call : Call) (p : ℕ) :
    (w.addCall call).holders p = w.holders p + if call.holds p then 1 else 0 := by
  simp only [ProgWorld.holders, ProgWorld.addCall, List.countP_append, List.countP_singleton]
  omega

theorem builders_addCall (call : Call) (p : ℕ) :
    (w.addCall call).builders p = w.builders p + if call.builds p then 1 else 0 := by
  simp only [ProgWorld.builders, ProgWorld.addCall, List.countP_append, List.countP_singleton]

theorem holders_addFile (q p : ℕ) :
    (w.addFile q).holders p = w.holders p + if q = p then 1 else 0 := by
  simp only [ProgWorld.holders, ProgWorld.addFile, List.countP_append, List.countP_singleton, ProgFile.holds]
  simp
  omega

theorem builders_lt_of_call {call : Call} (hc : w.calls[c]? = some call) (hh : call.holds p = true)
    (hb : call.builds p = false) : w.builders p < w.holders p := by
  have hle := builders_le_holders (w.setCall c .returned) p
  have hholders := holders_setCall hc .returned p
  have hbuilders := builders_setCall hc .returned p
  rw [if_pos hh, if_neg nofun] at hholders
  rw [if_neg (by simp [hb]), if_neg nofun] at hbuilders
  omega

theorem builders_lt_of_file {file : ProgFile} (hf : w.files[f]? = some file) (hh : file.holds p = true) :
    w.builders p < w.holders p := by
  have hpos := countP_pos_of_getElem? hf hh
  have hle := countP_builds_le w.calls p
  rw [ProgWorld.builders, ProgWorld.holders]
  omega

end Counts

structure Inv (w : ProgWorld) : Prop where
  tracked : ∀ (p : ℕ) (o : ProgObject), w.progs[p]? = some o → Tracked o (w.holders p) (w.builders p)
  fresh : ∀ p, w.progs.length ≤ p → w.holders p = 0
  released : ∀ (f : ℕ) (file : ProgFile), w.files[f]? = some file → file.released = true →
    file.fds = 0 ∧ w.calls.countP (Call.uses f) = 0
  noUnwinding : ∀ p, Call.unwinding p ∉ w.calls
  noBadPut : w.badPuts = []

section Steps

theorem Inv.lt_length (h : Inv w) (hpos : 0 < w.holders p) : p < w.progs.length := by
  by_contra hge
  have := h.fresh p (by omega)
  omega

/-- A step that changes one program, its holders and its builders. -/
theorem Inv.update (h : Inv w) (q : ℕ) (g : ProgObject → ProgObject) (hq : q < w.progs.length)
    (hprogs : w'.progs = w.progs.modify q g)
    (hother : ∀ p, p ≠ q → w'.holders p = w.holders p ∧ w'.builders p = w.builders p)
    (hself : ∀ o, w.progs[q]? = some o → Tracked o (w.holders q) (w.builders q) →
      Tracked (g o) (w'.holders q) (w'.builders q))
    (hreleased : ∀ (f : ℕ) (file : ProgFile), w'.files[f]? = some file → file.released = true →
      file.fds = 0 ∧ w'.calls.countP (Call.uses f) = 0)
    (hunwinding : ∀ p, Call.unwinding p ∉ w'.calls) (hbad : w'.badPuts = []) : Inv w' := by
  refine ⟨?_, ?_, hreleased, hunwinding, hbad⟩
  · intro p o ho
    rw [hprogs, List.getElem?_modify] at ho
    obtain ⟨o', ho', rfl⟩ := Option.map_eq_some_iff.mp ho
    by_cases hp : p = q
    · subst hp
      rw [if_pos rfl]
      exact hself o' ho' (h.tracked p o' ho')
    · rw [if_neg (Ne.symm hp), (hother p hp).1, (hother p hp).2]
      exact h.tracked p o' ho'
  · intro p hp
    rw [hprogs, List.length_modify] at hp
    rw [(hother p (by omega)).1]
    exact h.fresh p hp

theorem Inv.released_setCall (h : Inv w) {old new : Call} (hc : w.calls[c]? = some old)
    (huses : ∀ f, new.uses f = true → old.uses f = true) :
    ∀ (f : ℕ) (file : ProgFile), w.files[f]? = some file → file.released = true →
      file.fds = 0 ∧ (w.calls.set c new).countP (Call.uses f) = 0 := by
  intro f file hf hr
  obtain ⟨hfds, hcount⟩ := h.released f file hf hr
  have hset := countP_set_add (p := Call.uses f) (b := new) hc
  refine ⟨hfds, ?_⟩
  cases hnew : new.uses f with
  | true =>
    rw [if_pos (huses f hnew), if_pos hnew] at hset
    omega
  | false =>
    rw [hnew, if_neg Bool.false_ne_true] at hset
    omega

theorem Inv.unwinding_setCall (h : Inv w) {new : Call} (hnew : ∀ p, new ≠ .unwinding p) :
    ∀ p, Call.unwinding p ∉ w.calls.set c new := by
  intro p hmem
  rcases List.mem_or_eq_of_mem_set hmem with hmem | heq
  · exact h.noUnwinding p hmem
  · exact hnew p heq.symm

/-- A call goes on, with the program it is about.  Apart from this call there are `n` holders, `b` of
them building. -/
theorem Inv.move (h : Inv w) {old new : Call} (hc : w.calls[c]? = some old) (q : ℕ)
    (g : ProgObject → ProgObject) (hq : q < w.progs.length) (hold : ∀ p, old.holds p = true → q = p)
    (hnew : ∀ p, new.holds p = true → q = p) (huses : ∀ f, new.uses f = true → old.uses f = true)
    (hun : ∀ p, new ≠ .unwinding p)
    (hself : ∀ o n b, b ≤ n → w.holders q = n + (if old.holds q then 1 else 0) →
      w.builders q = b + (if old.builds q then 1 else 0) → Tracked o (w.holders q) (w.builders q) →
      Tracked (g o) (n + if new.holds q then 1 else 0) (b + if new.builds q then 1 else 0))
    {bad : List ℕ} (hbad : bad = []) :
    Inv { w with progs := w.progs.modify q g, badPuts := bad, calls := w.calls.set c new } := by
  have hholders := fun p => holders_setCall hc new p
  have hbuilders := fun p => builders_setCall hc new p
  have hbuilds : ∀ (call : Call) p, call.holds p = false → call.builds p = false := by
    intro call p hh
    cases call <;> first | exact hh | rfl
  refine h.update q g hq rfl ?_ ?_ (h.released_setCall hc huses) (h.unwinding_setCall hun) hbad
  · intro p hp
    have hold' : old.holds p = false := Bool.eq_false_iff.mpr fun hh => hp (hold p hh).symm
    have hnew' : new.holds p = false := Bool.eq_false_iff.mpr fun hh => hp (hnew p hh).symm
    have hp₁ := hholders p
    have hp₂ := hbuilders p
    simp only [hold', hnew', hbuilds _ p hold', hbuilds _ p hnew', Bool.false_eq_true, if_false,
      Nat.add_zero] at hp₁ hp₂
    exact ⟨hp₁, hp₂⟩
  · intro o _ ho
    have hle := builders_le_holders (w.setCall c .returned) q
    have hn := holders_setCall hc .returned q
    have hb := builders_setCall hc .returned q
    simp only [Call.holds_returned, Call.builds_returned, Bool.false_eq_true, if_false, Nat.add_zero] at hn hb
    have hafter := hself o _ _ hle hn.symm hb.symm ho
    have hholders' : (w.setCall c new).holders q =
        (w.setCall c .returned).holders q + if new.holds q then 1 else 0 := by
      have := hholders q
      omega
    have hbuilders' : (w.setCall c new).builders q =
        (w.setCall c .returned).builders q + if new.builds q then 1 else 0 := by
      have := hbuilders q
      omega
    change Tracked (g o) ((w.setCall c new).holders q) ((w.setCall c new).builders q)
    rw [hholders', hbuilders']
    exact hafter

theorem Inv.badPuts_put (h : Inv w) (hlt : w.builders p < w.holders p) : (w.merlinProgPut p).badPuts = [] := by
  have hp := h.lt_length (by omega : 0 < w.holders p)
  have htracked := h.tracked p _ (List.getElem?_eq_getElem hp)
  obtain ⟨n, hn⟩ : ∃ n, w.holders p = n + 1 := ⟨w.holders p - 1, by omega⟩
  rw [hn] at htracked hlt
  simp only [ProgWorld.merlinProgPut, List.getElem?_eq_getElem hp, Option.any_some, (htracked.put hlt).1, if_true]
  exact h.noBadPut

theorem Inv.lt_of_call (h : Inv w) {call : Call} (hc : w.calls[c]? = some call) (hh : call.holds p = true) :
    p < w.progs.length := by
  apply h.lt_length
  have hpos := countP_pos_of_getElem? hc hh
  rw [ProgWorld.holders]
  omega

/-- A load that ends builds its program no more, whatever call `new` goes on with it. -/
theorem Inv.endLoad (h : Inv w) (hc : w.calls[c]? = some (.building p)) {new : Call} {phase : ProgPhase}
    (hnew : ∀ q, new.holds q = true → p = q) (hbuilds : new.builds p = false) (huses : ∀ f, new.uses f = false)
    (hun : ∀ q, new ≠ .unwinding q)
    (hself : ∀ o n b, Tracked o (n + 1) (b + 1) →
      Tracked { o with phase := phase } (n + if new.holds p then 1 else 0) b) :
    Inv ((w.setPhase p phase).setCall c new) := by
  refine h.move hc p _ (h.lt_of_call hc (by simp [Call.holds])) (by simp [Call.holds]) hnew
    (fun f hf => by simp [huses f] at hf) hun ?_ h.noBadPut
  intro o n b _ hn hb ho
  rw [hn, hb] at ho
  simp only [Call.holds, Call.builds, decide_true, if_true] at ho
  rw [hbuilds]
  exact hself o n b ho

theorem loadFails_inv (h : Inv w) (hstep : progStep w (.loadFails c) = some w') : Inv w' := by
  simp only [progStep] at hstep
  split at hstep
  case h_2 => cases hstep
  case h_1 p hc =>
    obtain rfl := Option.some.inj hstep
    exact h.endLoad hc (by simp [Call.holds]) rfl (fun _ => rfl) (by simp) fun o n b ho => ho.abort

theorem loadSucceeds_inv (h : Inv w) (hstep : progStep w (.loadSucceeds c) = some w') : Inv w' := by
  simp only [progStep] at hstep
  split at hstep
  case h_2 => cases hstep
  case h_1 p hc =>
    obtain rfl := Option.some.inj hstep
    refine h.endLoad hc (by simp [Call.holds]) rfl (fun _ => rfl) (by simp) fun o n b ho => ?_
    simp only [Call.holds, decide_true, if_true]
    exact ho.load

theorem exit_inv {rc : ℤ} (h : Inv w) (hstep : progStep w (.exit c rc) = some w') : Inv w' := by
  simp only [progStep] at hstep
  split at hstep
  case h_2 => cases hstep
  case h_1 p user hc =>
    split_ifs at hstep
    obtain rfl := Option.some.inj hstep
    have hlt : w.builders p < w.holders p := builders_lt_of_call hc (by simp [Call.holds]) rfl
    refine h.move hc p _ (h.lt_of_call hc (by simp [Call.holds])) (by simp [Call.holds]) (by simp [Call.holds])
      (by simp [Call.uses]) (by simp) ?_ (h.badPuts_put hlt)
    intro o n b hle hn hb ho
    rw [hn, hb] at ho
    simp only [Call.holds, Call.builds, decide_true, if_true, Bool.false_eq_true, if_false] at ho ⊢
    exact (ho.put (by omega)).2

theorem fput_inv (h : Inv w) (hstep : progStep w (.fput c) = some w') : Inv w' := by
  simp only [progStep] at hstep
  split at hstep
  case h_2 => cases hstep
  case h_1 f p user hc =>
    obtain rfl := Option.some.inj hstep
    have hmove : Inv { w with progs := w.progs.modify p id, calls := w.calls.set c (.inUse p user) } := by
      refine h.move hc p id (h.lt_of_call hc (by simp [Call.holds])) (by simp [Call.holds])
        (by simp [Call.holds]) (by simp [Call.uses]) (by simp) ?_ h.noBadPut
      intro o n b _ hn hb ho
      rw [hn, hb] at ho
      exact ho
    rwa [List.modify_id] at hmove

theorem refcountInc_inv (h : Inv w) (hstep : progStep w (.refcountInc c) = some w') : Inv w' := by
  simp only [progStep] at hstep
  split at hstep
  case h_2 => cases hstep
  case h_1 f user hc =>
    split at hstep
    case h_2 => cases hstep
    case h_1 file hf =>
      obtain rfl := Option.some.inj hstep
      -- the file that was fetched is not released, so it is a holder
      have hopen : file.released = false := by
        rw [Bool.eq_false_iff]
        intro hr
        have hpos := countP_pos_of_getElem? (p := Call.uses f) hc (by simp [Call.uses])
        have := (h.released f file hf hr).2
        omega
      have hlt : w.builders file.prog < w.holders file.prog :=
        builders_lt_of_file hf (by simp [ProgFile.holds, hopen])
      refine h.move hc file.prog _ (h.lt_length (by omega)) (by simp [Call.holds]) (by simp [Call.holds])
        (by simp [Call.uses]) (by simp) ?_ h.noBadPut
      intro o n b _ hn hb ho
      simp only [Call.holds, Call.builds, decide_true, if_true, Bool.false_eq_true, if_false, Nat.add_zero] at hn hb ⊢
      rw [← hn, ← hb]
      exact ho.inc hlt

theorem Inv.released_addCall (h : Inv w) {new : Call}
    (hnew : ∀ (f : ℕ) (file : ProgFile), w.files[f]? = some file → file.fds = 0 → new.uses f = false) :
    ∀ (f : ℕ) (file : ProgFile), w.files[f]? = some file → file.released = true →
      file.fds = 0 ∧ (w.calls ++ [new]).countP (Call.uses f) = 0 := by
  intro f file hf hr
  obtain ⟨hfds, hcount⟩ := h.released f file hf hr
  refine ⟨hfds, ?_⟩
  rw [List.countP_append, hcount, List.countP_singleton, hnew f file hf hfds, if_neg Bool.false_ne_true]

theorem Inv.unwinding_addCall (h : Inv w) {new : Call} (hnew : ∀ p, new ≠ .unwinding p) :
    ∀ p, Call.unwinding p ∉ w.calls ++ [new] := by
  intro p hmem
  rcases List.mem_append.mp hmem with hmem | hmem
  · exact h.noUnwinding p hmem
  · exact hnew p (List.mem_singleton.mp hmem).symm

theorem load_inv (h : Inv w) (hstep : progStep w .load = some w') : Inv w' := by
  obtain rfl := Option.some.inj hstep
  have hzero := h.fresh w.progs.length le_rfl
  have hzero' : w.builders w.progs.length = 0 := by
    have := builders_le_holders w w.progs.length
    omega
  have hholders := fun p => holders_addCall (w := w) (.building w.progs.length) p
  have hbuilders := fun p => builders_addCall (w := w) (.building w.progs.length) p
  simp only [Call.holds, Call.builds, decide_eq_true_eq] at hholders hbuilders
  refine ⟨?_, ?_, h.released_addCall (by simp [Call.uses]), h.unwinding_addCall (by simp), h.noBadPut⟩
  · intro p o ho
    change Tracked o ((w.addCall (.building w.progs.length)).holders p)
      ((w.addCall (.building w.progs.length)).builders p)
    rw [hholders, hbuilders]
    by_cases hp : w.progs.length = p
    · subst hp
      simp only [List.getElem?_concat_length, Option.some.injEq] at ho
      subst ho
      rw [hzero, hzero', if_pos rfl]
      simp [Tracked]
    · rw [if_neg hp, Nat.add_zero, Nat.add_zero]
      obtain ⟨hlt, -⟩ := List.getElem?_eq_some_iff.mp ho
      simp only [List.length_append, List.length_singleton] at hlt
      rw [List.getElem?_append_left (by omega)] at ho
      exact h.tracked p o ho
  · intro p hp
    simp only [List.length_append, List.length_singleton] at hp
    change (w.addCall (.building w.progs.length)).holders p = 0
    rw [hholders, if_neg (by omega), h.fresh p (by omega)]

theorem newFd_inv (h : Inv w) (hstep : progStep w (.newFd c true) = some w') : Inv w' := by
  simp only [progStep] at hstep
  split at hstep
  case h_2 => cases hstep
  case h_1 p hc =>
    obtain rfl := Option.some.inj hstep
    have hp := h.lt_of_call hc (p := p) (by simp [Call.holds])
    -- the reference of the loader becomes that of the file
    have hholders : ∀ q, ((w.setCall c .returned).addFile p).holders q = w.holders q := by
      intro q
      have hset := holders_setCall hc .returned q
      rw [holders_addFile]
      simp only [Call.holds, decide_eq_true_eq, Bool.false_eq_true, if_false, Nat.add_zero] at hset
      exact hset
    have hbuilders : ∀ q, (w.setCall c .returned).builders q = w.builders q :=
      fun q => builders_setCall hc .returned q
    refine h.update p id hp (by rw [List.modify_id]; rfl) (fun q _ => ⟨hholders q, hbuilders q⟩) ?_ ?_
      (h.unwinding_setCall (by simp)) h.noBadPut
    · intro o _ ho
      change Tracked o (((w.setCall c .returned).addFile p).holders p) ((w.setCall c .returned).builders p)
      rw [hholders, hbuilders]
      exact ho
    · intro f file hf hr
      change (w.files ++ [⟨p, 1, false⟩])[f]? = some file at hf
      rw [List.getElem?_append] at hf
      split_ifs at hf
      · exact h.released_setCall hc (by simp [Call.uses]) f file hf hr
      · have hmem := List.mem_singleton.mp (List.mem_of_getElem? hf)
        rw [hmem] at hr
        cases hr

theorem fget_inv {user : ProgUser} (h : Inv w) (hstep : progStep w (.fget f user) = some w') : Inv w' := by
  simp only [progStep] at hstep
  split at hstep
  case h_2 => cases hstep
  case h_1 file hf =>
    split_ifs at hstep with hfds
    obtain rfl := Option.some.inj hstep
    refine ⟨?_, ?_, h.released_addCall ?_, h.unwinding_addCall (by simp), h.noBadPut⟩
    · intro p o ho
      rw [holders_addCall, builders_addCall]
      exact h.tracked p o ho
    · intro p hp
      rw [holders_addCall]
      exact h.fresh p hp
    · intro g file' hg hfds'
      have hne : f ≠ g := by
        rintro rfl
        obtain rfl := Option.some.inj (hf.symm.trans hg)
        exact hfds (.inl hfds')
      simpa [Call.uses] using hne

theorem getById_inv (h : Inv w) (hstep : progStep w (.getById p) = some w') : Inv w' := by
  simp only [progStep] at hstep
  split at hstep
  case h_2 => cases hstep
  case h_1 o ho =>
    split_ifs at hstep with hphase hinc
    · obtain rfl := Option.some.inj hstep
      have hholders := fun q => holders_addCall (w := w) (.inUse p .byId) q
      have hbuilders := fun q => builders_addCall (w := w) (.inUse p .byId) q
      simp only [Call.holds, Call.builds, decide_eq_true_eq, Bool.false_eq_true, if_false, Nat.add_zero]
        at hholders hbuilders
      obtain ⟨hp, -⟩ := List.getElem?_eq_some_iff.mp ho
      refine h.update p (fun o => { o with refs := o.refs.incNotZero.1 }) hp rfl ?_ ?_
        (h.released_addCall (by simp [Call.uses])) (h.unwinding_addCall (by simp)) h.noBadPut
      · intro q hq
        change (w.addCall (.inUse p .byId)).holders q = _ ∧ (w.addCall (.inUse p .byId)).builders q = _
        rw [hholders, hbuilders, if_neg (Ne.symm hq)]
        exact ⟨rfl, rfl⟩
      · intro o' ho' htracked
        obtain rfl := Option.some.inj (ho.symm.trans ho')
        change Tracked _ ((w.addCall (.inUse p .byId)).holders p) ((w.addCall (.inUse p .byId)).builders p)
        rw [hholders, hbuilders, if_pos rfl, Refcount.incNotZero_eq_inc hinc]
        apply htracked.inc
        simp only [Tracked, not_not.mp hphase] at htracked
        obtain ⟨hrefs, -, hb⟩ := htracked
        rw [hb]
        by_contra hle
        rw [hrefs, Nat.eq_zero_of_not_pos hle] at hinc
        cases hinc
    · obtain rfl := Option.some.inj hstep
      exact h

theorem Inv.setFds (h : Inv w) {file : ProgFile} (hf : w.files[f]? = some file) (hfds : file.fds ≠ 0) (n : ℕ) :
    Inv { w with files := w.files.set f { file with fds := n } } := by
  have hholders : ∀ p, (w.files.set f { file with fds := n }).countP (ProgFile.holds p) =
      w.files.countP (ProgFile.holds p) := by
    intro p
    have hset := countP_set_add (p := ProgFile.holds p) (b := { file with fds := n }) hf
    rw [show ({ file with fds := n } : ProgFile).holds p = file.holds p from rfl] at hset
    omega
  refine ⟨?_, ?_, ?_, h.noUnwinding, h.noBadPut⟩
  · intro p o ho
    rw [ProgWorld.holders, hholders]
    exact h.tracked p o ho
  · intro p hp
    rw [ProgWorld.holders, hholders]
    exact h.fresh p hp
  · intro g file' hg hr
    rw [List.getElem?_set] at hg
    split_ifs at hg with hfg
    · subst hfg
      obtain rfl := Option.some.inj hg
      exact absurd (h.released f file hf hr).1 hfds
    · exact h.released g file' hg hr

theorem holders_setReleased {file : ProgFile} (hf : w.files[f]? = some file) (p : ℕ) :
    { w with files := w.files.set f { file with released := true } }.holders p +
      (if file.holds p then 1 else 0) = w.holders p := by
  have hset := countP_set_add (p := ProgFile.holds p) (b := { file with released := true }) hf
  have hreleased : ({ file with released := true } : ProgFile).holds p = false := by simp [ProgFile.holds]
  rw [hreleased, if_neg Bool.false_ne_true] at hset
  simp only [ProgWorld.holders]
  omega

theorem release_inv (h : Inv w) (hstep : progStep w (.release f) = some w') : Inv w' := by
  simp only [progStep] at hstep
  split at hstep
  case h_2 => cases hstep
  case h_1 file hf =>
    split_ifs at hstep with hready
    obtain rfl := Option.some.inj hstep
    obtain ⟨hopen, hfds, huses⟩ := hready
    have hholds : file.holds file.prog = true := by simp [ProgFile.holds, hopen]
    have hlt := builders_lt_of_file hf hholds
    refine h.update file.prog _ (h.lt_length (by omega)) rfl ?_ ?_ ?_ h.noUnwinding (h.badPuts_put hlt)
    · intro p hp
      have hset := holders_setReleased hf p
      rw [if_neg (by simp [ProgFile.holds, Ne.symm hp])] at hset
      exact ⟨hset, rfl⟩
    · intro o _ ho
      have hset := holders_setReleased hf file.prog
      rw [if_pos hholds] at hset
      rw [← hset] at ho hlt
      exact (ho.put hlt).2
    · intro g file' hg hr
      change (w.files.set f { file with released := true })[g]? = some file' at hg
      rw [List.getElem?_set] at hg
      split_ifs at hg with hfg
      · subst hfg
        obtain rfl := Option.some.inj hg
        exact ⟨hfds, huses⟩
      · exact h.released g file' hg hr

theorem freeWork_inv (h : Inv w) (hstep : progStep w (.freeWork p) = some w') : Inv w' := by
  simp only [progStep] at hstep
  split at hstep
  case h_2 => cases hstep
  case h_1 o ho =>
    split_ifs at hstep with hready
    obtain rfl := Option.some.inj hstep
    obtain ⟨hp, -⟩ := List.getElem?_eq_some_iff.mp ho
    refine h.update p _ hp rfl (fun _ _ => ⟨rfl, rfl⟩) ?_ h.released h.noUnwinding h.noBadPut
    intro o' ho' htracked
    obtain rfl := Option.some.inj (ho.symm.trans ho')
    exact htracked.free hready.1 hready.2

/-- Every step keeps the invariant, unless `anon_inode_getfd` fails. -/
theorem progStep_inv {e : ProgEvent} (he : e.getfdOk = true) (h : Inv w) (hstep : progStep w e = some w') :
    Inv w' := by
  cases e with
  | load => exact load_inv h hstep
  | loadFails c => exact loadFails_inv h hstep
  | loadSucceeds c => exact loadSucceeds_inv h hstep
  | newFd c getfd =>
    obtain rfl : getfd = true := he
    exact newFd_inv h hstep
  | putUnwinding c =>
    simp only [progStep] at hstep
    split at hstep
    case h_2 => cases hstep
    case h_1 p hc => exact absurd (List.mem_of_getElem? hc) (h.noUnwinding p)
  | fget f user => exact fget_inv h hstep
  | refcountInc c => exact refcountInc_inv h hstep
  | fput c => exact fput_inv h hstep
  | getById p => exact getById_inv h hstep
  | exit c rc => exact exit_inv h hstep
  | dup f =>
    simp only [progStep] at hstep
    split at hstep
    case h_2 => cases hstep
    case h_1 file hf =>
      split_ifs at hstep with hfds
      obtain rfl := Option.some.inj hstep
      exact h.setFds hf hfds _
  | close f =>
    simp only [progStep] at hstep
    split at hstep
    case h_2 => cases hstep
    case h_1 file hf =>
      split_ifs at hstep with hfds
      obtain rfl := Option.some.inj hstep
      exact h.setFds hf hfds _
  | release f => exact release_inv h hstep
  | freeWork p => exact freeWork_inv h hstep

end Steps

section Runs

theorem init_inv : Inv .init :=
  ⟨nofun, fun _ _ => rfl, nofun, nofun, rfl⟩

theorem progRun_inv {es : List ProgEvent} (hes : ∀ e ∈ es, e.getfdOk = true) (h : Inv w)
    (hrun : progRun w es = some w') : Inv w' := by
  induction es generalizing w with
  | nil =>
    obtain rfl := Option.some.inj hrun
    exact h
  | cons e es ih =>
    obtain ⟨w₁, hstep, hrest⟩ := Option.bind_eq_some_iff.mp hrun
    exact ih (fun e' he' => hes e' (List.mem_cons_of_mem _ he'))
      (progStep_inv (hes e List.mem_cons_self) h hstep) hrest

theorem Inv.lifetimeOk (h : Inv w) : LifetimeOk w where
  refs p o ho hphase := by
    have htracked := h.tracked p o ho
    rcases hphase with hb | hl
    · simp only [Tracked, hb] at htracked
      rw [htracked.1, htracked.2.2.1]
    · simp only [Tracked, hl] at htracked
      exact htracked.1
  noBadPut := h.noBadPut
  scheduled p o ho := by
    have htracked := h.tracked p o ho
    cases hphase : o.phase <;> simp only [Tracked, hphase] at htracked
    · simp [htracked.2.1]
    · simp [htracked.1]
    · simp [htracked.2.1]
    · simp [htracked.1, htracked.2.1]

/-- In a run in which `anon_inode_getfd` never fails, the count of a program is that of its holders, no put
finds it gone, and its free is scheduled once, after the last holder. -/
theorem progRun_lifetimeOk (es : List ProgEvent) (w : ProgWorld) (hes : ∀ e ∈ es, e.getfdOk = true)
    (hrun : progRun .init es = some w) : LifetimeOk w :=
  (progRun_inv hes init_inv hrun).lifetimeOk

/-- Two programs, one of them used while its descriptor is closed, the other one refused by the JIT. -/
def sampleLifetime : List ProgEvent :=
  [.load, .loadSucceeds 0, .load, .newFd 0 true, .fget 0 .testRun, .close 0, .refcountInc 2, .loadFails 1,
    .fput 2, .release 0, .getById 0, .exit 2 (-12), .exit 3 0, .freeWork 0]

theorem sampleLifetime_ok : ∃ w, progRun .init sampleLifetime = some w ∧ LifetimeOk w :=
  ⟨_, rfl, progRun_lifetimeOk sampleLifetime _ (by decide) rfl⟩

/-- When `anon_inode_getfd` fails, the reference is dropped twice. -/
theorem getfdFails_badPut :
    ∃ w, progRun .init [.load, .loadSucceeds 0, .newFd 0 false, .putUnwinding 0] = some w ∧ ¬LifetimeOk w :=
  ⟨_, rfl, fun h => absurd h.noBadPut (by decide)⟩

end Runs

end MerlinV.Kernel
