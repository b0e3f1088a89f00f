import MerlinV.Zephyr.Runtime

/-! # Runs of the RTOS runtime

A run is a list of calls on the table that `merlin_init` leaves.  Each call is classified once by
`Effect`; what holds over a run follows from the five cases.  A handle is bound to the program of
the load that returned it until that program is unloaded, and its slot is then free to be handed
out again.
-/
namespace MerlinV.Zephyr

open Lib (Byte Bytes Rd Table)

variable {n : ℕ}

inductive Call (n : ℕ) where
  | load (call : LoadCall)
  | unload (prog : Option (Fin n))
  | run (prog : Option (Fin n)) (call : RunCall)

inductive Reply (n : ℕ) where
  | loaded (prog : Fin n) (info : LoadInfo)
  | unloaded
  | ran (text : Bytes) (retval : BitVec 64)
  | error (status : Status)
  deriving DecidableEq

def Outcome.reply (out : Outcome n) : Reply n :=
  match out.result with
  | .error e => .error e
  | .ok i => .loaded i out.info

section Calls

variable (K : Kconfig)

def call (rt : Runtime n) : Call n → Reply n × Runtime n
  | .load c =>
    match (merlinProgLoad K rt c).val with
    | .error e => (.error e, rt)
    | .ok out => (out.reply, out.rt)
  | .unload prog =>
    match merlinProgUnload rt prog with
    | (.error e, rt') => (.error e, rt')
    | (.ok (), rt') => (.unloaded, rt')
  | .run prog c =>
    match merlinProgRun K rt prog c with
    | (.error e, rt') => (.error e, rt')
    | (.ok (text, retval), rt') => (.ran text retval, rt')

def runFrom (rt : Runtime n) (calls : List (Call n)) : Runtime n :=
  calls.foldl (fun rt c => (call K rt c).2) rt

def runCalls (calls : List (Call n)) : Runtime n := runFrom K (merlinInit n) calls

/-- How often `merlin_alloc_slot` has handed out a slot: each time it takes an id. -/
def allocations : Runtime n → List (Call n) → ℕ
  | _, [] => 0
  | rt, c :: cs =>
    (if (call K rt c).2.nextProgId = rt.nextProgId then 0 else 1) + allocations (call K rt c).2 cs

end Calls

def Verified (K : Kconfig) (text : Bytes) : Prop :=
  Accepted (merlinVerifierCfgForProg K.maxStackBytes) text

/-- What a call can do to the table.  `burn` is a load that got a slot and no memory. -/
inductive Effect (K : Kconfig) (rt : Runtime n) : Call n → Reply n → Runtime n → Prop where
  | same {c : Call n} {e : Status} (idle : ∀ i, c = .unload (some i) → (rt.slots i).used = false) :
      Effect K rt c (.error e) rt
  | burn {c : LoadCall} {i : Fin n} {s : Lib.Slot (BitVec 32) Prog} (free : rt.slots.free = some i)
      (used : s.used = false) :
      Effect K rt (.load c) (.error .nomem) ⟨Function.update rt.slots i s, rt.nextProgId + 1⟩
  | load {c : LoadCall} {i : Fin n} {s : Lib.Slot (BitVec 32) Prog} {text : Bytes} {info : LoadInfo}
      (free : rt.slots.free = some i) (used : s.used = true) (key : s.key = rt.nextProgId)
      (read : (readText K c).val = .ok text) (verified : Verified K text)
      (holds : s.value.text = some text) (fn : s.value.fn = some text)
      (id : info.progId = rt.nextProgId) :
      Effect K rt (.load c) (.loaded i info) ⟨Function.update rt.slots i s, rt.nextProgId + 1⟩
  | unload {i : Fin n} {s : Lib.Slot (BitVec 32) Prog} (live : (rt.slots i).used = true)
      (used : s.used = false) :
      Effect K rt (.unload (some i)) .unloaded ⟨Function.update rt.slots i s, rt.nextProgId⟩
  | run {i : Fin n} {c : RunCall} {s : Lib.Slot (BitVec 32) Prog} {text : Bytes}
      (live : (rt.slots i).used = true) (used : s.used = true) (key : s.key = (rt.slots i).key)
      (holds : s.value.text = (rt.slots i).value.text) (fn : s.value.fn = (rt.slots i).value.fn)
      (ran : (rt.slots i).value.fn = some text) :
      Effect K rt (.run (some i) c) (.ran text (c.exec text c.ctx))
        ⟨Function.update rt.slots i s, rt.nextProgId⟩

section Effects

variable {K : Kconfig} {rt : Runtime n}

theorem effect_verifyAndInstall {c : LoadCall} {text : Bytes} {out : Outcome n}
    (hread : (readText K c).val = .ok text) (hout : verifyAndInstall K rt c.attr c.malloc text = out) :
    Effect K rt (.load c) out.reply out.rt := by
  unfold verifyAndInstall merlinAllocSlot at hout
  dsimp only at hout
  split at hout
  · subst hout
    exact .same fun _ h => nomatch h
  · rename_i hok
    have hver : Verified K text := by simpa [Verified, Accepted] using hok
    cases hfree : rt.slots.free with
    | none =>
      rw [hfree] at hout
      subst hout
      exact .same fun _ h => nomatch h
    | some i =>
      rw [hfree] at hout
      dsimp only [Option.map_some] at hout
      split at hout
      · subst hout
        simp only [merlinFreeSlot, Runtime.modify, Function.update_idem]
        exact .burn hfree rfl
      · subst hout
        simp only [Runtime.modify, Function.update_idem, Function.update_self]
        exact .load hfree rfl rfl hread hver rfl rfl rfl

theorem effect_unload (prog : Option (Fin n)) :
    Effect K rt (.unload prog) (call K rt (.unload prog)).1 (call K rt (.unload prog)).2 := by
  cases prog with
  | none => exact .same fun _ h => nomatch h
  | some i =>
    cases hused : (rt.slots i).used with
    | false =>
      have hcall : call K rt (.unload (some i)) = (.error .inval, rt) := by
        simp [call, merlinProgUnload, hused]
      rw [hcall]
      refine .same fun j hj => ?_
      cases hj
      exact hused
    | true =>
      have hcall : call K rt (.unload (some i)) =
          (.unloaded, merlinFreeSlot (rt.modify i merlinRuntimeUninstall) i) := by
        simp [call, merlinProgUnload, hused]
      rw [hcall, merlinFreeSlot, Runtime.modify, Function.update_idem]
      exact .unload hused rfl

theorem effect_run (prog : Option (Fin n)) (c : RunCall) :
    Effect K rt (.run prog c) (call K rt (.run prog c)).1 (call K rt (.run prog c)).2 := by
  cases prog with
  | none => exact .same fun _ h => nomatch h
  | some i =>
    rw [call, merlinProgRun]
    cases hused : (rt.slots i).used with
    | false => exact .same fun _ h => nomatch h
    | true =>
      cases hfn : (rt.slots i).value.fn with
      | none => exact .same fun _ h => nomatch h
      | some text =>
        cases K.riscv with
        | false => exact .same fun _ h => nomatch h
        | true => exact .run hused hused rfl rfl rfl hfn

theorem call_effect (c : Call n) : Effect K rt c (call K rt c).1 (call K rt c).2 := by
  cases c with
  | load c =>
    rw [call, merlinProgLoad, Rd.val_bind]
    cases hread : (readText K c).val with
    | error e => exact .same fun _ h => nomatch h
    | ok text => exact effect_verifyAndInstall hread rfl
  | unload prog => exact effect_unload prog
  | run prog c => exact effect_run prog c

end Effects

section Binding

variable {K : Kconfig} {rt : Runtime n} {h : Fin n} {id : BitVec 32} {text : Bytes}

/-- Slot `h` is in use under `id` with a copy of `text`. -/
structure Holds (rt : Runtime n) (h : Fin n) (id : BitVec 32) (text : Bytes) : Prop where
  used : (rt.slots h).used = true
  key : (rt.slots h).key = id
  copy : (rt.slots h).value.text = some text
  fn : (rt.slots h).value.fn = some text

theorem runFrom_append (calls calls' : List (Call n)) :
    runFrom K rt (calls ++ calls') = runFrom K (runFrom K rt calls) calls' := List.foldl_append

/-- A load that succeeds leaves the text of its object in the slot that it returns. -/
theorem holds_of_load {c : LoadCall} {info : LoadInfo} (hload : (call K rt (.load c)).1 = .loaded h info) :
    info.progId = rt.nextProgId ∧ ∃ text, (readText K c).val = .ok text ∧ Verified K text ∧
      Holds (call K rt (.load c)).2 h info.progId text := by
  have heff := @call_effect n K rt (.load c)
  rw [hload] at heff
  generalize (call K rt (.load c)).2 = rt' at heff ⊢
  cases heff with
  | load free used key read verified holds fn id =>
    exact ⟨id, _, read, verified, by simpa using used, by simpa [id] using key, by simpa using holds,
      by simpa using fn⟩

/-- A call other than the unload of `h` leaves a program in `h` as it is. -/
theorem Holds.after_call (hh : Holds rt h id text) {c : Call n} (hc : c ≠ .unload (some h)) :
    Holds (call K rt c).2 h id text := by
  have heff := @call_effect n K rt c
  have hother : ∀ {i : Fin n} {s : Lib.Slot (BitVec 32) Prog} {next : BitVec 32}, h ≠ i →
      Holds ⟨Function.update rt.slots i s, next⟩ h id text := by
    intro i s next hne
    have hslot : Function.update rt.slots i s h = rt.slots h := Function.update_of_ne hne _ _
    exact ⟨by simpa [hslot] using hh.used, by simpa [hslot] using hh.key,
      by simpa [hslot] using hh.copy, by simpa [hslot] using hh.fn⟩
  have hbusy : ∀ {i : Fin n}, rt.slots.free = some i → h ≠ i := by
    rintro i hfree rfl
    have := hh.used
    rw [Table.of_free hfree] at this
    cases this
  generalize (call K rt c).1 = reply at heff
  generalize (call K rt c).2 = rt' at heff ⊢
  cases heff with
  | same => exact hh
  | burn free => exact hother (hbusy free)
  | load free => exact hother (hbusy free)
  | unload live => exact hother fun he => hc (by rw [he])
  | @run i _ s _ live used key holds fn =>
    by_cases hi : h = i
    · subst hi
      exact ⟨by simpa using used, by simpa [hh.key] using key, by simpa [hh.copy] using holds,
        by simpa [hh.fn] using fn⟩
    · exact hother hi

theorem Holds.after_calls (hh : Holds rt h id text) {calls : List (Call n)}
    (hcalls : .unload (some h) ∉ calls) : Holds (runFrom K rt calls) h id text := by
  induction calls generalizing rt with
  | nil => exact hh
  | cons c cs ih =>
    rw [List.mem_cons, not_or] at hcalls
    exact ih (hh.after_call (Ne.symm hcalls.1)) hcalls.2

theorem call_unload_unused : ((call K rt (.unload (some h))).2.slots h).used = false := by
  have heff := @call_effect n K rt (.unload (some h))
  generalize (call K rt (.unload (some h))).1 = reply at heff
  generalize (call K rt (.unload (some h))).2 = rt' at heff ⊢
  cases heff with
  | same idle => exact idle h rfl
  | unload live used => simpa using used

/-- A free slot stays free until a load returns it. -/
theorem call_unused (hun : (rt.slots h).used = false) {c : Call n}
    (hc : ∀ info, (call K rt c).1 ≠ .loaded h info) : ((call K rt c).2.slots h).used = false := by
  have heff := @call_effect n K rt c
  generalize (call K rt c).1 = reply at heff hc
  generalize (call K rt c).2 = rt' at heff ⊢
  cases heff with
  | same => exact hun
  | @burn _ i s free used =>
    by_cases hi : h = i
    · subst hi
      simpa using used
    · simpa [Function.update_of_ne hi] using hun
  | @load _ i s _ info =>
    by_cases hi : h = i
    · subst hi
      exact absurd rfl (hc info)
    · simpa [Function.update_of_ne hi] using hun
  | @unload i s live used =>
    by_cases hi : h = i
    · subst hi
      simpa using used
    · simpa [Function.update_of_ne hi] using hun
  | @run i _ s _ live =>
    have hi : h ≠ i := by
      rintro rfl
      rw [hun] at live
      cases live
    simpa [Function.update_of_ne hi] using hun

def NotReused (K : Kconfig) (rt : Runtime n) (h : Fin n) (calls : List (Call n)) : Prop :=
  ∀ p c q info, calls = p ++ c :: q → (call K (runFrom K rt p) c).1 ≠ .loaded h info

theorem NotReused.head {c : Call n} {cs : List (Call n)} (hnot : NotReused K rt h (c :: cs))
    (info : LoadInfo) : (call K rt c).1 ≠ .loaded h info := hnot [] c cs info rfl

theorem NotReused.tail {c : Call n} {cs : List (Call n)} (hnot : NotReused K rt h (c :: cs)) :
    NotReused K (call K rt c).2 h cs := by
  intro p c' q info hcs
  exact hnot (c :: p) c' q info (by rw [hcs]; rfl)

theorem runFrom_unused (hun : (rt.slots h).used = false) {calls : List (Call n)}
    (hnot : NotReused K rt h calls) : ((runFrom K rt calls).slots h).used = false := by
  induction calls generalizing rt with
  | nil => exact hun
  | cons c cs ih => exact ih (call_unused hun hnot.head) hnot.tail

/-- Behind an unload of `h` the slot is free until a load returns it. -/
theorem runFrom_unused_of_unload {calls : List (Call n)} (hmem : .unload (some h) ∈ calls)
    (hnot : NotReused K rt h calls) : ((runFrom K rt calls).slots h).used = false := by
  induction calls generalizing rt with
  | nil => cases hmem
  | cons c cs ih =>
    rcases List.mem_cons.mp hmem with rfl | hmem
    · exact runFrom_unused call_unload_unused hnot.tail
    · exact ih hmem hnot.tail

def OthersSame (rt rt' : Runtime n) (h : Fin n) : Prop := ∀ j, j ≠ h → rt'.slots j = rt.slots j

theorem othersSame_run (rc : RunCall) : OthersSame rt (call K rt (.run (some h) rc)).2 h := by
  have heff := @call_effect n K rt (.run (some h) rc)
  generalize (call K rt (.run (some h) rc)).1 = reply at heff
  generalize (call K rt (.run (some h) rc)).2 = rt' at heff ⊢
  cases heff with
  | same => exact fun j _ => rfl
  | run live => exact fun j hj => Function.update_of_ne hj _ _

theorem othersSame_unload : OthersSame rt (call K rt (.unload (some h))).2 h := by
  have heff := @call_effect n K rt (.unload (some h))
  generalize (call K rt (.unload (some h))).1 = reply at heff
  generalize (call K rt (.unload (some h))).2 = rt' at heff ⊢
  cases heff with
  | same => exact fun j _ => rfl
  | unload live => exact fun j hj => Function.update_of_ne hj _ _

theorem Holds.run_reply (hh : Holds rt h id text) (rc : RunCall) : (call K rt (.run (some h) rc)).1 =
    if K.riscv then .ran text (rc.exec text rc.ctx) else .error .notsup := by
  rw [call, merlinProgRun]
  simp only [hh.used, hh.fn, Bool.not_true, Bool.false_eq_true, if_false]
  cases K.riscv with
  | false => rfl
  | true => rfl

theorem Holds.unload_reply (hh : Holds rt h id text) : (call K rt (.unload (some h))).1 = .unloaded := by
  simp [call, merlinProgUnload, hh.used]

/-- Through a handle whose slot is free nothing happens. -/
theorem call_of_unused (hun : (rt.slots h).used = false) (rc : RunCall) :
    call K rt (.run (some h) rc) = (.error .inval, rt) ∧ call K rt (.unload (some h)) = (.error .inval, rt) := by
  constructor
  · simp [call, merlinProgRun, hun]
  · simp [call, merlinProgUnload, hun]

/-- A handle acts on the program of the load that returned it until that program is unloaded, and
then on nothing until a later load returns the handle again. -/
theorem handle_bound (K : Kconfig) (pre post : List (Call n)) (c : LoadCall) (h : Fin n) (info : LoadInfo)
    (hload : (call K (runCalls K pre) (.load c)).1 = .loaded h info) :
    ∃ text, (readText K c).val = .ok text ∧
      (.unload (some h) ∉ post →
        Holds (runCalls K (pre ++ .load c :: post)) h info.progId text ∧
        (∀ rc, (call K (runCalls K (pre ++ .load c :: post)) (.run (some h) rc)).1 =
            (if K.riscv then .ran text (rc.exec text rc.ctx) else .error .notsup) ∧
          OthersSame (runCalls K (pre ++ .load c :: post))
            (call K (runCalls K (pre ++ .load c :: post)) (.run (some h) rc)).2 h) ∧
        (call K (runCalls K (pre ++ .load c :: post)) (.unload (some h))).1 = .unloaded ∧
        OthersSame (runCalls K (pre ++ .load c :: post))
          (call K (runCalls K (pre ++ .load c :: post)) (.unload (some h))).2 h) ∧
      (.unload (some h) ∈ post → NotReused K (runCalls K (pre ++ [.load c])) h post →
        ∀ rc, call K (runCalls K (pre ++ .load c :: post)) (.run (some h) rc) =
            (.error .inval, runCalls K (pre ++ .load c :: post)) ∧
          call K (runCalls K (pre ++ .load c :: post)) (.unload (some h)) =
            (.error .inval, runCalls K (pre ++ .load c :: post))) := by
  have hrun : runCalls K (pre ++ .load c :: post) = runFrom K (call K (runCalls K pre) (.load c)).2 post :=
    runFrom_append pre (.load c :: post)
  have hfirst : runCalls K (pre ++ [.load c]) = (call K (runCalls K pre) (.load c)).2 :=
    runFrom_append pre [.load c]
  obtain ⟨-, text, hread, -, hholds⟩ := holds_of_load hload
  rw [hrun, hfirst]
  refine ⟨text, hread, fun hnot => ?_, fun hmem hreuse => ?_⟩
  · have hstill : Holds (runFrom K (call K (runCalls K pre) (.load c)).2 post) h info.progId text :=
      hholds.after_calls hnot
    exact ⟨hstill, fun rc => ⟨hstill.run_reply rc, othersSame_run rc⟩, hstill.unload_reply,
      othersSame_unload⟩
  · exact fun rc => call_of_unused (runFrom_unused_of_unload hmem hreuse) rc

end Binding

section Samples

open Elf

def oneSlot : Kconfig := ⟨1, 16384, 256, true⟩

def objectOf (text : Bytes) : Bytes :=
  elfMag ++ [elf32.cls, elfData2Lsb, 1] ++ List.replicate 9 0 ++ Lib.leBytes 2 Elf.etRel ++
    Lib.leBytes 2 emRiscv ++ Lib.leBytes 4 1 ++ List.replicate 8 0 ++ Lib.leBytes 4 52 ++ List.replicate 10 0 ++
    Lib.leBytes 2 40 ++ Lib.leBytes 2 3 ++ Lib.leBytes 2 1 ++ List.replicate 40 0 ++
    shdrOf 0 Elf.shtStrtab 172 16 ++ shdrOf 1 Elf.shtProgbits 188 text.length ++
    0 :: merlinTextPrefix ++ [0x61, 0] ++ text
where
  shdrOf (name type offset size : ℕ) : Bytes :=
    Lib.leBytes 4 name ++ Lib.leBytes 4 type ++ List.replicate 8 0 ++ Lib.leBytes 4 offset ++
      Lib.leBytes 4 size ++ List.replicate 16 0

def loadOf (text : Bytes) : LoadCall := ⟨some (objectOf text), none, true, true, true⟩

def retText : Text := ofWords [0x00008067]
def oneText : Text := ofWords [0x00100513, 0x00008067]

def lengthRun : RunCall := ⟨0, fun text _ => BitVec.ofNat 64 text.length, 0⟩

theorem handle_bound_retText :
    (call oneSlot (runCalls oneSlot []) (.load (loadOf retText))).1 = .loaded (0 : Fin 1) ⟨1, 4, 1, 0⟩ ∧
    ∃ text, (readText oneSlot (loadOf retText)).val = .ok text ∧
      ∀ rc, (call oneSlot (runCalls oneSlot [.load (loadOf retText)]) (.run (some (0 : Fin 1)) rc)).1 =
        .ran text (rc.exec text rc.ctx) := by
  have hload : (call oneSlot (runCalls oneSlot []) (.load (loadOf retText))).1 =
      .loaded (0 : Fin 1) ⟨1, 4, 1, 0⟩ := by decide +kernel
  obtain ⟨text, hread, hlive, -⟩ := handle_bound oneSlot [] [] (loadOf retText) 0 ⟨1, 4, 1, 0⟩ hload
  exact ⟨hload, text, hread, fun rc => ((hlive List.not_mem_nil).2.1 rc).1⟩

/-- The handle of an unloaded program runs the next program in its slot. -/
theorem handle_runs_next_program :
    (call oneSlot (runCalls oneSlot []) (.load (loadOf retText))).1 = .loaded (0 : Fin 1) ⟨1, 4, 1, 0⟩ ∧
    (call oneSlot (runCalls oneSlot [.load (loadOf retText)]) (.unload (some (0 : Fin 1)))).1 = .unloaded ∧
    (call oneSlot (runCalls oneSlot
      [.load (loadOf retText), .unload (some (0 : Fin 1)), .load (loadOf oneText)])
      (.run (some 0) lengthRun)).1 = .ran oneText 8 := by
  refine ⟨?_, ?_, ?_⟩ <;> decide +kernel

end Samples

end MerlinV.Zephyr
