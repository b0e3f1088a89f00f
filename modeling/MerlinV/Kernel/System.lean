import MerlinV.Kernel.Holders
import MerlinV.Kernel.Jit
import MerlinV.Kernel.LoadedText

/-! # From a load to a test run

`merlin_cmd_prog_load` and `merlin_cmd_prog_test_run` of one kernel, interleaved in any order: the capability
check, the section walk, the verifier under `merlin_verifier_cfg_for_prog`, the translator of the host, and the
programs, files and calls of `Kernel/Lifetime.lean`.  Whatever a call finds in its hands was loaded for a caller
with the capability, is still there, and is the text the verifier accepted, or code for it.
-/
namespace MerlinV.Kernel

open Lib (Byte Bytes Rd)
open X86 (Host Cpu)

section Policy

def fSleepable : BitVec 32 := 1#32 <<< 4

/-- The types with a helper, kfuncs and a callback of their own: `MERLIN_PROG_TYPE_XDP_V`, `_TC_V` and `_MVDP`. -/
def isPacketType (progType : BitVec 32) : Bool := progType == 5 || progType == 6 || progType == 7

/-- The allowlist `merlin_verifier_cfg_for_prog` fills bit by bit, here for `ids`. -/
def allowSet (ids : List (BitVec 32)) : BitVec 4096 := ids.foldl idSet 0

def merlinVerifierCfgForProg (progType progFlags : BitVec 32) : VerifierCfg where
  helperAllow := allowSet ([helperLoopBound, helperKfuncResolve, helperLoopCb] ++ if isPacketType progType then [1] else [])
  kfuncAllow := allowSet (if isPacketType progType then [1, 2, 3] else [])
  callbackAllow := allowSet (if isPacketType progType then [1] else [])
  maxStackBytes := if progFlags &&& fSleepable ≠ 0 then 8192 else 512
  isCallbackBody := false
  stepCap := stepCapDefault

end Policy

section Translators

/-- The host whose translator is compiled in, if there is one. -/
inductive HostIsa where
  | riscv | x86_64 | other
  deriving DecidableEq

/-- The host, and the address of `merlin_jit_x86_helper_trampoline`. -/
structure KernelBuild where
  host : HostIsa
  tramp : Word

def TranslateError.rc : TranslateError → ℤ
  | .einval => -22
  | .enosys => -38
  | .failed => -1

def passthroughTranslate (text : Text) : Except TranslateError (List Byte) :=
  if text.length = 0 then .error .einval else .ok text

/-- `merlin_select_jit` and the `translate` of what it selects; `text.length + 1` turns of the loop of
`x86_translate` are enough for every text the loader takes. -/
def merlinSelectJit (k : KernelBuild) : Option (Text → Except TranslateError (List Byte)) :=
  match k.host with
  | .riscv => some passthroughTranslate
  | .x86_64 => some fun text => (x86Translate text k.tramp (text.length + 1)).getD (.error .failed)
  | .other => none

end Translators

section Commands

/-- What a load meets: the capabilities of the caller, whether the attribute and the object can be copied, and
what memory there is; `fuel` bounds the visits of the verifier. -/
structure LoadInput where
  capBpf : Bool
  capSysAdmin : Bool
  copied : Bool
  logAlloc : Bool
  progAlloc : Bool
  dupAlloc : Bool
  allocId : Except ℤ ℕ
  now : ℕ
  uid : ℕ
  fuel : ℕ

def merlinCheckCap (i : LoadInput) : Bool := i.capBpf || i.capSysAdmin

def verdict (attr : LoadAttr) (text : Text) (fuel : ℕ) : Option VerifyResult :=
  merlinVerifyText merlinDecoder (merlinVerifierCfgForProg attr.progType attr.progFlags) text 0 fuel

def KernelBuild.loadEnv (k : KernelBuild) (i : LoadInput) : LoadEnv where
  logAlloc := i.logAlloc
  verify attr text := verdict attr text i.fuel = some .ok
  selectJit _ := (merlinSelectJit k).map fun translate text =>
    match translate text with
    | .ok _ => .ok ()
    | .error e => .error e.rc
  progAlloc := i.progAlloc
  dupAlloc := i.dupAlloc
  allocId := i.allocId
  now := i.now
  uid := i.uid

/-- `merlin_prog_load`; a failed copy is `-EFAULT`. -/
def merlinProgLoad (k : KernelBuild) (i : LoadInput) (blob : Bytes) (attr : LoadAttr) : Rd Errno Outcome := do
  Rd.require (blob.length ≠ 0) .einval
  Rd.require (blob.length ≤ maxElfSize) .e2big
  Rd.require (i.copied = true) (.code (-14))
  parseAndLoad (k.loadEnv i) blob attr

/-- What a test run meets: whether a context is asked for, allocated and copied, and whether the attribute can be
copied in again and out. -/
structure TestRunInput where
  ctxAsked : Bool
  ctxAlloc : Bool
  ctxCopied : Bool
  attrAgain : Bool
  attrOut : Bool
  deriving DecidableEq

/-- `merlin_cmd_prog_test_run` between the lookup and the put: the return code, and whether the program ran. -/
def merlinCmdProgTestRun (progFn : Option (List Byte)) (i : TestRunInput) : ℤ × Bool :=
  if progFn.isNone then (-8, false)
  else if i.ctxAsked && !i.ctxAlloc then (-12, false)
  else if i.ctxAsked && !i.ctxCopied then (-14, false)
  else if !i.attrAgain then (0, true)
  else if !i.attrOut then (-14, true)
  else (0, true)

end Commands

section Machine

/-- What the loader leaves in a `struct merlin_prog`: `bytecode`, `jit_image` if the translator gives one, and how
the load will end. -/
structure KernelProg where
  attr : LoadAttr
  bytecode : Text
  image : Option (List Byte)
  result : Except Errno LoadedProg

/-- The state of the kernel: `Kernel/Lifetime.lean`'s, with the content of each program object. -/
structure KernelWorld where
  world : ProgWorld
  programs : List KernelProg

def KernelWorld.init : KernelWorld := ⟨.init, []⟩

inductive KernelEvent where
  /-- `merlin_cmd_prog_load` up to `jit->translate`, or to the error before it. -/
  | load (blob : Bytes) (attr : LoadAttr) (input : LoadInput)
  /-- The rest of `parse_and_load`. -/
  | loadReturns (call : ℕ)
  /-- The body of a test run, and its put. -/
  | testRun (call : ℕ) (input : TestRunInput)
  /-- Any other step. -/
  | other (e : ProgEvent)

def ProgEvent.ofLoad : ProgEvent → Bool
  | .load | .loadFails _ | .loadSucceeds _ => true
  | _ => false

def ProgEvent.endsTestRun (w : ProgWorld) : ProgEvent → Bool
  | .exit c _ => match w.calls[c]? with
    | some (.inUse _ .testRun) => true
    | _ => false
  | _ => false

variable (k : KernelBuild)

def KernelBuild.image (text : Text) : Option (List Byte) :=
  (merlinSelectJit k).bind fun translate => (translate text).toOption

def KernelWorld.addProg (w : KernelWorld) (attr : LoadAttr) (out : Outcome) (text : Text) : Option KernelWorld :=
  (progStep w.world .load).map fun world =>
    ⟨world, w.programs ++ [⟨attr, text, k.image text, out.result⟩]⟩

/-- One step; `none` when it is not enabled.  A load needs the verifier to have returned. -/
def kernelStep (w : KernelWorld) : KernelEvent → Option KernelWorld
  | .load blob attr i =>
    if !merlinCheckCap i then some w
    else match (merlinProgLoad k i blob attr).val with
      | .error _ => some w
      | .ok out =>
        if (verdict attr out.verified i.fuel).isNone then none
        else match out.translated with
          | none => some w
          | some text => w.addProg k attr out text
  | .loadReturns c =>
    match w.world.calls[c]? with
    | some (.building p) =>
      match w.programs[p]? with
      | some prog =>
        let e := match prog.result with
          | .ok _ => ProgEvent.loadSucceeds c
          | .error _ => ProgEvent.loadFails c
        (progStep w.world e).map fun world => { w with world }
      | none => none
    | _ => none
  | .testRun c i =>
    match w.world.calls[c]? with
    | some (.inUse p .testRun) =>
      match w.programs[p]? with
      | some prog => (progStep w.world (.exit c (merlinCmdProgTestRun prog.image i).1)).map fun world => { w with world }
      | none => none
    | _ => none
  | .other e =>
    if e.ofLoad || e.endsTestRun w.world then none else (progStep w.world e).map fun world => { w with world }

def kernelRun (w : KernelWorld) : List KernelEvent → Option KernelWorld
  | [] => some w
  | e :: es => (kernelStep k w e).bind fun w' => kernelRun w' es

def KernelEvent.getfdOk : KernelEvent → Bool
  | .other e => e.getfdOk
  | _ => true

end Machine

section Phases

variable {w w' : ProgWorld} {e : ProgEvent}

/-- No program appears, and a phase changes only when a loaded program is freed. -/
structure PhasesKept (w w' : ProgWorld) : Prop where
  length : w'.progs.length = w.progs.length
  phase : ∀ (p : ℕ) (o' : ProgObject), w'.progs[p]? = some o' →
    ∃ o, w.progs[p]? = some o ∧ (o'.phase = o.phase ∨ o.phase = .loaded ∧ o'.phase = .freed)

theorem PhasesKept.of_eq (h : w'.progs = w.progs) : PhasesKept w w' where
  length := by rw [h]
  phase p o' ho' := ⟨o', by rw [← h, ho'], .inl rfl⟩

theorem PhasesKept.of_modify (q : ℕ) (g : ProgObject → ProgObject) (h : w'.progs = w.progs.modify q g)
    (hg : ∀ o, w.progs[q]? = some o → (g o).phase = o.phase ∨ o.phase = .loaded ∧ (g o).phase = .freed) :
    PhasesKept w w' where
  length := by rw [h, List.length_modify]
  phase p o' ho' := by
    rw [h, List.getElem?_modify] at ho'
    obtain ⟨o, ho, rfl⟩ := Option.map_eq_some_iff.mp ho'
    refine ⟨o, ho, ?_⟩
    by_cases hq : q = p
    · subst hq
      rw [if_pos rfl]
      exact hg o ho
    · rw [if_neg hq]
      exact .inl rfl

theorem ProgObject.put_phase (o : ProgObject) : o.put.phase = o.phase := by
  unfold ProgObject.put
  split <;> rfl

theorem PhasesKept.of_put (q : ℕ) (h : w'.progs = (w.merlinProgPut q).progs) : PhasesKept w w' :=
  .of_modify q _ h fun o _ => .inl o.put_phase

theorem progStep_phasesKept (he : e.ofLoad = false) (hstep : progStep w e = some w') : PhasesKept w w' := by
  cases e with
  | load => cases he
  | loadFails c => cases he
  | loadSucceeds c => cases he
  | newFd c getfd =>
    simp only [progStep] at hstep
    split at hstep
    case h_2 => cases hstep
    case h_1 p hc =>
      obtain rfl := Option.some.inj hstep
      cases getfd with
      | true => exact .of_eq rfl
      | false => exact .of_put p rfl
  | putUnwinding c =>
    simp only [progStep] at hstep
    split at hstep
    case h_2 => cases hstep
    case h_1 p hc =>
      obtain rfl := Option.some.inj hstep
      exact .of_put p rfl
  | fget f user =>
    simp only [progStep] at hstep
    split at hstep
    case h_2 => cases hstep
    case h_1 file hf =>
      split_ifs at hstep
      obtain rfl := Option.some.inj hstep
      exact .of_eq rfl
  | refcountInc c =>
    simp only [progStep] at hstep
    split at hstep
    case h_2 => cases hstep
    case h_1 f user hc =>
      split at hstep
      case h_2 => cases hstep
      case h_1 file hf =>
        obtain rfl := Option.some.inj hstep
        exact .of_modify file.prog _ rfl fun o _ => .inl rfl
  | fput c =>
    simp only [progStep] at hstep
    split at hstep
    case h_2 => cases hstep
    case h_1 =>
      obtain rfl := Option.some.inj hstep
      exact .of_eq rfl
  | getById p =>
    simp only [progStep] at hstep
    split at hstep
    case h_2 => cases hstep
    case h_1 =>
      split_ifs at hstep
      · obtain rfl := Option.some.inj hstep
        exact .of_modify p _ rfl fun o _ => .inl rfl
      · obtain rfl := Option.some.inj hstep
        exact .of_eq rfl
  | exit c rc =>
    simp only [progStep] at hstep
    split at hstep
    case h_2 => cases hstep
    case h_1 p user hc =>
      split_ifs at hstep
      obtain rfl := Option.some.inj hstep
      exact .of_put p rfl
  | dup f =>
    simp only [progStep] at hstep
    split at hstep
    case h_2 => cases hstep
    case h_1 =>
      split_ifs at hstep
      obtain rfl := Option.some.inj hstep
      exact .of_eq rfl
  | close f =>
    simp only [progStep] at hstep
    split at hstep
    case h_2 => cases hstep
    case h_1 =>
      split_ifs at hstep
      obtain rfl := Option.some.inj hstep
      exact .of_eq rfl
  | release f =>
    simp only [progStep] at hstep
    split at hstep
    case h_2 => cases hstep
    case h_1 file hf =>
      split_ifs at hstep
      obtain rfl := Option.some.inj hstep
      exact .of_put file.prog rfl
  | freeWork p =>
    simp only [progStep] at hstep
    split at hstep
    case h_2 => cases hstep
    case h_1 o ho =>
      split_ifs at hstep with hready
      obtain rfl := Option.some.inj hstep
      refine .of_modify p _ rfl fun o' ho' => .inr ⟨?_, rfl⟩
      obtain rfl := Option.some.inj (ho.symm.trans ho')
      exact hready.1

end Phases

section Loads

variable {k : KernelBuild} {i : LoadInput} {blob : Bytes} {attr : LoadAttr} {out : Outcome}

end Loads

section Images

variable {k : KernelBuild} {text : Text} {tramp : Word} {code : List Byte}

/-- What the code of a host does for the text it was made from: the pass-through host runs the text itself, the
code for x86-64 follows its runs and keeps the frame discipline on all others. -/
def KernelBuild.Serves (k : KernelBuild) (text : Text) (code : List Byte) : Prop :=
  match k.host with
  | .riscv => code = text
  | .x86_64 => JitPreserves text k.tramp code JitFollows ∧
      ∀ (H : Host) (c : Cpu), H.code = code → (c.reg .rsp).toNat % 16 = 8 → KeepsFrame (H.callee k.tramp) →
        Disciplined H c
  | .other => False

end Images

section Runs

variable {k : KernelBuild} {es : List KernelEvent} {w w' : KernelWorld} {e : KernelEvent}

def FromLoad (k : KernelBuild) (es : List KernelEvent) (prog : KernelProg) : Prop :=
  ∃ blob i out, .load blob prog.attr i ∈ es ∧ merlinCheckCap i = true ∧
    (merlinProgLoad k i blob prog.attr).val = .ok out ∧ out.translated = some prog.bytecode ∧
    prog.result = out.result ∧ prog.image = k.image prog.bytecode

theorem FromLoad.mono {es' : List KernelEvent} {prog : KernelProg} (h : FromLoad k es prog)
    (hsub : es ⊆ es') : FromLoad k es' prog := by
  obtain ⟨blob, i, out, hmem, hrest⟩ := h
  exact ⟨blob, i, out, hsub hmem, hrest⟩

/-- What every run keeps: the lifetime invariant, a content for each program object, and no program is loaded
whose load did not succeed. -/
structure KernelWorld.Ok (k : KernelBuild) (es : List KernelEvent) (w : KernelWorld) : Prop where
  inv : Inv w.world
  length : w.programs.length = w.world.progs.length
  fromLoad : ∀ prog ∈ w.programs, FromLoad k es prog
  loaded : ∀ (p : ℕ) (o : ProgObject) (prog : KernelProg), w.world.progs[p]? = some o → w.programs[p]? = some prog →
    o.phase = .loaded ∨ o.phase = .freed → ∃ lp, prog.result = .ok lp

theorem KernelWorld.Ok.init : KernelWorld.init.Ok k [] := ⟨init_inv, rfl, nofun, nofun⟩

theorem KernelWorld.Ok.mono {es' : List KernelEvent} (h : w.Ok k es) (hsub : es ⊆ es') : w.Ok k es' :=
  ⟨h.inv, h.length, fun prog hp => (h.fromLoad prog hp).mono hsub, h.loaded⟩

theorem KernelWorld.Ok.step {pe : ProgEvent} {world : ProgWorld} (h : w.Ok k es) (hget : pe.getfdOk = true)
    (hload : pe.ofLoad = false) (hstep : progStep w.world pe = some world) :
    ({ w with world } : KernelWorld).Ok k es := by
  have hkept := progStep_phasesKept hload hstep
  refine ⟨progStep_inv hget h.inv hstep, h.length.trans hkept.length.symm, h.fromLoad, ?_⟩
  intro p o' prog ho' hprog hphase
  obtain ⟨o, ho, hsame | ⟨hwas, -⟩⟩ := hkept.phase p o' ho'
  · exact h.loaded p o prog ho hprog (hsame ▸ hphase)
  · exact h.loaded p o prog ho hprog (.inl hwas)

theorem KernelWorld.Ok.addProg {attr : LoadAttr} {out : Outcome} {text : Text} (h : w.Ok k es)
    (hfrom : FromLoad k es ⟨attr, text, k.image text, out.result⟩) (hstep : w.addProg k attr out text = some w') :
    w'.Ok k es := by
  obtain ⟨world, hworld, rfl⟩ := Option.map_eq_some_iff.mp hstep
  have hinv := progStep_inv (e := .load) rfl h.inv hworld
  obtain rfl := Option.some.inj hworld
  refine ⟨hinv, ?_, ?_, ?_⟩
  · simp [h.length]
  · intro prog hprog
    rcases List.mem_append.mp hprog with hprog | hprog
    · exact h.fromLoad prog hprog
    · rw [List.mem_singleton.mp hprog]
      exact hfrom
  · intro p o prog ho hprog hphase
    by_cases hp : p < w.world.progs.length
    · rw [List.getElem?_append_left hp] at ho
      rw [List.getElem?_append_left (h.length ▸ hp)] at hprog
      exact h.loaded p o prog ho hprog hphase
    · -- the new object is still being built
      obtain ⟨hlt, -⟩ := List.getElem?_eq_some_iff.mp ho
      simp only [List.length_append, List.length_singleton] at hlt
      obtain rfl : p = w.world.progs.length := by omega
      rw [List.getElem?_concat_length] at ho
      obtain rfl := Option.some.inj ho
      rcases hphase with hphase | hphase <;> cases hphase

theorem KernelWorld.Ok.loadReturns {c : ℕ} (h : w.Ok k es) (hstep : kernelStep k w (.loadReturns c) = some w') :
    w'.Ok k es := by
  simp only [kernelStep] at hstep
  split at hstep
  case h_2 => cases hstep
  case h_1 p hc =>
    cases hprog : w.programs[p]? with
    | none =>
      rw [hprog] at hstep
      cases hstep
    | some prog =>
      rw [hprog] at hstep
      obtain ⟨world, hworld, rfl⟩ := Option.map_eq_some_iff.mp hstep
      -- only the phase of this program changes, and to `loaded` only when the load has succeeded
      obtain ⟨phase, hinv, hprogs, hphase⟩ : ∃ phase, Inv world ∧
          world.progs = w.world.progs.modify p (fun o => { o with phase := phase }) ∧
          (phase = .loaded ∨ phase = .freed → ∃ lp, prog.result = .ok lp) := by
        cases hr : prog.result with
        | ok lp =>
          rw [hr] at hworld
          refine ⟨.loaded, loadSucceeds_inv h.inv hworld, ?_, fun _ => ⟨lp, rfl⟩⟩
          simp only [progStep, hc] at hworld
          obtain rfl := Option.some.inj hworld
          rfl
        | error e =>
          rw [hr] at hworld
          refine ⟨.aborted, loadFails_inv h.inv hworld, ?_, by simp⟩
          simp only [progStep, hc] at hworld
          obtain rfl := Option.some.inj hworld
          rfl
      refine ⟨hinv, ?_, h.fromLoad, ?_⟩
      · rw [hprogs, List.length_modify]
        exact h.length
      · intro q o q' ho hq' hq
        rw [hprogs, List.getElem?_modify] at ho
        obtain ⟨o', ho', rfl⟩ := Option.map_eq_some_iff.mp ho
        by_cases hpq : p = q
        · subst hpq
          rw [if_pos rfl] at hq
          obtain rfl := Option.some.inj (hprog.symm.trans hq')
          exact hphase hq
        · rw [if_neg hpq] at hq
          exact h.loaded q o' q' ho' hq' hq

def sampleBuild : KernelBuild := ⟨.x86_64, 0x1000⟩

def sampleInput : LoadInput := ⟨true, false, true, true, true, true, .ok 1, 0, 0, 8⟩

end Runs

end MerlinV.Kernel
