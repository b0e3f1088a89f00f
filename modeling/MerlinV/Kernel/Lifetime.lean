import MerlinV.Lib.Fallible
import MerlinV.Lib.Refcount

/-! # Lifetime of kernel programs

`kernel/merlin/core.c`, `syscall.c` and `loader.c`: who holds a `struct merlin_prog`, through the
interleaved steps of loads, lookups, commands, closes and the deferred free.  A task is at one step of
its call; files are the kernel's, released once the last descriptor is closed and every `fget` is matched
by an `fput`.
-/
namespace MerlinV.Kernel
open MerlinV.Lib

/-- How far a program object has come.  `building` lasts from `refcount_set` to `merlin_prog_alloc_id`;
`aborted` and `freed` are the two `kfree`s, of the loader and of `merlin_prog_free_work`. -/
inductive ProgPhase where
  | building
  | aborted
  | loaded
  | freed
  deriving DecidableEq

/-- `struct merlin_prog`; `scheduled` counts the calls of `schedule_work(&prog->work_free)`. -/
structure ProgObject where
  refs : Refcount
  phase : ProgPhase
  scheduled : ℕ
  deriving DecidableEq

/-- A `[merlin_prog]` file: `private_data`, the descriptors that refer to it, and whether
`merlin_prog_release` has run. -/
structure ProgFile where
  prog : ℕ
  fds : ℕ
  released : Bool
  deriving DecidableEq

/-- Who looks a program up: the two commands, or an in-kernel caller of `merlin_prog_get_by_id`. -/
inductive ProgUser where
  | getInfo
  | testRun
  | byId
  deriving DecidableEq

/-- What the body between lookup and put can return: `ENOEXEC` is 8, `ENOMEM` 12, `EFAULT` 14. -/
def ProgUser.exitCodes : ProgUser → List ℤ
  | .getInfo => [0, -14]
  | .testRun => [0, -8, -12, -14]
  | .byId => [0]

/-- A call in progress, by the step it is at. -/
inductive Call where
  /-- In `parse_and_load`, after `refcount_set(&prog->refs, 1)`. -/
  | building (prog : ℕ)
  /-- In `merlin_cmd_prog_load`, with the reference of the loader. -/
  | loaded (prog : ℕ)
  /-- In `merlin_cmd_prog_load`, after `merlin_prog_new_fd` failed. -/
  | unwinding (prog : ℕ)
  /-- In `merlin_prog_get_by_fd`, after `fget`. -/
  | fetched (file : ℕ) (user : ProgUser)
  /-- In `merlin_prog_get_by_fd`, after `refcount_inc`. -/
  | counted (file prog : ℕ) (user : ProgUser)
  /-- Between the lookup and the final put. -/
  | inUse (prog : ℕ) (user : ProgUser)
  | returned
  deriving DecidableEq

/-- The programs, files and calls so far, by their number.  `badPuts` records the programs on which a
put was performed when the count was already gone. -/
structure ProgWorld where
  progs : List ProgObject
  files : List ProgFile
  calls : List Call
  badPuts : List ℕ
  deriving DecidableEq

def ProgWorld.init : ProgWorld := ⟨[], [], [], []⟩

section Operations

/-- `refcount_dec_and_test`, and `schedule_work` when it says so. -/
def ProgObject.put (o : ProgObject) : ProgObject :=
  match o.refs.decAndTest with
  | (refs, true) => { o with refs := refs, scheduled := o.scheduled + 1 }
  | (refs, false) => { o with refs := refs }

def ProgObject.hasRef (o : ProgObject) : Bool :=
  o.phase ≠ .freed && o.phase ≠ .aborted && o.refs ≠ .counted 0 && o.refs ≠ .saturated

variable (w : ProgWorld)

def ProgWorld.merlinProgPut (p : ℕ) : ProgWorld :=
  { w with
    progs := w.progs.modify p ProgObject.put
    badPuts := if (w.progs[p]?).any ProgObject.hasRef then w.badPuts else p :: w.badPuts }

def ProgWorld.setCall (c : ℕ) (call : Call) : ProgWorld := { w with calls := w.calls.set c call }

def ProgWorld.addCall (call : Call) : ProgWorld := { w with calls := w.calls ++ [call] }

def ProgWorld.setPhase (p : ℕ) (phase : ProgPhase) : ProgWorld :=
  { w with progs := w.progs.modify p fun o => { o with phase := phase } }

def ProgWorld.modifyRefs (p : ℕ) (g : Refcount → Refcount) : ProgWorld :=
  { w with progs := w.progs.modify p fun o => { o with refs := g o.refs } }

def ProgWorld.addFile (p : ℕ) : ProgWorld := { w with files := w.files ++ [⟨p, 1, false⟩] }

/-- `merlin_prog_new_fd`; `getfd` tells whether `anon_inode_getfd` succeeds. -/
def ProgWorld.merlinProgNewFd (p : ℕ) (getfd : Bool) : ProgWorld :=
  if getfd then w.addFile p else w.merlinProgPut p

def Call.uses (f : ℕ) : Call → Bool
  | .fetched g _ => g = f
  | .counted g _ _ => g = f
  | _ => false

end Operations

/-- The steps of the system.  A command that returns before it has a program (no capability, a bad
attribute, a bad descriptor) changes nothing and is left out. -/
inductive ProgEvent where
  /-- `parse_and_load` up to `refcount_set`. -/
  | load
  /-- `jit->translate` or `merlin_prog_alloc_id` fails, and the object is freed. -/
  | loadFails (call : ℕ)
  | loadSucceeds (call : ℕ)
  /-- `merlin_prog_new_fd`, with the outcome of `anon_inode_getfd`. -/
  | newFd (call : ℕ) (getfd : Bool)
  /-- The put of `merlin_cmd_prog_load` after `merlin_prog_new_fd` failed. -/
  | putUnwinding (call : ℕ)
  | fget (file : ℕ) (user : ProgUser)
  | refcountInc (call : ℕ)
  | fput (call : ℕ)
  | getById (prog : ℕ)
  /-- The body of the command is done, with a return code, and the program is put. -/
  | exit (call : ℕ) (rc : ℤ)
  /-- Another descriptor for the file. -/
  | dup (file : ℕ)
  | close (file : ℕ)
  /-- `merlin_prog_release`. -/
  | release (file : ℕ)
  /-- The work queue runs `merlin_prog_free_work`. -/
  | freeWork (prog : ℕ)
  deriving DecidableEq

def progStep (w : ProgWorld) : ProgEvent → Option ProgWorld
  | .load =>
    some { w.addCall (.building w.progs.length) with progs := w.progs ++ [⟨.counted 1, .building, 0⟩] }
  | .loadFails c =>
    match w.calls[c]? with
    | some (.building p) => some ((w.setPhase p .aborted).setCall c .returned)
    | _ => none
  | .loadSucceeds c =>
    match w.calls[c]? with
    | some (.building p) => some ((w.setPhase p .loaded).setCall c (.loaded p))
    | _ => none
  | .newFd c getfd =>
    match w.calls[c]? with
    | some (.loaded p) => some ((w.merlinProgNewFd p getfd).setCall c (if getfd then .returned else .unwinding p))
    | _ => none
  | .putUnwinding c =>
    match w.calls[c]? with
    | some (.unwinding p) => some ((w.merlinProgPut p).setCall c .returned)
    | _ => none
  | .fget f user =>
    match w.files[f]? with
    | some file => if file.fds = 0 ∨ user = .byId then none else some (w.addCall (.fetched f user))
    | none => none
  | .refcountInc c =>
    match w.calls[c]? with
    | some (.fetched f user) =>
      match w.files[f]? with
      | some file => some ((w.modifyRefs file.prog Refcount.inc).setCall c (.counted f file.prog user))
      | none => none
    | _ => none
  | .fput c =>
    match w.calls[c]? with
    | some (.counted _ p user) => some (w.setCall c (.inUse p user))
    | _ => none
  | .getById p =>
    match w.progs[p]? with
    | some o =>
      if o.phase ≠ .loaded then none
      else if o.refs.incNotZero.2 then
        some ((w.modifyRefs p fun refs => refs.incNotZero.1).addCall (.inUse p .byId))
      else some w
    | none => none
  | .exit c rc =>
    match w.calls[c]? with
    | some (.inUse p user) =>
      if rc ∈ user.exitCodes then some ((w.merlinProgPut p).setCall c .returned) else none
    | _ => none
  | .dup f =>
    match w.files[f]? with
    | some file => if file.fds = 0 then none else some { w with files := w.files.set f { file with fds := file.fds + 1 } }
    | none => none
  | .close f =>
    match w.files[f]? with
    | some file => if file.fds = 0 then none else some { w with files := w.files.set f { file with fds := file.fds - 1 } }
    | none => none
  | .release f =>
    match w.files[f]? with
    | some file =>
      if file.released = false ∧ file.fds = 0 ∧ w.calls.countP (Call.uses f) = 0 then
        some { w.merlinProgPut file.prog with files := w.files.set f { file with released := true } }
      else none
    | none => none
  | .freeWork p =>
    match w.progs[p]? with
    | some o => if o.phase = .loaded ∧ 0 < o.scheduled then some (w.setPhase p .freed) else none
    | none => none

def progRun (w : ProgWorld) : List ProgEvent → Option ProgWorld
  | [] => some w
  | e :: es => (progStep w e).bind fun w' => progRun w' es

section Holders

def ProgFile.holds (p : ℕ) (f : ProgFile) : Bool := f.prog = p && !f.released

def Call.holds (p : ℕ) : Call → Bool
  | .building q => q = p
  | .loaded q => q = p
  | .counted _ q _ => q = p
  | .inUse q _ => q = p
  | _ => false

/-- The open files of a program and the calls in progress that have a reference.  A file counts once,
however many descriptors refer to it. -/
def ProgWorld.holders (w : ProgWorld) (p : ℕ) : ℕ :=
  w.files.countP (ProgFile.holds p) + w.calls.countP (Call.holds p)

/-- The count is that of the holders, no put has found it gone, and the free of a loaded program is
scheduled once, when the last holder is gone. -/
structure LifetimeOk (w : ProgWorld) : Prop where
  refs : ∀ (p : ℕ) (o : ProgObject), w.progs[p]? = some o → o.phase = .building ∨ o.phase = .loaded →
    o.refs = .counted (w.holders p)
  noBadPut : w.badPuts = []
  scheduled : ∀ (p : ℕ) (o : ProgObject), w.progs[p]? = some o →
    o.scheduled = if (o.phase = .loaded ∨ o.phase = .freed) ∧ w.holders p = 0 then 1 else 0

def ProgEvent.getfdOk : ProgEvent → Bool
  | .newFd _ getfd => getfd
  | _ => true

end Holders

end MerlinV.Kernel
