import MerlinV.Zephyr.Verifier
import MerlinV.Elf.Layout
import MerlinV.Lib.SlotTable

/-! # The runtime and the loader of the RTOS build

`zephyr/merlin/src/runtime.c` and `loader.c`: a fixed table of program slots, an id counter, and the
calls that load, run and unload a program.  A handle is the index of a slot.  A text buffer from the
heap is its bytes, `k_malloc` answers as the caller of the model says, and a program that runs is a
function of its text and its context.
-/
namespace MerlinV.Zephyr

open Lib (Byte Bytes Rd Table)
open Elf

inductive Status where
  | inval | e2big | nomem | verify | notsup | notfound | busy
  deriving DecidableEq, Repr

inductive ProgType where
  | unspec | filter | probe | actuate
  deriving DecidableEq, Repr

structure Kconfig where
  maxProgs : ℕ
  maxProgBytes : ℕ
  maxStackBytes : BitVec 16
  riscv : Bool
  deriving DecidableEq, Repr

/-- `struct merlin_prog` without `in_use` and `id`, which its slot keeps; `none` is `NULL`. -/
structure Prog where
  textBytes : BitVec 32 := 0
  progType : ProgType := .unspec
  name : Bytes := []
  text : Option Bytes := none
  textAlloc : BitVec 32 := 0
  fn : Option Bytes := none
  runCnt : BitVec 64 := 0
  runTimeNs : BitVec 64 := 0
  deriving DecidableEq, Repr

structure Runtime (n : ℕ) where
  slots : Table n (BitVec 32) Prog
  nextProgId : BitVec 32

section Slots

variable {n : ℕ}

/-- `merlin_init` on its first call. -/
def merlinInit (n : ℕ) : Runtime n := ⟨fun _ => ⟨false, 0, {}⟩, 1⟩

def merlinAllocSlot (rt : Runtime n) : Option (Fin n × Runtime n) :=
  rt.slots.free.map fun i =>
    (i, ⟨Function.update rt.slots i ⟨true, rt.nextProgId, {}⟩, rt.nextProgId + 1⟩)

def merlinFreeSlot (rt : Runtime n) (i : Fin n) : Runtime n :=
  { rt with slots := Function.update rt.slots i { rt.slots i with used := false } }

def merlinProgGetById (rt : Runtime n) (id : BitVec 32) : Option (Fin n) := rt.slots.slotOf id

def Runtime.modify (rt : Runtime n) (i : Fin n) (f : Prog → Prog) : Runtime n :=
  { rt with slots := Function.update rt.slots i { rt.slots i with value := f (rt.slots i).value } }

/-- `merlin_runtime_install` behind the allocation. -/
def merlinRuntimeInstall (text : Bytes) (prog : Prog) : Prog :=
  { prog with
    text := some text
    textAlloc := BitVec.ofNat 32 text.length
    textBytes := BitVec.ofNat 32 text.length
    fn := some text }

def merlinRuntimeUninstall (prog : Prog) : Prog :=
  match prog.text with
  | some _ => { prog with text := none, textAlloc := 0, fn := none }
  | none => { prog with fn := none }

end Slots

section Run

variable {n : ℕ}

/-- How a call of `merlin_prog_run` goes: the context, what a program returns, and the time. -/
structure RunCall where
  ctx : BitVec 64
  exec : Bytes → BitVec 64 → BitVec 64
  elapsedMs : BitVec 32

/-- `merlin_prog_run`: the text that was executed and its result, or an error. -/
def merlinProgRun (K : Kconfig) (rt : Runtime n) (prog : Option (Fin n)) (call : RunCall) :
    Except Status (Bytes × BitVec 64) × Runtime n :=
  match prog with
  | none => (.error .inval, rt)
  | some i =>
    if !(rt.slots i).used then (.error .inval, rt)
    else match (rt.slots i).value.fn with
      | none => (.error .inval, rt)
      | some text =>
        if !K.riscv then (.error .notsup, rt)
        else (.ok (text, call.exec text call.ctx), rt.modify i fun prog => { prog with
          runCnt := prog.runCnt + 1
          runTimeNs := prog.runTimeNs + call.elapsedMs.setWidth 64 * 1000000 })

end Run

section Walk

variable (blob : Bytes)

structure TextSection where
  off : ℕ
  len : ℕ
  name : Bytes
  deriving DecidableEq, Repr

/-- The loop over the sections, with the string table at `strOff`.  It ends at the first text. -/
def walkSections (shoff shentsize strOff strLen : ℕ) : List ℕ → Rd Status TextSection
  | [] => Rd.fail .notfound
  | i :: is => do
    let sh := shoff + i * shentsize
    let type ← Layout.readType blob sh
    if type ≠ Elf.shtProgbits then walkSections shoff shentsize strOff strLen is else do
    let name ← Layout.readName blob sh
    if name ≥ strLen then walkSections shoff shentsize strOff strLen is else do
    let isText ← Rd.strncmp blob merlinTextPrefix (strOff + name)
    if !isText then walkSections shoff shentsize strOff strLen is else do
    let off ← elf32.readOffset blob sh
    let len ← elf32.readSize blob sh
    Rd.require (off + len ≤ blob.length) .inval
    let secName ← Rd.copyString blob 63 (strOff + name)
    pure ⟨off, len, secName⟩

def checkHeader : Rd Status (ℕ × ℕ) := do
  Rd.require (elf32.ehdrSize ≤ blob.length) .inval
  let magic ← Rd.slice blob 0 4
  Rd.require (magic = elfMag) .inval
  let cls ← Rd.byte blob eiClass
  Rd.require (cls = elf32.cls) .inval
  let data ← Rd.byte blob eiData
  Rd.require (data = elfData2Lsb) .inval
  let type ← Rd.word 2 blob eType
  Rd.require (type = Elf.etRel) .inval
  let machine ← Rd.word 2 blob eMachine
  Rd.require (machine = emRiscv) .inval
  let shentsize ← elf32.readShentsize blob
  Rd.require (elf32.shdrSize ≤ shentsize) .inval
  let shoff ← elf32.readShoff blob
  let shnum ← elf32.readShnum blob
  Rd.require (shoff + shnum * shentsize ≤ blob.length) .inval
  let shstrndx ← elf32.readShstrndx blob
  Rd.require (shstrndx ≠ 0 ∧ shstrndx < shnum) .inval
  let shstr := shoff + shstrndx * shentsize
  let strType ← Layout.readType blob shstr
  Rd.require (strType = Elf.shtStrtab) .inval
  let strOff ← elf32.readOffset blob shstr
  let strLen ← elf32.readSize blob shstr
  Rd.require (strOff + strLen ≤ blob.length) .inval
  pure (strOff, strLen)

def findFirstTextSection : Rd Status TextSection := do
  let strtab ← checkHeader blob
  let shoff ← elf32.readShoff blob
  let shentsize ← elf32.readShentsize blob
  let shnum ← elf32.readShnum blob
  walkSections blob shoff shentsize strtab.1 strtab.2 (List.range' 1 (shnum - 1))

end Walk

section Load

variable {n : ℕ}

structure LoadAttr where
  progType : ProgType
  name : Bytes
  deriving DecidableEq, Repr

structure LoadInfo where
  progId : BitVec 32 := 0
  textBytes : BitVec 32 := 0
  verifiedInsns : ℕ := 0
  rejected : ℕ := 0
  deriving DecidableEq, Repr

/-- The arguments of `merlin_prog_load`, with the answer of `k_malloc`; `none` is `NULL`. -/
structure LoadCall where
  blob : Option Bytes
  attr : Option LoadAttr
  hasInfo : Bool
  hasProgOut : Bool
  malloc : Bool
  deriving DecidableEq, Repr

def defaultName : Bytes := [0x6d, 0x65, 0x72, 0x6c, 0x69, 0x6e, 0x2d, 0x70, 0x72, 0x6f, 0x67]

def progName (attr : Option LoadAttr) : Bytes :=
  match attr with
  | some a => if a.name.headD 0 ≠ 0 then (a.name.takeWhile (· ≠ 0)).take 15 else defaultName
  | none => defaultName

def progTypeOf (attr : Option LoadAttr) : ProgType := (attr.map LoadAttr.progType).getD .unspec

structure Outcome (n : ℕ) where
  result : Except Status (Fin n)
  info : LoadInfo
  rt : Runtime n

def verifyAndInstall (K : Kconfig) (rt : Runtime n) (attr : Option LoadAttr) (malloc : Bool) (text : Bytes) :
    Outcome n :=
  let verdict := merlinVerifyText (merlinVerifierCfgForProg K.maxStackBytes) text
  let info : LoadInfo :=
    { textBytes := BitVec.ofNat 32 text.length
      verifiedInsns := verdict.insnsSeen
      rejected := verdict.rejected }
  if !verdict.ok then ⟨.error .verify, info, rt⟩
  else match merlinAllocSlot rt with
    | none => ⟨.error .nomem, info, rt⟩
    | some (i, rt') =>
      let rt' := rt'.modify i fun prog => { prog with name := progName attr, progType := progTypeOf attr }
      if !malloc then ⟨.error .nomem, info, merlinFreeSlot rt' i⟩
      else
        let rt' := rt'.modify i (merlinRuntimeInstall text)
        ⟨.ok i, { info with progId := (rt'.slots i).key }, rt'⟩

/-- `merlin_prog_load` up to the call of the verifier, which reads the text. -/
def readText (K : Kconfig) (call : LoadCall) : Rd Status Bytes :=
  match call.blob with
  | none => Rd.fail .inval
  | some blob => do
    Rd.require (blob.length ≠ 0 ∧ call.hasProgOut ∧ call.hasInfo) .inval
    Rd.require (blob.length ≤ 64 * 1024) .e2big
    let sec ← findFirstTextSection blob
    Rd.require (sec.len ≠ 0 ∧ sec.len % 4 = 0) .inval
    Rd.require (sec.len ≤ K.maxProgBytes) .e2big
    Rd.slice blob sec.off sec.len

/-- `merlin_prog_load`.  An error here ends the load before the verifier is called. -/
def merlinProgLoad (K : Kconfig) (rt : Runtime n) (call : LoadCall) : Rd Status (Outcome n) := do
  let text ← readText K call
  pure (verifyAndInstall K rt call.attr call.malloc text)

def merlinProgUnload (rt : Runtime n) (prog : Option (Fin n)) : Except Status Unit × Runtime n :=
  match prog with
  | none => (.error .inval, rt)
  | some i =>
    if !(rt.slots i).used then (.error .inval, rt)
    else (.ok (), merlinFreeSlot (rt.modify i merlinRuntimeUninstall) i)

end Load

end MerlinV.Zephyr
