import MerlinV.Fabric.Upload
import MerlinV.Lib.Transactions

/-! # The bus adapter of the soft core

The adapter of `rtl/merlin_core_picorv32.v` between the CPU bus and the two memories, one
function call per clock edge.  The bus of the CPU is an input of the model.  The memories
have 256 words and `addrW` address bits; `merlin_top.v` connects 12 bits where the modules
document `log2(WORDS*4)`, which is 10, so that only accesses to the first KiB of each
4 KiB window reach a word.
-/
namespace MerlinV.Fabric

section Memory

def wordIndex (addrW : ℕ) (addr : BitVec 32) : ℕ := addr.toNat % 2 ^ addrW / 4

def coreRead (addrW : ℕ) (mem : Mem) (addr : BitVec 32) : Option (BitVec 32) :=
  if h : wordIndex addrW addr < memWords then some (mem ⟨wordIndex addrW addr, h⟩) else none

def coreStore (addrW : ℕ) (mem : Mem) (addr v : BitVec 32) (strb : BitVec 4) : Mem :=
  match coreRead addrW mem addr with
  | some old => memWrite mem (wordIndex addrW addr) (strobed strb old v)
  | none => mem

end Memory

/-- `bus_state`; `unused` stands for the encodings without a name. -/
inductive BusState where
  | idle | readDrive | readLatch | done | unused
  deriving DecidableEq, Repr

/-- The registers of the adapter; `rdata` may latch an unknown word. -/
structure Adapter where
  busState : BusState
  ready : Bool
  rdata : Option (BitVec 32)
  imemAddr : BitVec 32
  dmemAddr : BitVec 32
  dmemWdata : BitVec 32
  dmemWstrb : BitVec 4
  dmemWe : Bool
  halted : Bool
  exitValue : BitVec 32
  lastWasImem : Bool
  lastWasDmem : Bool
  deriving DecidableEq, Repr

structure CoreInputs where
  rstN : Bool
  run : Bool
  trap : Bool
  valid : Bool
  addr : BitVec 32
  wdata : BitVec 32
  wstrb : BitVec 4
  imemPort : Port
  dmemPort : Port
  deriving DecidableEq, Repr

namespace CoreInputs

variable (i : CoreInputs)

def region : BitVec 4 := i.addr.extractLsb' 28 4

def isWrite : Bool := i.wstrb != 0

def stores : Bool := i.isWrite && i.region == 1#4

def halts : Bool := i.isWrite && i.region == 2#4

end CoreInputs

structure Core where
  bus : Adapter
  imem : Mem
  dmem : Mem
  imemRdata : Option (BitVec 32)
  dmemRdata : Option (BitVec 32)

section Clock

def Adapter.reset : Adapter where
  busState := .idle
  ready := false
  rdata := some 0
  imemAddr := 0
  dmemAddr := 0
  dmemWdata := 0
  dmemWstrb := 0
  dmemWe := false
  halted := false
  exitValue := 0
  lastWasImem := false
  lastWasDmem := false

def Adapter.defaults (a : Adapter) : Adapter := { a with ready := false, dmemWe := false }

/-- An access in `S_IDLE`; `d` holds the defaults of the cycle. -/
def Adapter.accept (d : Adapter) (i : CoreInputs) : Adapter :=
  if i.isWrite then
    let w :=
      if i.region = 1#4 then
        { d with dmemAddr := i.addr, dmemWdata := i.wdata, dmemWstrb := i.wstrb, dmemWe := true }
      else if i.region = 2#4 then { d with halted := true, exitValue := i.wdata }
      else d
    { w with ready := true, busState := .done }
  else
    { d with
      lastWasImem := i.region = 0#4
      lastWasDmem := i.region = 1#4
      imemAddr := if i.region = 0#4 then i.addr else d.imemAddr
      dmemAddr := if i.region = 1#4 then i.addr else d.dmemAddr
      busState := .readDrive }

/-- The `case (bus_state)` of a cycle with `run` high. -/
def Adapter.serve (a : Adapter) (i : CoreInputs) (imemRdata dmemRdata : Option (BitVec 32)) : Adapter :=
  let d := a.defaults
  match a.busState with
  | .idle => if i.valid && !a.ready then d.accept i else d
  | .readDrive => { d with busState := .readLatch }
  | .readLatch =>
    { d with
      rdata := if a.lastWasImem then imemRdata else if a.lastWasDmem then dmemRdata else some 0xdeadbeef
      ready := true
      busState := .done }
  | .done => { d with busState := .idle }
  | .unused => { d with busState := .idle }

def Adapter.clock (a : Adapter) (i : CoreInputs) (imemRdata dmemRdata : Option (BitVec 32)) : Adapter :=
  if !i.rstN then .reset
  else if !i.run then { a with busState := .idle, ready := false, dmemWe := false, halted := false }
  else
    let b := a.serve i imemRdata dmemRdata
    if i.trap && !a.halted then { b with halted := true, exitValue := 0xdeadbeef } else b

variable (addrW : ℕ)

def coreClock (s : Core) (i : CoreInputs) : Core where
  bus := s.bus.clock i s.imemRdata s.dmemRdata
  imem := i.imemPort.drive s.imem
  dmem :=
    if i.dmemPort.we then i.dmemPort.drive s.dmem
    else if s.bus.dmemWe then
      coreStore addrW s.dmem s.bus.dmemAddr s.bus.dmemWdata s.bus.dmemWstrb
    else s.dmem
  imemRdata := coreRead addrW s.imem s.bus.imemAddr
  dmemRdata := coreRead addrW s.dmem s.bus.dmemAddr

def coreTrace (s : Core) (ins : ℕ → CoreInputs) : ℕ → Core
  | 0 => s
  | t + 1 => coreClock addrW (coreTrace s ins t) (ins t)

end Clock

section Service

open Lib

variable (addrW : ℕ) (s : Core) (ins : ℕ → CoreInputs)

/-- `run` stays high, the CPU does not trap and the host uploads nothing. -/
structure Running (i : CoreInputs) : Prop where
  rstN : i.rstN = true
  run : i.run = true
  trap : i.trap = false
  imem : i.imemPort.we = false
  dmem : i.dmemPort.we = false

def validAt (t : ℕ) : Bool := (ins t).valid

def readyAt (t : ℕ) : Bool := (coreTrace addrW s ins t).bus.ready

/-- The word an address selects in a memory of 1 KiB. -/
def refWord (addr : BitVec 32) : Fin memWords := ⟨addr.toNat % 1024 / 4, by unfold memWords; omega⟩

/-- DMEM after the stores that begin before cycle `t`. -/
def refMem : ℕ → Mem
  | 0 => s.dmem
  | t + 1 =>
    let m := refMem t
    let k := refWord (ins t).addr
    if Begins (validAt ins) t ∧ (ins t).stores then
      Function.update m k (strobed (ins t).wstrb (m k) (ins t).wdata)
    else m

/-- `halted` and `exit_value` after the writes that begin before cycle `t`. -/
def refExit : ℕ → Bool × BitVec 32
  | 0 => (s.bus.halted, s.bus.exitValue)
  | t + 1 => if Begins (validAt ins) t ∧ (ins t).halts then (true, (ins t).wdata) else refExit t

/-- What a read that begins at `t` has to return. -/
def refRead (t : ℕ) : BitVec 32 :=
  if (ins t).region = 0#4 then s.imem (refWord (ins t).addr)
  else if (ins t).region = 1#4 then refMem s ins t (refWord (ins t).addr)
  else 0xdeadbeef

/-- The handshake of every access, its write pulse and its effect on the exit registers. -/
structure Handshaken : Prop where
  acked : ∀ t, Begins (validAt ins) t →
    ∃! u, During (validAt ins) t u ∧ readyAt addrW s ins u = true
  ackedOnly : ∀ u, readyAt addrW s ins u = true → ∃ t, Begins (validAt ins) t ∧ During (validAt ins) t u
  stored : ∀ t, Begins (validAt ins) t → (ins t).stores = true →
    ∃! u, During (validAt ins) t u ∧ (coreTrace addrW s ins u).bus.dmemWe = true
  storedData : ∀ t u, Begins (validAt ins) t → During (validAt ins) t u →
    (coreTrace addrW s ins u).bus.dmemWe = true → (ins t).stores = true ∧
      (coreTrace addrW s ins u).bus.dmemAddr = (ins t).addr ∧
      (coreTrace addrW s ins u).bus.dmemWdata = (ins t).wdata ∧
      (coreTrace addrW s ins u).bus.dmemWstrb = (ins t).wstrb
  storedOnly : ∀ u, (coreTrace addrW s ins u).bus.dmemWe = true →
    ∃ t, Begins (validAt ins) t ∧ During (validAt ins) t u
  exit : ∀ u, ((coreTrace addrW s ins u).bus.halted, (coreTrace addrW s ins u).bus.exitValue) =
    refExit s ins u

/-- Every access is served once, and the memories behave as memories of 1 KiB. -/
structure ServedOnce : Prop extends Handshaken addrW s ins where
  loaded : ∀ t, Begins (validAt ins) t → (ins t).isWrite = false → ∀ u, During (validAt ins) t u →
    readyAt addrW s ins u = true → (coreTrace addrW s ins u).bus.rdata = some (refRead s ins t)
  dmem : ∀ u, (coreTrace addrW s ins (u + 1)).dmem = refMem s ins u
  imem : ∀ u, (coreTrace addrW s ins u).imem = s.imem

/-- An access to a memory selects the same word in it as in a memory of 1 KiB. -/
def Fits (i : CoreInputs) : Prop :=
  i.stores = true ∨ (i.isWrite = false ∧ (i.region = 0#4 ∨ i.region = 1#4)) →
    i.addr.toNat % 2 ^ addrW = i.addr.toNat % 1024

end Service

section Steps

variable {addrW : ℕ} {s : Core} {ins : ℕ → CoreInputs} {t : ℕ}

/-- The state in which the adapter takes the next access. -/
def IdleAt (addrW : ℕ) (s : Core) (ins : ℕ → CoreInputs) (t : ℕ) : Prop :=
  (coreTrace addrW s ins t).bus.busState = .idle ∧ readyAt addrW s ins t = false

/-- The cycles from the beginning of an access to its acknowledgement. -/
def latency (ins : ℕ → CoreInputs) (t : ℕ) : ℕ := if (ins t).isWrite then 1 else 3

theorem Adapter.clock_running {a : Adapter} {i : CoreInputs} {r₁ r₂ : Option (BitVec 32)}
    (h : Running i) : a.clock i r₁ r₂ = a.serve i r₁ r₂ := by
  simp [Adapter.clock, h.rstN, h.run, h.trap]

theorem bus_succ (h : Running (ins t)) : (coreTrace addrW s ins (t + 1)).bus =
    (coreTrace addrW s ins t).bus.serve (ins t) (coreTrace addrW s ins t).imemRdata
      (coreTrace addrW s ins t).dmemRdata :=
  Adapter.clock_running h

theorem Adapter.accept_write {d : Adapter} {i : CoreInputs} (h : i.isWrite = true) :
    (d.accept i).ready = true ∧ (d.accept i).busState = .done := by
  simp [Adapter.accept, h]

/-- The registers behind an idle cycle without an access. -/
theorem bus_wait (h : Running (ins t)) (hi : IdleAt addrW s ins t) (hv : (ins t).valid = false) :
    (coreTrace addrW s ins (t + 1)).bus = (coreTrace addrW s ins t).bus.defaults := by
  rw [bus_succ h, Adapter.serve, hi.1]
  simp [hv]

theorem bus_accept (h : Running (ins t)) (hi : IdleAt addrW s ins t) (hv : (ins t).valid = true) :
    (coreTrace addrW s ins (t + 1)).bus = (coreTrace addrW s ins t).bus.defaults.accept (ins t) := by
  have hready : (coreTrace addrW s ins t).bus.ready = false := hi.2
  rw [bus_succ h, Adapter.serve, hi.1]
  simp [hv, hready]

theorem bus_drive (h : Running (ins t)) (hs : (coreTrace addrW s ins t).bus.busState = .readDrive) :
    (coreTrace addrW s ins (t + 1)).bus =
      { (coreTrace addrW s ins t).bus.defaults with busState := .readLatch } := by
  rw [bus_succ h, Adapter.serve, hs]

theorem bus_latch (h : Running (ins t)) (hs : (coreTrace addrW s ins t).bus.busState = .readLatch) :
    (coreTrace addrW s ins (t + 1)).bus =
      { (coreTrace addrW s ins t).bus.defaults with
        rdata :=
          if (coreTrace addrW s ins t).bus.lastWasImem then (coreTrace addrW s ins t).imemRdata
          else if (coreTrace addrW s ins t).bus.lastWasDmem then (coreTrace addrW s ins t).dmemRdata
          else some 0xdeadbeef
        ready := true
        busState := .done } := by
  rw [bus_succ h, Adapter.serve, hs]

theorem bus_done (h : Running (ins t)) (hs : (coreTrace addrW s ins t).bus.busState = .done) :
    (coreTrace addrW s ins (t + 1)).bus =
      { (coreTrace addrW s ins t).bus.defaults with busState := .idle } := by
  rw [bus_succ h, Adapter.serve, hs]

theorem idleAt_of_done (h : Running (ins t)) (hs : (coreTrace addrW s ins t).bus.busState = .done) :
    IdleAt addrW s ins (t + 1) := by
  unfold IdleAt readyAt
  rw [bus_done h hs]
  exact ⟨rfl, rfl⟩

variable (hrun : ∀ t, Running (ins t))

include hrun

theorem write_steps (hi : IdleAt addrW s ins t) (hv : (ins t).valid = true) (hw : (ins t).isWrite = true) :
    (coreTrace addrW s ins (t + 1)).bus.busState = .done ∧ readyAt addrW s ins (t + 1) = true ∧
      IdleAt addrW s ins (t + 2) := by
  have hacc := bus_accept (hrun t) hi hv
  obtain ⟨hr, hs⟩ := Adapter.accept_write (d := (coreTrace addrW s ins t).bus.defaults) hw
  rw [← hacc] at hr hs
  exact ⟨hs, hr, idleAt_of_done (hrun (t + 1)) hs⟩

/-- A read passes `S_READ_DRIVE` and `S_READ_LATCH`. -/
theorem read_steps (hi : IdleAt addrW s ins t) (hv : (ins t).valid = true) (hw : (ins t).isWrite = false) :
    ((coreTrace addrW s ins (t + 1)).bus.busState = .readDrive ∧ readyAt addrW s ins (t + 1) = false) ∧
      ((coreTrace addrW s ins (t + 2)).bus.busState = .readLatch ∧ readyAt addrW s ins (t + 2) = false) ∧
      ((coreTrace addrW s ins (t + 3)).bus.busState = .done ∧ readyAt addrW s ins (t + 3) = true) ∧
      IdleAt addrW s ins (t + 4) := by
  have hacc := bus_accept (hrun t) hi hv
  have hs₁ : (coreTrace addrW s ins (t + 1)).bus.busState = .readDrive := by
    rw [hacc]
    simp [Adapter.accept, hw]
  have hr₁ : readyAt addrW s ins (t + 1) = false := by
    unfold readyAt
    rw [hacc]
    simp [Adapter.accept, hw, Adapter.defaults]
  have hdrive := bus_drive (hrun (t + 1)) hs₁
  have hs₂ : (coreTrace addrW s ins (t + 2)).bus.busState = .readLatch := by rw [hdrive]
  have hr₂ : readyAt addrW s ins (t + 2) = false := by
    unfold readyAt
    rw [hdrive]
    rfl
  have hlatch := bus_latch (hrun (t + 2)) hs₂
  have hs₃ : (coreTrace addrW s ins (t + 3)).bus.busState = .done := by rw [hlatch]
  have hr₃ : readyAt addrW s ins (t + 3) = true := by
    unfold readyAt
    rw [hlatch]
  exact ⟨⟨hs₁, hr₁⟩, ⟨hs₂, hr₂⟩, ⟨hs₃, hr₃⟩, idleAt_of_done (hrun (t + 3)) hs₃⟩

/-- The adapter serves one access at a time. -/
theorem adapter_serves (h0 : IdleAt addrW s ins 0) :
    Lib.Serves (validAt ins) (readyAt addrW s ins) (IdleAt addrW s ins) (latency ins) := by
  have hnot : ∀ {u b}, (coreTrace addrW s ins u).bus.busState = b → b ≠ .idle → ¬ IdleAt addrW s ins u :=
    fun hb hne hi => hne (hb.symm.trans hi.1)
  refine ⟨h0, fun t hi hv => ⟨hi.2, ?_⟩, fun t => ?_, fun t hi hv k hk => ?_, fun t hi hv k hk => ?_,
    fun t hi hv => ?_⟩
  · have hwait := bus_wait (hrun t) hi hv
    unfold IdleAt readyAt
    rw [hwait]
    exact ⟨hi.1, rfl⟩
  · unfold latency
    split <;> omega
  · unfold latency at hk
    cases hw : (ins t).isWrite with
    | true =>
      rw [hw, if_pos rfl] at hk
      obtain rfl : k = 0 := by omega
      exact hi.2
    | false =>
      obtain ⟨h₁, h₂, -, -⟩ := read_steps hrun hi hv hw
      rw [hw, if_neg Bool.false_ne_true] at hk
      interval_cases k
      · exact hi.2
      · exact h₁.2
      · exact h₂.2
  · unfold latency at hk
    cases hw : (ins t).isWrite with
    | true =>
      rw [hw, if_pos rfl] at hk
      obtain rfl : k = 0 := by omega
      exact hnot (write_steps hrun hi hv hw).1 (by decide)
    | false =>
      obtain ⟨h₁, h₂, h₃, -⟩ := read_steps hrun hi hv hw
      rw [hw, if_neg Bool.false_ne_true] at hk
      interval_cases k
      · exact hnot h₁.1 (by decide)
      · exact hnot h₂.1 (by decide)
      · exact hnot h₃.1 (by decide)
  · unfold latency
    cases hw : (ins t).isWrite with
    | true =>
      rw [if_pos rfl]
      exact (write_steps hrun hi hv hw).2
    | false =>
      rw [if_neg Bool.false_ne_true]
      obtain ⟨-, -, h₃, h₄⟩ := read_steps hrun hi hv hw
      exact ⟨h₃.2, h₄⟩

end Steps

section Effects

variable {a : Adapter} {i : CoreInputs} {r₁ r₂ : Option (BitVec 32)}

def Adapter.takes (a : Adapter) (i : CoreInputs) : Bool :=
  decide (a.busState = .idle) && (i.valid && !a.ready)

theorem Adapter.serve_of_not_takes (h : a.takes i = false) :
    (a.serve i r₁ r₂).dmemWe = false ∧ (a.serve i r₁ r₂).halted = a.halted ∧
      (a.serve i r₁ r₂).exitValue = a.exitValue := by
  unfold Adapter.serve
  cases hs : a.busState with
  | idle =>
    simp only [Adapter.takes, hs, decide_true, Bool.true_and] at h
    simp [h, Adapter.defaults]
  | readDrive => exact ⟨rfl, rfl, rfl⟩
  | readLatch => exact ⟨rfl, rfl, rfl⟩
  | done => exact ⟨rfl, rfl, rfl⟩
  | unused => exact ⟨rfl, rfl, rfl⟩

theorem Adapter.serve_of_takes (h : a.takes i = true) : a.serve i r₁ r₂ = a.defaults.accept i := by
  simp only [Adapter.takes, Bool.and_eq_true, decide_eq_true_eq] at h
  rw [Adapter.serve, h.1]
  simp [h.2.1, h.2.2]

/-- The store pulse follows the accesses that store. -/
theorem Adapter.serve_dmemWe : (a.serve i r₁ r₂).dmemWe = (a.takes i && i.stores) := by
  cases ht : a.takes i with
  | false => rw [(Adapter.serve_of_not_takes ht).1, Bool.false_and]
  | true =>
    rw [Adapter.serve_of_takes ht, Bool.true_and, Adapter.accept, CoreInputs.stores]
    cases hw : i.isWrite with
    | false => simp [Adapter.defaults]
    | true =>
      by_cases h₁ : i.region = 1#4
      · simp [h₁]
      · by_cases h₂ : i.region = 2#4 <;> simp [h₁, h₂, Adapter.defaults]

theorem Adapter.serve_store (h : (a.serve i r₁ r₂).dmemWe = true) :
    (a.serve i r₁ r₂).dmemAddr = i.addr ∧ (a.serve i r₁ r₂).dmemWdata = i.wdata ∧
      (a.serve i r₁ r₂).dmemWstrb = i.wstrb := by
  rw [Adapter.serve_dmemWe, Bool.and_eq_true, CoreInputs.stores, Bool.and_eq_true, beq_iff_eq] at h
  rw [Adapter.serve_of_takes h.1, Adapter.accept, if_pos h.2.1, if_pos h.2.2]
  exact ⟨rfl, rfl, rfl⟩

theorem Adapter.serve_exit : ((a.serve i r₁ r₂).halted, (a.serve i r₁ r₂).exitValue) =
    if a.takes i ∧ i.halts then (true, i.wdata) else (a.halted, a.exitValue) := by
  cases ht : a.takes i with
  | false =>
    obtain ⟨-, h₁, h₂⟩ := @Adapter.serve_of_not_takes a i r₁ r₂ ht
    simp [h₁, h₂]
  | true =>
    rw [Adapter.serve_of_takes ht, Adapter.accept, CoreInputs.halts]
    cases hw : i.isWrite with
    | false => simp [Adapter.defaults]
    | true =>
      by_cases h₁ : i.region = 1#4
      · simp [h₁, Adapter.defaults]
      · by_cases h₂ : i.region = 2#4 <;> simp [h₁, h₂, Adapter.defaults]

end Effects

section Memories

variable {addrW : ℕ} {mem : Mem} {addr : BitVec 32}

theorem coreRead_of_fits (h : addr.toNat % 2 ^ addrW = addr.toNat % 1024) :
    coreRead addrW mem addr = some (mem (refWord addr)) := by
  have hidx : wordIndex addrW addr = addr.toNat % 1024 / 4 := by rw [wordIndex, h]
  have hlt : wordIndex addrW addr < memWords := by
    rw [hidx]
    unfold memWords
    omega
  rw [coreRead, dif_pos hlt]
  congr 2
  exact Fin.ext hidx

theorem coreStore_of_fits (h : addr.toNat % 2 ^ addrW = addr.toNat % 1024) (v : BitVec 32) (strb : BitVec 4) :
    coreStore addrW mem addr v strb =
      Function.update mem (refWord addr) (strobed strb (mem (refWord addr)) v) := by
  have hidx : wordIndex addrW addr = addr.toNat % 1024 / 4 := by rw [wordIndex, h]
  have hlt : wordIndex addrW addr < memWords := by
    rw [hidx]
    unfold memWords
    omega
  have hk : (⟨wordIndex addrW addr, hlt⟩ : Fin memWords) = refWord addr := Fin.ext hidx
  rw [coreStore, coreRead_of_fits h]
  dsimp only
  rw [memWrite, dif_pos hlt, hk]

/-- The memories of `merlin_top` are those with 12 address bits. -/
theorem wordIndex_twelve (addr : BitVec 32) :
    wordIndex 12 addr = (addr.extractLsb' 0 12 >>> 2).toNat := by
  rw [wordIndex, BitVec.toNat_ushiftRight, BitVec.extractLsb'_toNat, Nat.shiftRight_zero,
    Nat.shiftRight_eq_div_pow]

theorem coreRead_twelve : coreRead 12 mem addr = memRead mem addr := by
  simp only [coreRead, memRead, wordIndex_twelve]

theorem coreStore_twelve (v : BitVec 32) (strb : BitVec 4) :
    coreStore 12 mem addr v strb = coreWrite mem addr v strb := by
  cases hm : memRead mem addr with
  | none => simp only [coreStore, coreWrite, coreRead_twelve, hm]
  | some old => simp only [coreStore, coreWrite, coreRead_twelve, wordIndex_twelve, hm]

/-- With the documented 10 address bits every access fits. -/
theorem fits_ten (i : CoreInputs) : Fits 10 i := fun _ => rfl

end Memories

section Runs

open Lib

variable {addrW : ℕ} {s : Core} {ins : ℕ → CoreInputs} {t : ℕ}
  (hrun : ∀ t, Running (ins t)) (h0 : IdleAt addrW s ins 0)
  (hcpu : Held (validAt ins) (readyAt addrW s ins))

include hrun in
theorem imem_const (t : ℕ) : (coreTrace addrW s ins t).imem = s.imem := by
  induction t with
  | zero => rfl
  | succ t ih =>
    change (ins t).imemPort.drive (coreTrace addrW s ins t).imem = _
    rw [Port.drive, (hrun t).imem, ih]
    rfl

include hrun h0 hcpu

theorem takes_iff : (coreTrace addrW s ins t).bus.takes (ins t) = true ↔ Begins (validAt ins) t := by
  rw [(adapter_serves hrun h0).begins_iff hcpu]
  simp only [Adapter.takes, Bool.and_eq_true, decide_eq_true_eq, Bool.not_eq_true', IdleAt, readyAt,
    validAt]
  tauto

theorem dmemWe_succ : (coreTrace addrW s ins (t + 1)).bus.dmemWe = true ↔
    Begins (validAt ins) t ∧ (ins t).stores = true := by
  rw [bus_succ (hrun t), Adapter.serve_dmemWe, Bool.and_eq_true, takes_iff hrun h0 hcpu]

theorem exit_eq (u : ℕ) : ((coreTrace addrW s ins u).bus.halted, (coreTrace addrW s ins u).bus.exitValue) =
    refExit s ins u := by
  induction u with
  | zero => rfl
  | succ u ih =>
    rw [bus_succ (hrun u), Adapter.serve_exit, refExit, ← ih]
    simp only [takes_iff hrun h0 hcpu]

theorem dmem_eq (hwe : s.bus.dmemWe = false) (hfit : ∀ t, Begins (validAt ins) t → Fits addrW (ins t))
    (u : ℕ) : (coreTrace addrW s ins (u + 1)).dmem = refMem s ins u := by
  induction u with
  | zero =>
    change (if (ins 0).dmemPort.we then _ else if s.bus.dmemWe then _ else s.dmem) = s.dmem
    rw [(hrun 0).dmem, hwe]
    rfl
  | succ u ih =>
    have hdmem : (coreTrace addrW s ins (u + 1 + 1)).dmem =
        if (coreTrace addrW s ins (u + 1)).bus.dmemWe then
          coreStore addrW (coreTrace addrW s ins (u + 1)).dmem (coreTrace addrW s ins (u + 1)).bus.dmemAddr
            (coreTrace addrW s ins (u + 1)).bus.dmemWdata (coreTrace addrW s ins (u + 1)).bus.dmemWstrb
        else (coreTrace addrW s ins (u + 1)).dmem := by
      change (if (ins (u + 1)).dmemPort.we then _ else _) = _
      rw [(hrun (u + 1)).dmem]
      rfl
    have hwe' := dmemWe_succ hrun h0 hcpu (t := u)
    rw [hdmem, refMem, ih]
    by_cases hb : Begins (validAt ins) u ∧ (ins u).stores = true
    · have hserve := hwe'.mpr hb
      rw [if_pos hserve, if_pos hb]
      rw [bus_succ (hrun u)] at hserve ⊢
      obtain ⟨h₁, h₂, h₃⟩ := Adapter.serve_store hserve
      rw [h₁, h₂, h₃, coreStore_of_fits (hfit u hb.1 (.inl hb.2))]
    · rw [if_neg hb, if_neg fun h => hb (hwe'.mp h)]

theorem rdata_eq (hwe : s.bus.dmemWe = false) (hfit : ∀ t, Begins (validAt ins) t → Fits addrW (ins t))
    (hb : Begins (validAt ins) t) (hw : (ins t).isWrite = false) :
    (coreTrace addrW s ins (t + 3)).bus.rdata = some (refRead s ins t) := by
  have hi := (adapter_serves hrun h0).idle_of_begins hcpu hb
  obtain ⟨⟨hs₁, -⟩, ⟨hs₂, -⟩, -⟩ := read_steps hrun hi hb.1 hw
  have hacc := bus_accept (hrun t) hi hb.1
  have hdrive := bus_drive (hrun (t + 1)) hs₁
  have himem : (coreTrace addrW s ins (t + 2)).imemRdata =
      coreRead addrW s.imem (coreTrace addrW s ins (t + 1)).bus.imemAddr := by
    rw [← imem_const hrun (t + 1)]
    rfl
  have hdmem : (coreTrace addrW s ins (t + 2)).dmemRdata =
      coreRead addrW (refMem s ins t) (coreTrace addrW s ins (t + 1)).bus.dmemAddr := by
    rw [← dmem_eq hrun h0 hcpu hwe hfit t]
    rfl
  have hlast : (coreTrace addrW s ins (t + 2)).bus.lastWasImem = decide ((ins t).region = 0#4) ∧
      (coreTrace addrW s ins (t + 2)).bus.lastWasDmem = decide ((ins t).region = 1#4) := by
    rw [hdrive, hacc]
    simp [Adapter.accept, Adapter.defaults, hw]
  have haddr : ((ins t).region = 0#4 → (coreTrace addrW s ins (t + 1)).bus.imemAddr = (ins t).addr) ∧
      ((ins t).region = 1#4 → (coreTrace addrW s ins (t + 1)).bus.dmemAddr = (ins t).addr) := by
    rw [hacc]
    constructor <;> intro hreg <;> simp [Adapter.accept, hw, hreg]
  rw [bus_latch (hrun (t + 2)) hs₂, hlast.1, hlast.2, himem, hdmem]
  unfold refRead
  by_cases hreg₀ : (ins t).region = 0#4
  · have hf := hfit t hb (.inr ⟨hw, .inl hreg₀⟩)
    simp only [hreg₀, decide_true, if_true, haddr.1 hreg₀, coreRead_of_fits hf]
  · by_cases hreg₁ : (ins t).region = 1#4
    · have hf := hfit t hb (.inr ⟨hw, .inr hreg₁⟩)
      have hne : ¬ (1#4 = 0#4) := by decide
      simp only [hreg₁, hne, decide_false, Bool.false_eq_true, decide_true, if_true, if_false,
        haddr.2 hreg₁, coreRead_of_fits hf]
    · simp [hreg₀, hreg₁]

theorem handshaken (hwe : s.bus.dmemWe = false) : Handshaken addrW s ins := by
  have hserves := adapter_serves hrun h0
  have hpulse : ∀ u, (coreTrace addrW s ins u).bus.dmemWe = true ↔
      ∃ t, Begins (validAt ins) t ∧ (ins t).stores = true ∧ u = t + 1 := by
    intro u
    cases u with
    | zero =>
      refine ⟨fun h => ?_, fun ⟨t, _, _, ht⟩ => by omega⟩
      rw [coreTrace, hwe] at h
      cases h
    | succ u =>
      rw [dmemWe_succ hrun h0 hcpu]
      constructor
      · exact fun ⟨hb, hst⟩ => ⟨u, hb, hst, rfl⟩
      · rintro ⟨t, hb, hst, htu⟩
        obtain rfl : u = t := by omega
        exact ⟨hb, hst⟩
  have hone : ∀ t, 1 ≤ latency ins t := fun t => hserves.pos t
  have hduring : ∀ t, Begins (validAt ins) t → ∀ k ≤ latency ins t, During (validAt ins) t (t + k) :=
    fun t hb k hk => hserves.during_lat hcpu (hserves.idle_of_begins hcpu hb) hb.1 hk
  refine ⟨fun t hb => hserves.ack_once hcpu hb, fun u hu => ?_, fun t hb hst => ?_,
    fun t u hb hd hu => ?_, fun u hu => ?_, exit_eq hrun h0 hcpu⟩
  · obtain ⟨t, hb, rfl⟩ := (hserves.ack_iff hcpu u).mp hu
    exact ⟨t, hb, hduring t hb _ le_rfl⟩
  · exact hserves.pulse_once hcpu hone hpulse hb hst
  · obtain ⟨t', hb', hst, rfl⟩ := (hpulse u).mp hu
    have hlat := hone t'
    obtain rfl : t' = t := hserves.begins_unique hcpu hb hd hb' (by omega) (by omega)
    rw [bus_succ (hrun t')] at hu ⊢
    exact ⟨hst, Adapter.serve_store hu⟩
  · obtain ⟨t, hb, -, rfl⟩ := (hpulse u).mp hu
    exact ⟨t, hb, hduring t hb 1 (hone t)⟩

end Runs

section Result

open Lib

variable {addrW : ℕ} {s₀ : Core} {i₀ : CoreInputs} {ins : ℕ → CoreInputs}

theorem idleAt_of_reset (h : i₀.rstN = false ∨ i₀.run = false) :
    IdleAt addrW (coreClock addrW s₀ i₀) ins 0 ∧ (coreClock addrW s₀ i₀).bus.dmemWe = false := by
  unfold IdleAt readyAt
  change ((s₀.bus.clock i₀ _ _).busState = .idle ∧ (s₀.bus.clock i₀ _ _).ready = false) ∧
    (s₀.bus.clock i₀ _ _).dmemWe = false
  unfold Adapter.clock
  cases hr : i₀.rstN with
  | false => exact ⟨⟨rfl, rfl⟩, rfl⟩
  | true =>
    have hrun : i₀.run = false := h.resolve_left (by simp [hr])
    simp [hrun]

/-- Behind a reset, in every run of the CPU bus that keeps its handshake and whose accesses
select the word they select in a memory of 1 KiB, every access is served exactly once. -/
theorem bus_adapter_serves_once (h₀ : i₀.rstN = false ∨ i₀.run = false) (hrun : ∀ t, Running (ins t))
    (hcpu : Held (validAt ins) (readyAt addrW (coreClock addrW s₀ i₀) ins))
    (hfit : ∀ t, Begins (validAt ins) t → Fits addrW (ins t)) :
    ServedOnce addrW (coreClock addrW s₀ i₀) ins := by
  obtain ⟨hidle, hwe⟩ := @idleAt_of_reset addrW s₀ i₀ ins h₀
  have hserves := adapter_serves hrun hidle
  refine { handshaken hrun hidle hcpu hwe with
    loaded := fun t hb hw u hd hu => ?_
    dmem := dmem_eq hrun hidle hcpu hwe hfit
    imem := imem_const hrun }
  obtain ⟨t', hb', rfl⟩ := (hserves.ack_iff hcpu u).mp hu
  obtain rfl : t' = t := hserves.begins_unique hcpu hb hd hb' (by omega) le_rfl
  rw [latency, hw, if_neg Bool.false_ne_true]
  exact rdata_eq hrun hidle hcpu hwe hfit hb hw

/-- A cycle in which the CPU drives its bus and nothing else happens. -/
def busCycle (valid : Bool) (addr wdata : BitVec 32) (wstrb : BitVec 4) : CoreInputs where
  rstN := true
  run := true
  trap := false
  valid := valid
  addr := addr
  wdata := wdata
  wstrb := wstrb
  imemPort := ⟨false, 0, 0⟩
  dmemPort := ⟨false, 0, 0⟩

/-- The CPU stores a word at `addr` in cycles 0 and 1 and loads it again in cycles 3 to 6. -/
def storeThenLoad (addr : BitVec 32) (t : ℕ) : CoreInputs :=
  if t < 2 then busCycle true addr 0x11223344 0xf
  else busCycle (decide (3 ≤ t ∧ t < 7)) addr 0 0

/-- The core behind a reset, with empty memories. -/
def resetCore : Core :=
  coreClock 12 ⟨.reset, fun _ => 0, fun _ => 0, none, none⟩ { busCycle false 0 0 0 with rstN := false }

theorem storeThenLoad_running (addr : BitVec 32) (t : ℕ) : Running (storeThenLoad addr t) := by
  unfold storeThenLoad
  split <;> exact ⟨rfl, rfl, rfl, rfl, rfl⟩

theorem storeThenLoad_valid (addr : BitVec 32) (t : ℕ) :
    validAt (storeThenLoad addr) t = decide (t < 7 ∧ t ≠ 2) := by
  unfold validAt storeThenLoad
  split
  · simp only [busCycle]
    symm
    exact decide_eq_true (by omega)
  · simp only [busCycle]
    congr 1
    exact propext (by omega)

/-- The CPU keeps its handshake when the acknowledgements come in cycles 1 and 6. -/
theorem storeThenLoad_held {addr : BitVec 32} {ready : ℕ → Bool}
    (h : ∀ t < 7, ready t = decide (t = 1 ∨ t = 6)) : Held (validAt (storeThenLoad addr)) ready := by
  constructor
  · intro t hv hr
    rw [storeThenLoad_valid, decide_eq_true_eq] at hv ⊢
    rw [h t hv.1, decide_eq_false_iff_not] at hr
    omega
  · intro t hv hr
    rw [storeThenLoad_valid, decide_eq_true_eq] at hv
    rw [storeThenLoad_valid, decide_eq_false_iff_not]
    rw [h t hv.1, decide_eq_true_eq] at hr
    omega

theorem lowWord_served_once : ServedOnce 12 resetCore (storeThenLoad 0x10000004) := by
  refine bus_adapter_serves_once (.inl rfl) (storeThenLoad_running _) ?_ fun t _ _ => ?_
  · exact storeThenLoad_held (by decide +kernel)
  · have haddr : (storeThenLoad 0x10000004 t).addr = 0x10000004 := by
      unfold storeThenLoad
      split <;> rfl
    rw [haddr]
    decide

/-- A store at byte 1024 of DMEM is dropped, and the load behind it returns an unknown word. -/
theorem aliasedWord_not_served : (∀ t, Running (storeThenLoad 0x10000400 t)) ∧
    Held (validAt (storeThenLoad 0x10000400)) (readyAt 12 resetCore (storeThenLoad 0x10000400)) ∧
      ¬ ServedOnce 12 resetCore (storeThenLoad 0x10000400) := by
  refine ⟨storeThenLoad_running _, storeThenLoad_held (by decide +kernel), fun h => ?_⟩
  have hbegins : Begins (validAt (storeThenLoad 0x10000400)) 3 := by decide +kernel
  have hduring : During (validAt (storeThenLoad 0x10000400)) 3 6 := by
    refine ⟨by omega, fun v h₁ h₂ => ?_⟩
    rw [storeThenLoad_valid, decide_eq_true_eq]
    omega
  have hload := h.loaded 3 hbegins (by decide) 6 hduring (by decide +kernel)
  have hnone : (coreTrace 12 resetCore (storeThenLoad 0x10000400) 6).bus.rdata = none := by decide +kernel
  rw [hnone] at hload
  cases hload

end Result

end MerlinV.Fabric
