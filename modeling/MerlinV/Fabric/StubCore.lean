import MerlinV.Fabric.Upload
import MerlinV.Lib.Cycles

/-! # The stub core

`rtl/merlin_core.v` with both memories, one function call per clock edge.  A memory returns the word
of the address that the edge before saw, and `imem_addr` and `dmem_addr` are registers themselves, so
that the core decodes the instruction of the `pc` before and loads from the address of the load
before.  The machine with these two delays is `delayStep`, and the core carries it out in two cycles
an instruction and in three a load.
-/
namespace MerlinV.Fabric.Stub

open Lib

/-- A signal of 32 bits, `none` when it has unknown bits. -/
abbrev Signal := Option (BitVec 32)

section Decode

variable (insn : BitVec 32)

def opcode : BitVec 7 := insn.extractLsb' 0 7
def rd : BitVec 5 := insn.extractLsb' 7 5
def f3 : BitVec 3 := insn.extractLsb' 12 3
def rs1 : BitVec 5 := insn.extractLsb' 15 5
def rs2 : BitVec 5 := insn.extractLsb' 20 5

def immI : BitVec 32 := (insn.extractLsb' 20 12).signExtend 32

def immB : BitVec 32 :=
  (insn.extractLsb' 31 1 ++ insn.extractLsb' 7 1 ++ insn.extractLsb' 25 6 ++ insn.extractLsb' 8 4 ++
    0#1).signExtend 32

end Decode

abbrev XReg := BitVec 5 → Signal

def XReg.write (x : XReg) (rd : BitVec 5) (v : Signal) : XReg := if rd = 0 then x else Function.update x rd v

def XReg.address (x : XReg) (insn : BitVec 32) : Signal := (x (rs1 insn)).map (· + immI insn)

/-- `f3 == 3'h0 && rs1_val == rs2_val`, which is not true when a bit is unknown. -/
def XReg.beq (x : XReg) (insn : BitVec 32) : Bool :=
  f3 insn = 0 && (x (rs1 insn)).isSome && x (rs1 insn) = x (rs2 insn)

def lowByte (v : BitVec 32) : BitVec 32 := (v.extractLsb' 0 8).setWidth 32

def sentinel : Signal := some 0xdeadbeef

/-- `state`; `unused` stands for the encoding without a name. -/
inductive State where
  | fetch | decode | loadWait | unused
  deriving DecidableEq, Repr

structure Core where
  state : State
  pc : Signal
  xreg : XReg
  dRd : BitVec 5
  imemAddr : Signal
  dmemAddr : Signal
  dmemWdata : BitVec 32
  dmemWstrb : BitVec 4
  dmemWe : Bool
  halted : Bool
  exitValue : Signal

section Clock

def Core.reset : Core where
  state := .fetch
  pc := some 0
  xreg := fun _ => some 0
  dRd := 0
  imemAddr := some 0
  dmemAddr := some 0
  dmemWdata := 0
  dmemWstrb := 0
  dmemWe := false
  halted := false
  exitValue := some 0

/-- `case (opcode)`.  An unknown opcode matches no label. -/
def Core.execute (s : Core) (imemRdata : Signal) : Core :=
  match imemRdata with
  | none => { s with halted := true, exitValue := sentinel }
  | some insn =>
    if opcode insn = 0x13 then
      { s with
        xreg := s.xreg.write (rd insn) (s.xreg.address insn)
        pc := s.pc.map (· + 4)
        state := .fetch }
    else if opcode insn = 0x03 then
      { s with dmemAddr := s.xreg.address insn, dRd := rd insn, state := .loadWait }
    else if opcode insn = 0x63 then
      { s with
        pc := if s.xreg.beq insn then s.pc.map (· + immB insn) else s.pc.map (· + 4)
        state := .fetch }
    else if opcode insn = 0x67 then
      let n := if s.xreg.address insn = some 0 then { s with halted := true, exitValue := s.xreg 10 }
        else { s with pc := s.xreg.address insn }
      { n with xreg := s.xreg.write (rd insn) (s.pc.map (· + 4)), state := .fetch }
    else { s with halted := true, exitValue := sentinel }

def Core.serve (s : Core) (imemRdata dmemRdata : Signal) : Core :=
  let d := { s with dmemWe := false }
  let n := match s.state with
    | .fetch => { d with imemAddr := s.pc, state := .decode }
    | .decode => d.execute imemRdata
    | .loadWait =>
      { d with xreg := s.xreg.write s.dRd (dmemRdata.map lowByte), pc := s.pc.map (· + 4), state := .fetch }
    | .unused => { d with state := .fetch }
  { n with xreg := Function.update n.xreg 0 (some 0) }

def Core.clock (s : Core) (rstN run : Bool) (imemRdata dmemRdata : Signal) : Core :=
  if !rstN then .reset
  else if !run then { s with state := .fetch, pc := some 0, imemAddr := some 0, halted := false }
  else if !s.halted then s.serve imemRdata dmemRdata
  else s

/-- The reset does not wait for a clock edge. -/
def Core.underReset (s : Core) (rstN : Bool) : Core := if !rstN then .reset else s

end Clock

structure Machine where
  core : Core
  imem : Mem
  dmem : Mem
  imemRdata : Signal
  dmemRdata : Signal

structure MachineInputs where
  rstN : Bool
  run : Bool
  imemPort : Port
  dmemPort : Port

def readPort (mem : Mem) (addr : Signal) : Signal := addr.bind (memRead mem)

def Machine.clock (m : Machine) (i : MachineInputs) : Machine :=
  let core := m.core.underReset i.rstN
  { core := core.clock i.rstN i.run m.imemRdata m.dmemRdata
    imem := i.imemPort.drive m.imem
    dmem :=
      if i.dmemPort.we then i.dmemPort.drive m.dmem
      else if core.dmemWe then
        match core.dmemAddr with
        | some a => coreWrite m.dmem a core.dmemWdata core.dmemWstrb
        | none => m.dmem
      else m.dmem
    imemRdata := readPort m.imem core.imemAddr
    dmemRdata := readPort m.dmem core.dmemAddr }

/-- A cycle with `run` high and nothing from the host. -/
def running : MachineInputs := ⟨true, true, ⟨false, 0, 0⟩, ⟨false, 0, 0⟩⟩

def Machine.tick (m : Machine) : Machine := m.clock running

def Machine.exit (m : Machine) : Option Signal := if m.core.halted then some m.core.exitValue else none

section Delay

/-- The state between two instructions: `prev` is the `pc` before, where the next instruction is, and
`lastLoad` the address of the load before, where the next load reads. -/
structure Delay where
  prev : Signal
  pc : Signal
  xreg : XReg
  lastLoad : Signal

def Delay.execute (dmem : Mem) (a : Delay) (insn : BitVec 32) : Timed Delay Signal :=
  let pc4 := a.pc.map (· + 4)
  if opcode insn = 0x13 then
    .next { a with prev := a.pc, pc := pc4, xreg := a.xreg.write (rd insn) (a.xreg.address insn) } 2
  else if opcode insn = 0x03 then
    .next ⟨a.pc, pc4, a.xreg.write (rd insn) ((readPort dmem a.lastLoad).map lowByte), a.xreg.address insn⟩ 3
  else if opcode insn = 0x63 then
    .next { a with prev := a.pc, pc := if a.xreg.beq insn then a.pc.map (· + immB insn) else pc4 } 2
  else if opcode insn = 0x67 then
    if a.xreg.address insn = some 0 then .halt (a.xreg 10) 2
    else .next { a with prev := a.pc, pc := a.xreg.address insn, xreg := a.xreg.write (rd insn) pc4 } 2
  else .halt sentinel 2

/-- One instruction of the machine with the two delays. -/
def delayStep (imem dmem : Mem) (a : Delay) : Timed Delay Signal :=
  match readPort imem a.prev with
  | none => .halt sentinel 2
  | some insn => a.execute dmem insn

/-- The first instruction is executed at `pc` 0 with `imem_addr` 0. -/
def Delay.start (xreg : XReg) (lastLoad : Signal) : Delay := ⟨some 0, some 0, xreg, lastLoad⟩

end Delay

section Refinement

variable {imem dmem : Mem} {m : Machine} {a : Delay}

/-- The machine is about to fetch, at the state `a`. -/
structure Fetching (imem dmem : Mem) (m : Machine) (a : Delay) : Prop where
  state : m.core.state = .fetch
  halted : m.core.halted = false
  idle : m.core.dmemWe = false
  zero : m.core.xreg 0 = some 0
  imem : m.imem = imem
  dmem : m.dmem = dmem
  abstracts : a = ⟨m.core.imemAddr, m.core.pc, m.core.xreg, m.core.dmemAddr⟩

theorem XReg.write_zero (x : XReg) (rd : BitVec 5) (v : Signal) : x.write rd v 0 = x 0 := by
  unfold XReg.write
  split
  · rfl
  · rename_i hrd
    exact Function.update_of_ne (Ne.symm hrd) _ _

/-- The last assignment of a cycle changes nothing. -/
theorem update_zero {x : XReg} (h : x 0 = some 0) : Function.update x 0 (some 0) = x := by
  rw [← h, Function.update_eq_self]

theorem tick_eq (hhalt : m.core.halted = false) (hwe : m.core.dmemWe = false) : m.tick =
    ⟨m.core.serve m.imemRdata m.dmemRdata, m.imem, m.dmem, readPort m.imem m.core.imemAddr,
      readPort m.dmem m.core.dmemAddr⟩ := by
  unfold Machine.tick Machine.clock Core.clock Core.underReset running Port.drive
  simp [hhalt, hwe]

def Machine.fetched (m : Machine) : Machine where
  core := { m.core with imemAddr := m.core.pc, state := .decode }
  imem := m.imem
  dmem := m.dmem
  imemRdata := readPort m.imem m.core.imemAddr
  dmemRdata := readPort m.dmem m.core.dmemAddr

theorem Fetching.tick (h : Fetching imem dmem m a) : m.tick = m.fetched := by
  rw [tick_eq h.halted h.idle, Core.serve, h.state]
  unfold Machine.fetched
  simp only [update_zero h.zero, h.idle]

theorem execute_xreg_zero (s : Core) (r : Signal) : (s.execute r).xreg 0 = s.xreg 0 := by
  unfold Core.execute
  split
  · rfl
  · dsimp only
    split_ifs <;> first | exact XReg.write_zero .. | rfl

theorem Fetching.tick_tick (h : Fetching imem dmem m a) : m.tick.tick =
    ⟨m.fetched.core.execute (readPort imem a.prev), imem, dmem, readPort imem a.pc, readPort dmem a.lastLoad⟩ := by
  obtain ⟨hstate, hhalt, hwe, hzero, rfl, rfl, rfl⟩ := h
  have hfetch := Fetching.tick ⟨hstate, hhalt, hwe, hzero, rfl, rfl, rfl⟩
  have hsame : { m.fetched.core with dmemWe := false } = m.fetched.core := by
    unfold Machine.fetched
    simp [hwe]
  have hx : (m.fetched.core.execute m.fetched.imemRdata).xreg 0 = some 0 := by
    rw [execute_xreg_zero]
    exact hzero
  rw [hfetch, @tick_eq m.fetched hhalt hwe, Core.serve, hsame]
  change Machine.mk { m.fetched.core.execute m.fetched.imemRdata with
    xreg := Function.update (m.fetched.core.execute m.fetched.imemRdata).xreg 0 (some 0) } .. = _
  rw [update_zero hx]
  rfl

/-- What the core does for a step of the machine with the delays. -/
def Carries (imem dmem : Mem) (m : Machine) : Timed Delay Signal → Prop
  | .halt v c => c = 2 ∧ m.tick.tick.exit = some v
  | .next a c =>
    c = 2 ∧ Fetching imem dmem m.tick.tick a ∨
      c = 3 ∧ m.tick.tick.exit = none ∧ Fetching imem dmem m.tick.tick.tick a

theorem carries_load (h : Fetching imem dmem m a) {insn : BitVec 32} (hread : readPort imem a.prev = some insn)
    (hop : opcode insn = 0x03) : m.tick.tick.exit = none ∧ Fetching imem dmem m.tick.tick.tick
      ⟨a.pc, a.pc.map (· + 4), a.xreg.write (rd insn) ((readPort dmem a.lastLoad).map lowByte),
        a.xreg.address insn⟩ := by
  obtain ⟨hstate, hhalt, hwe, hzero, rfl, rfl, rfl⟩ := h
  have htwo := Fetching.tick_tick ⟨hstate, hhalt, hwe, hzero, rfl, rfl, rfl⟩
  have hne : ¬ opcode insn = 0x13 := by rw [hop]; decide
  rw [hread, Core.execute, if_neg hne, if_pos hop] at htwo
  have hhalt2 : m.tick.tick.core.halted = false := by rw [htwo]; exact hhalt
  have hwe2 : m.tick.tick.core.dmemWe = false := by rw [htwo]; exact hwe
  refine ⟨by rw [Machine.exit, hhalt2]; rfl, ?_⟩
  have hxzero : (m.core.xreg.write (rd insn) ((readPort m.dmem m.core.dmemAddr).map lowByte)) 0 = some 0 :=
    (XReg.write_zero ..).trans hzero
  rw [tick_eq hhalt2 hwe2, htwo]
  simp only [Core.serve, Machine.fetched]
  exact ⟨rfl, hhalt, rfl, by simp, rfl, rfl, by rw [update_zero hxzero]⟩

/-- The core carries out one step of the machine with the delays. -/
theorem Fetching.carries (h : Fetching imem dmem m a) : Carries imem dmem m (delayStep imem dmem a) := by
  have htwo := h.tick_tick
  cases hread : readPort imem a.prev with
  | none =>
    rw [delayStep, hread]
    rw [hread] at htwo
    exact ⟨rfl, by rw [htwo]; rfl⟩
  | some insn =>
    rw [delayStep, hread]
    have hload := carries_load h hread
    rw [hread] at htwo
    obtain ⟨hstate, hhalt, hwe, hzero, rfl, rfl, rfl⟩ := h
    simp only [Delay.execute]
    simp only [Core.execute] at htwo
    by_cases haddi : opcode insn = 0x13
    · rw [if_pos haddi]
      rw [if_pos haddi] at htwo
      refine .inl ⟨rfl, ?_⟩
      rw [htwo]
      exact ⟨rfl, hhalt, hwe, (XReg.write_zero ..).trans hzero, rfl, rfl, rfl⟩
    rw [if_neg haddi]
    rw [if_neg haddi] at htwo
    by_cases hlbu : opcode insn = 0x03
    · rw [if_pos hlbu]
      exact .inr ⟨rfl, hload hlbu⟩
    rw [if_neg hlbu]
    rw [if_neg hlbu] at htwo
    by_cases hbeq : opcode insn = 0x63
    · rw [if_pos hbeq]
      rw [if_pos hbeq] at htwo
      refine .inl ⟨rfl, ?_⟩
      rw [htwo]
      exact ⟨rfl, hhalt, hwe, hzero, rfl, rfl, rfl⟩
    rw [if_neg hbeq]
    rw [if_neg hbeq] at htwo
    by_cases hjalr : opcode insn = 0x67
    · rw [if_pos hjalr]
      rw [if_pos hjalr] at htwo
      by_cases hret : m.core.xreg.address insn = some 0
      · have hret' : m.fetched.core.xreg.address insn = some 0 := hret
        rw [if_pos hret]
        rw [if_pos hret'] at htwo
        exact ⟨rfl, by rw [htwo]; rfl⟩
      · have hret' : ¬ m.fetched.core.xreg.address insn = some 0 := hret
        rw [if_neg hret]
        rw [if_neg hret'] at htwo
        refine .inl ⟨rfl, ?_⟩
        rw [htwo]
        exact ⟨rfl, hhalt, hwe, (XReg.write_zero ..).trans hzero, rfl, rfl, rfl⟩
    rw [if_neg hjalr]
    rw [if_neg hjalr] at htwo
    exact ⟨rfl, by rw [htwo]; rfl⟩

theorem Fetching.exit (h : Fetching imem dmem m a) : m.exit = none := by
  rw [Machine.exit, h.halted]
  rfl

theorem Fetching.tick_exit (h : Fetching imem dmem m a) : m.tick.exit = none := by
  rw [h.tick, Machine.exit]
  change (if m.core.halted then _ else _) = _
  rw [h.halted]
  rfl

theorem exit_tick {v : Signal} (h : m.exit = some v) : m.tick.exit = some v := by
  unfold Machine.exit at h ⊢
  cases hhalt : m.core.halted with
  | false =>
    rw [hhalt] at h
    cases h
  | true =>
    rw [hhalt] at h
    have hcore : m.tick.core = m.core := by
      unfold Machine.tick Machine.clock Core.clock Core.underReset running
      simp [hhalt]
    rw [hcore, hhalt, ← h]

theorem delayStep_cost (imem dmem : Mem) (a : Delay) :
    0 < (delayStep imem dmem a).cost ∧ (delayStep imem dmem a).cost ≤ 3 := by
  unfold delayStep
  split
  · exact ⟨Nat.succ_pos _, by decide⟩
  · unfold Delay.execute
    dsimp only
    split_ifs <;> exact ⟨Nat.succ_pos _, by simp [Timed.cost]⟩

/-- The core is a clocked version of the machine with the two delays. -/
theorem clocked (imem dmem : Mem) :
    Clocked Machine.tick Machine.exit (delayStep imem dmem) (Fetching imem dmem) where
  stays := exit_tick
  busy := by
    intro m a h k hk
    have hcarries := h.carries
    match k with
    | 0 => exact h.exit
    | 1 => exact h.tick_exit
    | k + 2 =>
      cases hstep : delayStep imem dmem a with
      | halt v c =>
        rw [hstep] at hcarries hk
        obtain ⟨rfl, -⟩ := hcarries
        exact absurd hk (by simp [Timed.cost])
      | next a' c =>
        rw [hstep] at hcarries hk
        rcases hcarries with ⟨rfl, -⟩ | ⟨rfl, hexit, -⟩
        · exact absurd hk (by simp [Timed.cost])
        · obtain rfl : k = 0 := by
            rw [Timed.cost] at hk
            omega
          exact hexit
  halt := by
    intro m a v c h hstep
    have hcarries := h.carries
    rw [hstep] at hcarries
    obtain ⟨rfl, hexit⟩ := hcarries
    exact hexit
  next := by
    intro m a a' c h hstep
    have hcarries := h.carries
    rw [hstep] at hcarries
    rcases hcarries with ⟨rfl, hfetch⟩ | ⟨rfl, -, hfetch⟩
    · exact hfetch
    · exact hfetch

/-- The core has halted `t` cycles after a fetch exactly when the machine with the two delays stops
at a price of at most `t`, and the exit values are the same. -/
theorem tick_exit_iff (h : Fetching imem dmem m a) (t : ℕ) (v : Signal) :
    (Machine.tick^[t] m).exit = some v ↔ ∃ n ≤ t, HaltsAt (delayStep imem dmem) a n v :=
  (clocked imem dmem).done_iff (fun b => (delayStep_cost imem dmem b).1) h t

/-- `addi a0, x0, 42` and `ret`; the first instruction is executed twice. -/
def hello : Mem := fun k => [0x02a00513, 0x8067].getD k.val 0

theorem hello_exit : (Machine.tick^[6] ⟨.reset, hello, fun _ => 0, none, none⟩).exit = some (some 42) := by
  have hfetch : Fetching hello (fun _ => 0) ⟨.reset, hello, fun _ => 0, none, none⟩
      (.start (fun _ => some 0) (some 0)) := ⟨rfl, rfl, rfl, rfl, rfl, rfl, rfl⟩
  exact (tick_exit_iff hfetch 6 (some 42)).mpr ⟨6, le_rfl, 3, by decide +kernel⟩

/-- The classifier of the test bench. -/
def classifier : Mem := fun k =>
  [0x00c54583, 0x00800613, 0x00c58463, 0x00100513, 0x00008067, 0x00200513, 0x00008067].getD k.val 0

-- the branch over 8 bytes gets to the instruction behind the return
example : timedRun (delayStep classifier fun k => if k.val = 3 then 8 else 0) 7
    (.start (fun _ => some 0) (some 0)) = some (16, some 2) := by decide +kernel

example : timedRun (delayStep classifier fun _ => 0) 7 (.start (fun _ => some 0) (some 0)) =
    some (14, some 1) := by decide +kernel

end Refinement

end MerlinV.Fabric.Stub
