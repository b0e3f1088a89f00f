import MerlinV.Fabric.StubCore

/-! # The fabric with the stub core

`merlin_top.v` with the registers of the core, and `run_and_wait` of `host/merlin-fabric-load.c` as the
accesses that it makes.  The result that the host reads is a function of the writes that the slave
accepted: the two memories that they fill, and the machine with the two delays on them.
-/
namespace MerlinV.Fabric

open Lib

structure System where
  axi : Regs
  machine : Stub.Machine

/-- The inputs of a cycle: the bus, and what an unknown exit value is read as.  The status of the core
that stands in `bus` is not used. -/
structure SystemInputs where
  bus : Inputs
  unknown : BitVec 32

namespace System

def coreRstN (s : System) (i : SystemInputs) : Bool := i.bus.rstN && s.axi.coreRstN

def core (s : System) (i : SystemInputs) : Stub.Core := s.machine.core.underReset (s.coreRstN i)

def bus (s : System) (i : SystemInputs) : Inputs :=
  { i.bus with
    coreHalted := (s.core i).halted
    coreRunning := s.axi.coreRun && !(s.core i).halted
    coreExitValue := (s.core i).exitValue.getD i.unknown }

def coreInputs (s : System) (i : SystemInputs) : Stub.MachineInputs :=
  ⟨s.coreRstN i, s.axi.coreRun, s.axi.port .imem, s.axi.port .dmem⟩

def clock (s : System) (i : SystemInputs) : System :=
  ⟨Fabric.clock s.axi (s.bus i), s.machine.clock (s.coreInputs i)⟩

def trace (s : System) (ins : ℕ → SystemInputs) : ℕ → System
  | 0 => s
  | t + 1 => (trace s ins t).clock (ins t)

def busTrace (s : System) (ins : ℕ → SystemInputs) (t : ℕ) : Inputs := (s.trace ins t).bus (ins t)

def writes (s : System) (ins : ℕ → SystemInputs) (t : ℕ) : List (BitVec 12 × BitVec 32) :=
  acceptedWrites s.axi (s.busTrace ins) t

/-- The system without the core, but for its write enable. -/
def top (s : System) : Top := ⟨s.axi, s.machine.imem, s.machine.dmem, s.machine.core.dmemWe⟩

/-- What the core drives in a cycle. -/
def topInputs (s : System) (ins : ℕ → SystemInputs) (t : ℕ) : TopInputs :=
  let c := (s.trace ins t).core (ins t)
  ⟨s.busTrace ins t, c.dmemAddr.getD 0, c.dmemWdata, c.dmemWstrb⟩

section Projection

variable {s : System} {ins : ℕ → SystemInputs}

theorem execute_dmemWe (c : Stub.Core) (r : Stub.Signal) : (c.execute r).dmemWe = c.dmemWe := by
  unfold Stub.Core.execute
  split
  · rfl
  · dsimp only
    split_ifs <;> rfl

theorem core_clock_dmemWe {c : Stub.Core} (h : c.dmemWe = false) (rstN run : Bool) (ir dr : Stub.Signal) :
    (c.clock rstN run ir dr).dmemWe = false := by
  unfold Stub.Core.clock Stub.Core.serve
  split_ifs
  · rfl
  · exact h
  · cases c.state with
    | decode => exact (execute_dmemWe ..).trans rfl
    | fetch => rfl
    | loadWait => rfl
    | unused => rfl
  · exact h

theorem core_dmemWe (h : s.machine.core.dmemWe = false) (i : SystemInputs) : (s.core i).dmemWe = false := by
  unfold core Stub.Core.underReset
  split_ifs
  · rfl
  · exact h

theorem clock_dmemWe (h : s.machine.core.dmemWe = false) (i : SystemInputs) :
    (s.clock i).machine.core.dmemWe = false :=
  core_clock_dmemWe (core_dmemWe h i) _ _ _ _

theorem trace_dmemWe (h : s.machine.core.dmemWe = false) (t : ℕ) :
    (s.trace ins t).machine.core.dmemWe = false := by
  induction t with
  | zero => exact h
  | succ t ih => exact clock_dmemWe ih _

/-- The memories of a cycle without a write of the core. -/
theorem clock_dmem (h : s.machine.core.dmemWe = false) (i : SystemInputs) :
    (s.clock i).machine.dmem = (s.axi.port .dmem).drive s.machine.dmem := by
  have hcore := core_dmemWe h i
  unfold core at hcore
  unfold clock Stub.Machine.clock coreInputs Port.drive
  simp only [hcore, Bool.false_eq_true, if_false]
  split <;> rfl

/-- The system refines the top level in which the core is an input. -/
theorem trace_top (h : s.machine.core.dmemWe = false) (t : ℕ) :
    (s.trace ins t).top = topTrace s.top (s.topInputs ins) t := by
  induction t with
  | zero => rfl
  | succ t ih =>
    have hwe := @trace_dmemWe s ins h t
    have hdmem := clock_dmem hwe (ins t)
    have hnext := clock_dmemWe hwe (ins t)
    rw [topTrace, ← ih]
    unfold topClock
    rw [top, trace, hdmem, hnext]
    have hcoreWe : (s.trace ins t).top.coreWe = false := hwe
    refine Top.mk.injEq .. ▸ ⟨rfl, rfl, ?_, ?_⟩
    · unfold Port.drive
      rw [hcoreWe]
      simp only [Bool.false_eq_true, if_false]
      change (if ((s.trace ins t).axi.port .dmem).we then _ else _) =
        if ((s.trace ins t).axi.port .dmem).we then if ((s.trace ins t).axi.port .dmem).we then _ else _ else _
      split_ifs <;> rfl
    · rw [hcoreWe, coreDmemWe]
      split_ifs <;> rfl

theorem busInputs_top (h : s.machine.core.dmemWe = false) (t : ℕ) :
    busInputs s.top (s.topInputs ins) t = s.busTrace ins t := by
  unfold busInputs
  rw [← trace_top h t]
  rfl

def AfterReset (s : System) : Prop :=
  ∃ (s₀ : System) (ins : ℕ → SystemInputs) (t : ℕ), (ins 0).bus.rstN = false ∧ s = s₀.trace ins (t + 1)

theorem trace_add (t u : ℕ) : s.trace ins (t + u) = (s.trace ins t).trace (fun v => ins (t + v)) u := by
  induction u with
  | zero => rfl
  | succ u ih => rw [← Nat.add_assoc, trace, ih, trace]

theorem AfterReset.dmemWe (h : AfterReset s) : s.machine.core.dmemWe = false := by
  obtain ⟨s₀, ins, t, hrst, rfl⟩ := h
  rw [Nat.add_comm, trace_add]
  apply trace_dmemWe
  have hcore : s₀.coreRstN (ins 0) = false := by rw [coreRstN, hrst, Bool.false_and]
  change ((s₀.core (ins 0)).clock (s₀.coreRstN (ins 0)) _ _ _).dmemWe = false
  rw [hcore]
  rfl

/-- A bank after a run is the image of the accepted writes. -/
theorem trace_image (hs : AfterReset s) (hrst : ∀ t, (ins t).bus.rstN = true) (b : Bank) (t : ℕ) :
    (s.trace ins t).top.image b = (s.writes ins t).foldl (Image.write b) (s.top.image b) := by
  have hbus : busInputs s.top (s.topInputs ins) = s.busTrace ins := funext (busInputs_top hs.dmemWe)
  rw [trace_top hs.dmemWe, topTrace_image hs.dmemWe hrst, hbus]
  rfl

end Projection

section Run

variable {s : System} {ins : ℕ → SystemInputs} {t : ℕ}

theorem trace_axi (s : System) (ins : ℕ → SystemInputs) (t : ℕ) :
    (s.trace ins t).axi = Fabric.trace s.axi (s.busTrace ins) t := by
  induction t with
  | zero => rfl
  | succ t ih =>
    rw [Fabric.trace, ← ih]
    rfl

theorem writes_succ (s : System) (ins : ℕ → SystemInputs) (t : ℕ) : s.writes ins (t + 1) =
    s.writes ins t ++ if writeFire (s.trace ins t).axi (s.busTrace ins t) then
      [((ins t).bus.awaddr, (ins t).bus.wdata)] else [] := by
  rw [writes, acceptedWrites, trace_axi]
  rfl

theorem writes_succ_cases {ws : List (BitVec 12 × BitVec 32)} {w : BitVec 12 × BitVec 32}
    (h : s.writes ins (t + 1) = ws ++ [w]) :
    (writeFire (s.trace ins t).axi (s.busTrace ins t) = false ∧ s.writes ins t = ws ++ [w]) ∨
    (writeFire (s.trace ins t).axi (s.busTrace ins t) = true ∧ s.writes ins t = ws ∧
      ((ins t).bus.awaddr, (ins t).bus.wdata) = w) := by
  rw [writes_succ] at h
  cases hfire : writeFire (s.trace ins t).axi (s.busTrace ins t) with
  | false =>
    rw [hfire] at h
    exact .inl ⟨rfl, by simpa using h⟩
  | true =>
    rw [hfire] at h
    obtain ⟨hws, hw⟩ := List.append_inj' h rfl
    exact .inr ⟨rfl, hws, by simpa using hw⟩

theorem trace_ctrl_write (hrst : ∀ t, (ins t).bus.rstN = true) {ws : List (BitVec 12 × BitVec 32)} {v : BitVec 32}
    (h : s.writes ins t = ws ++ [(0, v)]) :
    (s.trace ins t).axi.coreRun = v.getLsbD 0 ∧ (s.trace ins t).axi.coreRstN = !v.getLsbD 1 := by
  have hctrl : (s.trace ins t).axi.ctrl = (s.writes ins t).foldl CtrlRegs.write s.axi.ctrl := by
    rw [trace_axi]
    exact @Fabric.trace_ctrl s.axi (s.busTrace ins) (fun u => hrst u) t
  rw [h, List.foldl_append] at hctrl
  exact ⟨congrArg CtrlRegs.coreRun hctrl, congrArg CtrlRegs.coreRstN hctrl⟩

/-- The writes of `run_and_wait`: reset, release and start. -/
def resetAndRun : List (BitVec 12 × BitVec 32) := [(0, 2), (0, 0), (0, 1)]

theorem core_of_release (hrst : ∀ t, (ins t).bus.rstN = true) {ws : List (BitVec 12 × BitVec 32)}
    (h : s.writes ins t = ws ++ [(0, 2), (0, 0)]) : (s.trace ins t).machine.core = .reset := by
  have hlist : ws ++ [((0 : BitVec 12), (2 : BitVec 32)), (0, 0)] = ws ++ [(0, 2)] ++ [(0, 0)] := by simp
  rw [hlist] at h
  induction t with
  | zero => simp [writes, acceptedWrites] at h
  | succ t ih =>
    have hclock : (s.trace ins (t + 1)).machine.core = ((s.trace ins t).core (ins t)).clock
      ((s.trace ins t).coreRstN (ins t)) (s.trace ins t).axi.coreRun (s.trace ins t).machine.imemRdata
      (s.trace ins t).machine.dmemRdata := rfl
    rw [hclock, core, coreRstN, hrst t, Bool.true_and]
    rcases writes_succ_cases h with ⟨-, hws⟩ | ⟨-, hws, -⟩
    · obtain ⟨hrun, hreset⟩ := trace_ctrl_write hrst hws
      rw [ih hws, hrun, hreset]
      rfl
    · obtain ⟨-, hreset⟩ := trace_ctrl_write hrst hws
      rw [hreset]
      rfl

/-- The host has started the core in cycle `T`, behind the writes `ws`, and writes nothing from there to
cycle `t`. -/
structure Started (s : System) (ins : ℕ → SystemInputs) (ws : List (BitVec 12 × BitVec 32)) (T t : ℕ) :
    Prop where
  released : ∀ u, (ins u).bus.rstN = true
  before : s.writes ins T = ws ++ [(0, 2), (0, 0)]
  start : s.writes ins (T + 1) = ws ++ resetAndRun
  quiet : ∀ u, T < u → u < t → writeFire (s.trace ins u).axi (s.busTrace ins u) = false

variable {ws : List (BitVec 12 × BitVec 32)} {T u : ℕ}

theorem Started.fire (h : Started s ins ws T t) : writeFire (s.trace ins T).axi (s.busTrace ins T) = true ∧
    (ins T).bus.awaddr = 0 := by
  have hlist : s.writes ins (T + 1) = ws ++ [(0, 2), (0, 0)] ++ [(0, 1)] := by
    rw [h.start, resetAndRun]
    simp
  rcases writes_succ_cases hlist with ⟨-, hws⟩ | ⟨hfire, -, hw⟩
  · have hlen := congrArg List.length (hws.symm.trans h.before)
    simp at hlen
  · exact ⟨hfire, congrArg Prod.fst hw⟩

theorem Started.writes_eq (h : Started s ins ws T t) (hu : T + 1 + u ≤ t) :
    s.writes ins (T + 1 + u) = ws ++ resetAndRun := by
  induction u with
  | zero => exact h.start
  | succ u ih =>
    rw [← Nat.add_assoc, writes_succ, h.quiet _ (by omega) (by omega), ih (by omega)]
    simp

/-- From the start on the core runs and the ports of the memories are idle. -/
theorem Started.inputs (h : Started s ins ws T t) (hu : T + 1 + u ≤ t) :
    (s.trace ins (T + 1 + u)).axi.coreRun = true ∧ (s.trace ins (T + 1 + u)).axi.coreRstN = true ∧
    ∀ b, ((s.trace ins (T + 1 + u)).axi.port b).we = false := by
  have hwrites := h.writes_eq hu
  have hlist : ws ++ resetAndRun = ws ++ [(0, 2), (0, 0)] ++ [(0, 1)] := by
    rw [resetAndRun]
    simp
  obtain ⟨hrun, hreset⟩ := trace_ctrl_write h.released (hwrites.trans hlist)
  refine ⟨hrun, hreset, fun b => ?_⟩
  have hport : ∀ v, ((s.trace ins (v + 1)).axi.port b) = _ :=
    fun v => @clock_port (s.trace ins v).axi (s.busTrace ins v) (h.released v) b
  cases u with
  | zero =>
    have hreg : ¬ (s.busTrace ins T).wreg = b.wdataReg := by
      have hzero : (s.busTrace ins T).wreg = 0 := by
        change ((ins T).bus.awaddr.extractLsb' 0 8).toNat = 0
        rw [h.fire.2]
        rfl
      rw [hzero]
      cases b <;> decide
    rw [hport T, if_neg fun hfire => hreg hfire.2]
  | succ u =>
    have hquiet := h.quiet (T + 1 + u) (by omega) (by omega)
    rw [← Nat.add_assoc, hport (T + 1 + u), hquiet]
    simp

theorem clock_eq_tick {i : SystemInputs} (hreset : s.coreRstN i = true) (hrun : s.axi.coreRun = true)
    (hport : ∀ b, (s.axi.port b).we = false) : (s.clock i).machine = s.machine.tick := by
  unfold clock coreInputs Stub.Machine.tick Stub.Machine.clock Stub.running Port.drive
  simp only [hreset, hrun, hport]
  rfl

theorem Started.machine (h : Started s ins ws T t) (hu : T + 1 + u ≤ t) :
    (s.trace ins (T + 1 + u)).machine = Stub.Machine.tick^[u] (s.trace ins (T + 1)).machine := by
  induction u with
  | zero => rfl
  | succ u ih =>
    obtain ⟨hrun, hreset, hport⟩ := h.inputs (u := u) (by omega)
    have hrstN : (s.trace ins (T + 1 + u)).coreRstN (ins (T + 1 + u)) = true := by
      rw [coreRstN, h.released, hreset]
      rfl
    rw [← Nat.add_assoc, trace, clock_eq_tick hrstN hrun hport, ih (by omega), Function.iterate_succ_apply']

/-- The memory that the writes `ws` leave. -/
def memAfter (s : System) (ws : List (BitVec 12 × BitVec 32)) (b : Bank) : Mem :=
  (ws.foldl (Image.write b) (s.top.image b)).mem

theorem write_ctrl (b : Bank) (l : Image) (v : BitVec 32) : l.write b (0, v) = l := by
  cases b <;> rfl

theorem foldl_resetAndRun (b : Bank) (l : Image) : resetAndRun.foldl (Image.write b) l = l := by
  simp only [resetAndRun, List.foldl_cons, List.foldl_nil, write_ctrl]

/-- The core starts with cleared registers on the memories that the host has filled. -/
theorem Started.fetching (hs : AfterReset s) (h : Started s ins ws T t) (ht : T < t) :
    Stub.Fetching (s.memAfter ws .imem) (s.memAfter ws .dmem) (s.trace ins (T + 1)).machine
      (.start (fun _ => some 0) (some 0)) := by
  have hlist : ws ++ [((0 : BitVec 12), (2 : BitVec 32)), (0, 0)] = ws ++ [(0, 2)] ++ [(0, 0)] := by simp
  obtain ⟨hrun, hreset⟩ := trace_ctrl_write h.released (h.before.trans hlist)
  have hcore : (s.trace ins (T + 1)).machine.core = .reset := by
    change ((s.trace ins T).core (ins T)).clock ((s.trace ins T).coreRstN (ins T))
      (s.trace ins T).axi.coreRun _ _ = _
    rw [core, core_of_release h.released h.before, coreRstN, h.released T, hreset, hrun]
    rfl
  have hmem : ∀ b, (s.trace ins (T + 1)).top.mem b = s.memAfter ws b := by
    intro b
    have himage := congrArg Image.mem (trace_image hs h.released b (T + 1))
    rw [h.start, List.foldl_append, foldl_resetAndRun] at himage
    rw [memAfter, ← himage]
    change _ = ((s.trace ins (T + 1)).axi.port b).drive ((s.trace ins (T + 1)).top.mem b)
    rw [Port.drive, (h.inputs (u := 0) (by omega)).2.2 b]
    rfl
  refine ⟨by rw [hcore]; rfl, by rw [hcore]; rfl, by rw [hcore]; rfl, by rw [hcore]; rfl, hmem .imem, hmem .dmem,
    by rw [hcore]; rfl⟩

/-- The core stops with `v` in cycle `n` of a run on the memories that `ws` leaves. -/
def Result (s : System) (ws : List (BitVec 12 × BitVec 32)) (n : ℕ) (v : Stub.Signal) : Prop :=
  HaltsAt (Stub.delayStep (s.memAfter ws .imem) (s.memAfter ws .dmem)) (.start (fun _ => some 0) (some 0)) n v

theorem Started.core_eq (h : Started s ins ws T t) (ht : T < t) :
    (s.trace ins t).core (ins t) = (s.trace ins t).machine.core := by
  obtain ⟨u, rfl⟩ := Nat.exists_eq_add_of_le (Nat.succ_le_of_lt ht)
  rw [core, coreRstN, h.released, (h.inputs le_rfl).2.1]
  rfl

/-- The core has stopped in cycle `t` of the run exactly when its program stops by then. -/
theorem Started.exit_iff (hs : AfterReset s) (h : Started s ins ws T t) (ht : T < t) (v : Stub.Signal) :
    (s.trace ins t).machine.exit = some v ↔ ∃ n ≤ t - (T + 1), s.Result ws n v := by
  obtain ⟨u, rfl⟩ := Nat.exists_eq_add_of_le (Nat.succ_le_of_lt ht)
  rw [h.machine le_rfl, Stub.tick_exit_iff (h.fetching hs ht), Nat.add_sub_cancel_left]
  rfl

/-- A read returns what its register holds in the cycle of the acceptance. -/
theorem trace_rdata (hrst : ∀ u, (ins u).bus.rstN = true)
    (hread : readFire (s.trace ins t).axi (s.busTrace ins t) = true) :
    (s.trace ins (t + 1)).axi.rdata = readReg (s.trace ins t).axi (s.busTrace ins t) := by
  have hclock := (@clock_read (s.trace ins t).axi (s.busTrace ins t) (hrst t)).2.2
  rw [if_pos hread] at hclock
  exact hclock

theorem status_bit (running halted : Bool) :
    (BitVec.ofNat 32 (running.toNat * 2 + halted.toNat)).getLsbD 0 = halted := by
  cases running <;> cases halted <;> rfl

theorem Started.status (h : Started s ins ws T t) (ht : T < t)
    (hread : readFire (s.trace ins t).axi (s.busTrace ins t) = true) (haddr : (ins t).bus.rreg = 0x04) :
    (s.trace ins (t + 1)).axi.rdata.getLsbD 0 = (s.trace ins t).machine.core.halted := by
  have hreg : (s.busTrace ins t).rreg = 0x04 := haddr
  rw [trace_rdata h.released hread, readReg, hreg]
  change (BitVec.ofNat 32 _).getLsbD 0 = _
  rw [status_bit]
  change ((s.trace ins t).core (ins t)).halted = _
  rw [h.core_eq ht]

theorem Started.exitValue (h : Started s ins ws T t) (ht : T < t)
    (hread : readFire (s.trace ins t).axi (s.busTrace ins t) = true) (haddr : (ins t).bus.rreg = 0x08) :
    (s.trace ins (t + 1)).axi.rdata = (s.trace ins t).machine.core.exitValue.getD (ins t).unknown := by
  have hreg : (s.busTrace ins t).rreg = 0x08 := haddr
  rw [trace_rdata h.released hread, readReg, hreg]
  change ((s.trace ins t).core (ins t)).exitValue.getD (ins t).unknown = _
  rw [h.core_eq ht]

theorem exit_eq_some_iff {m : Stub.Machine} {v : Stub.Signal} :
    m.exit = some v ↔ m.core.halted = true ∧ m.core.exitValue = v := by
  unfold Stub.Machine.exit
  split_ifs with h <;> simp [h]

/-- What `run_and_wait` reads.  `STATUS` has bit 0 exactly from the cycle on in which the program has
stopped, and `EXIT` holds its exit value from there on: a function of the accepted writes and of the
memories as the reset left them, whatever the timing. -/
theorem run_and_wait_reads (hs : AfterReset s) (h : Started s ins ws T t) (ht : T < t)
    (hread : readFire (s.trace ins t).axi (s.busTrace ins t) = true) :
    ((ins t).bus.rreg = 0x04 → ((s.trace ins (t + 1)).axi.rdata.getLsbD 0 = true ↔
      ∃ n v, n ≤ t - (T + 1) ∧ s.Result ws n v)) ∧
    ((ins t).bus.rreg = 0x08 → ∀ n v, n ≤ t - (T + 1) → s.Result ws n v →
      (s.trace ins (t + 1)).axi.rdata = v.getD (ins t).unknown) := by
  constructor
  · intro haddr
    rw [h.status ht hread haddr]
    constructor
    · intro hhalt
      obtain ⟨n, hn, hres⟩ := (h.exit_iff hs ht _).mp (exit_eq_some_iff.mpr ⟨hhalt, rfl⟩)
      exact ⟨n, _, hn, hres⟩
    · rintro ⟨n, v, hn, hres⟩
      exact (exit_eq_some_iff.mp ((h.exit_iff hs ht v).mpr ⟨n, hn, hres⟩)).1
  · intro haddr n v hn hres
    rw [h.exitValue ht hread haddr, (exit_eq_some_iff.mp ((h.exit_iff hs ht v).mpr ⟨n, hn, hres⟩)).2]

end Run

section Session

variable {s : System} {ins : ℕ → SystemInputs} {t T : ℕ} {b : Bank}

/-- The writes for one frame: its upload and its run. -/
def frame (ctx : Bytes) : List (BitVec 12 × BitVec 32) := uploadCtx ctx ++ resetAndRun

/-- The writes of `main` before a run for `ctx`, with the frames that came before. -/
def session (text : Bytes) (before : List Bytes) (ctx : Bytes) : List (BitVec 12 × BitVec 32) :=
  uploadText text ++ before.flatMap frame ++ uploadCtx ctx

def upload (b : Bank) (ws : List (BitVec 32)) : List (BitVec 12 × BitVec 32) :=
  (b.wselAddr, 0) :: ws.map fun w => (b.wdataAddr, w)

theorem uploadText_upload (text : Bytes) : uploadText text = upload .imem (fullWords text) := rfl

theorem uploadCtx_upload (ctx : Bytes) : uploadCtx ctx = upload .dmem (ctxWords ctx) := uploadCtx_eq ctx

theorem foldl_upload {ws : List (BitVec 32)} (hfit : ws.length ≤ memWords) (l : Image) :
    ((upload b ws).foldl (Image.write b) l).mem = fun j => ws.getD j.val (l.mem j) := by
  funext j
  have hfold := foldl_wdata (b := b) ws (k := 0) l.mem (by omega) j
  rw [if_pos (Nat.zero_le _), Nat.sub_zero] at hfold
  rw [upload, List.foldl_cons, write_wsel]
  exact hfold

theorem foldl_upload_other {c : Bank} (hne : c ≠ b) (ws : List (BitVec 32)) (l : Image) :
    (upload c ws).foldl (Image.write b) l = l := by
  have hstay : ∀ (addr : BitVec 12), addr = c.wselAddr ∨ addr = c.wdataAddr → ∀ (l : Image) v,
      l.write b (addr, v) = l := by
    rintro addr (rfl | rfl) l v
    · cases b <;> cases c <;> first | exact absurd rfl hne | rfl
    · cases b <;> cases c <;> first | exact absurd rfl hne | rfl
  rw [upload, List.foldl_cons, hstay _ (.inl rfl)]
  induction ws with
  | nil => rfl
  | cons w ws ih =>
    rw [List.map_cons, List.foldl_cons, hstay _ (.inr rfl)]
    exact ih

theorem foldl_frame_imem (ctx : Bytes) (l : Image) : (frame ctx).foldl (Image.write .imem) l = l := by
  rw [frame, List.foldl_append, foldl_resetAndRun, uploadCtx_upload, foldl_upload_other (by decide)]

theorem foldl_frames_imem (before : List Bytes) (l : Image) :
    (before.flatMap frame).foldl (Image.write .imem) l = l := by
  induction before with
  | nil => rfl
  | cons c before ih => rw [List.flatMap_cons, List.foldl_append, foldl_frame_imem, ih]

/-- Of the data memory the frames before have changed at most the words of a frame. -/
theorem foldl_frames_dmem {before : List Bytes} {n : ℕ} (hlen : ∀ c ∈ before, c.length = n) (hn : n ≤ 1024)
    (l : Image) (j : Fin memWords) (hj : n ≤ 4 * j.val) :
    ((before.flatMap frame).foldl (Image.write .dmem) l).mem j = l.mem j := by
  induction before generalizing l with
  | nil => rfl
  | cons c before ih =>
    obtain ⟨hc, hrest⟩ := List.forall_mem_cons.mp hlen
    have hwords : (ctxWords c).length ≤ j.val := by
      have hfull : (fullWords c).length = c.length / 4 := by simp [fullWords]
      unfold ctxWords
      rw [List.length_append, hfull]
      split_ifs
      · rw [List.length_singleton]
        omega
      · rw [List.length_nil]
        omega
    rw [List.flatMap_cons, List.foldl_append, ih hrest, frame, List.foldl_append, foldl_resetAndRun,
      uploadCtx_upload, foldl_upload (ctxWords_length_le (by omega))]
    exact List.getD_eq_default _ _ hwords

/-- The memories with the words of a text and of a frame over what they held. -/
def loaded (s : System) (text ctx : Bytes) : Bank → Mem
  | .imem => fun j => (fullWords text).getD j.val (s.top.settled .imem j)
  | .dmem => fun j => (ctxWords ctx).getD j.val (s.top.settled .dmem j)

/-- What a run finds in the memories does not depend on the frames before it. -/
theorem memAfter_session {text ctx : Bytes} {before : List Bytes} (htext : text.length ≤ 1024)
    (hctx : ctx.length ≤ 1024) (hlen : ∀ c ∈ before, c.length = ctx.length) (b : Bank) :
    s.memAfter (session text before ctx) b = s.loaded text ctx b := by
  have hfull : (fullWords text).length ≤ memWords := by
    have hlen : (fullWords text).length = text.length / 4 := by simp [fullWords]
    have hwords : memWords = 256 := rfl
    omega
  rw [memAfter, session, List.foldl_append, List.foldl_append, uploadText_upload, uploadCtx_upload]
  cases b with
  | imem =>
    rw [foldl_upload_other (by decide), foldl_frames_imem]
    exact foldl_upload hfull _
  | dmem =>
    rw [foldl_upload (ctxWords_length_le hctx)]
    funext j
    by_cases hj : ctx.length ≤ 4 * j.val
    · rw [foldl_frames_dmem hlen hctx _ j hj, foldl_upload_other (by decide)]
      rfl
    · change _ = (ctxWords ctx).getD j.val (s.top.settled .dmem j)
      rw [ctxWords_getD ctx (not_le.mp hj), ctxWords_getD ctx (not_le.mp hj)]

/-- A session of the host: whatever frames it has run before, once `STATUS` shows the halt bit the exit
value that it reads is that of the text on the last frame, with all registers cleared. -/
theorem session_exit {text ctx : Bytes} {before : List Bytes} {t' : ℕ} (hs : AfterReset s)
    (htext : text.length ≤ 1024) (hctx : ctx.length ≤ 1024) (hlen : ∀ c ∈ before, c.length = ctx.length)
    (h : Started s ins (session text before ctx) T t') (ht : T < t) (htt : t ≤ t')
    (hstatus : readFire (s.trace ins t).axi (s.busTrace ins t) = true) (haddr : (ins t).bus.rreg = 0x04)
    (hbit : (s.trace ins (t + 1)).axi.rdata.getLsbD 0 = true)
    (hexit : readFire (s.trace ins t').axi (s.busTrace ins t') = true) (haddr' : (ins t').bus.rreg = 0x08) :
    ∃ n v, T + 1 + n ≤ t ∧
      HaltsAt (Stub.delayStep (s.loaded text ctx .imem) (s.loaded text ctx .dmem))
        (.start (fun _ => some 0) (some 0)) n v ∧
      (s.trace ins (t' + 1)).axi.rdata = v.getD (ins t').unknown := by
  have hearly : Started s ins (session text before ctx) T t :=
    ⟨h.released, h.before, h.start, fun u hu hut => h.quiet u hu (by omega)⟩
  obtain ⟨n, v, hn, hres⟩ := ((run_and_wait_reads hs hearly ht hstatus).1 haddr).mp hbit
  refine ⟨n, v, by omega, ?_, (run_and_wait_reads hs h (by omega) hexit).2 haddr' n v (by omega) hres⟩
  rw [← memAfter_session htext hctx hlen .imem, ← memAfter_session htext hctx hlen .dmem]
  exact hres

end Session

section Samples

/-- A host that writes `ws`, one write in every other cycle, and then reads `STATUS` and `EXIT`. -/
def host (ws : List (BitVec 12 × BitVec 32)) (t : ℕ) : SystemInputs :=
  let k := t - 2 * ws.length
  { bus := { (master ws t).bus with
      arvalid := 6 ≤ k
      araddr := if k < 8 then 0x004 else 0x008
      rready := true }
    unknown := 0 }

/-- The fabric after one cycle of reset, with empty memories. -/
def fresh : System :=
  System.trace ⟨Regs.reset, ⟨.reset, fun _ => 0, fun _ => 0, none, none⟩⟩
    (fun _ => ⟨{ (master [] 0).bus with rstN := false }, 0⟩) 1

theorem fresh_afterReset : AfterReset fresh := ⟨_, _, 0, rfl, rfl⟩

/-- `addi a0, x0, 42` and `ret`. -/
def helloText : Bytes := [0x13, 0x05, 0xa0, 0x02, 0x67, 0x80, 0x00, 0x00]

/-- Two frames for the program `helloText`. -/
def helloSession : List (BitVec 12 × BitVec 32) := session helloText [[1, 2, 3, 4]] [5, 6, 7, 8]

theorem helloSession_started : Started fresh (host (helloSession ++ resetAndRun)) helloSession 24 34 where
  released := fun _ => rfl
  before := by decide +kernel
  start := by decide +kernel
  quiet := by
    have hall : ∀ u < 34, 24 < u → writeFire (fresh.trace (host (helloSession ++ resetAndRun)) u).axi
        (fresh.busTrace (host (helloSession ++ resetAndRun)) u) = false := by decide +kernel
    exact fun u hu hut => hall u hut hu

theorem helloSession_early : Started fresh (host (helloSession ++ resetAndRun)) helloSession 24 32 :=
  { helloSession_started with quiet := fun u hu hut => helloSession_started.quiet u hu (by omega) }

theorem run_and_wait_reads_hello : ∃ n v, n ≤ 7 ∧ fresh.Result helloSession n v ∧ v.getD 0 = 42 := by
  have hstatus := run_and_wait_reads fresh_afterReset helloSession_early (by decide) (by decide +kernel)
  have hexit := run_and_wait_reads fresh_afterReset helloSession_started (by decide) (by decide +kernel)
  obtain ⟨n, v, hn, hres⟩ := (hstatus.1 (by decide)).mp (by decide +kernel)
  have hvalue : (42 : BitVec 32) = v.getD 0 := by
    rw [← show (host (helloSession ++ resetAndRun) 34).unknown = 0 from rfl,
      ← hexit.2 (by decide) n v (by omega) hres]
    decide +kernel
  exact ⟨n, v, hn, hres, hvalue.symm⟩

theorem session_exit_hello : ∃ n v, 25 + n ≤ 32 ∧
    HaltsAt (Stub.delayStep (fresh.loaded helloText [5, 6, 7, 8] .imem) (fresh.loaded helloText [5, 6, 7, 8] .dmem))
      (.start (fun _ => some 0) (some 0)) n v := by
  obtain ⟨n, v, hn, hres, -⟩ := session_exit (t := 32) fresh_afterReset (by decide) (by decide) (by decide)
    helloSession_started (by decide) (by decide) (by decide +kernel) (by decide) (by decide +kernel)
    (by decide +kernel) (by decide)
  exact ⟨n, v, hn, hres⟩

end Samples

end System

end MerlinV.Fabric
