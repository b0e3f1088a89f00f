import MerlinV.Lib.Handshake

/-! # The AXI-Lite control slave

`platforms/icicle-fabric/rtl/axi_ctrl.v`, one function call per clock edge.  The right-hand sides of
the nonblocking assignments are evaluated in the old state, and of two assignments to one register
the later one counts.  The two `always` blocks write disjoint registers.
-/
namespace MerlinV.Fabric

structure Inputs where
  rstN : Bool
  awaddr : BitVec 12
  awvalid : Bool
  wdata : BitVec 32
  wstrb : BitVec 4
  wvalid : Bool
  bready : Bool
  araddr : BitVec 12
  arvalid : Bool
  rready : Bool
  coreHalted : Bool
  coreRunning : Bool
  coreExitValue : BitVec 32
  deriving DecidableEq, Repr

structure Regs where
  bresp : BitVec 2
  bvalid : Bool
  waitingForBready : Bool
  coreRun : Bool
  coreRstN : Bool
  imemWe : Bool
  imemWaddr : BitVec 12
  imemWdata : BitVec 32
  imemWsel : BitVec 12
  dmemWe : Bool
  dmemWaddr : BitVec 12
  dmemWdata : BitVec 32
  dmemWsel : BitVec 12
  arready : Bool
  rvalid : Bool
  rdata : BitVec 32
  rresp : BitVec 2
  deriving DecidableEq, Repr

def Regs.reset : Regs where
  bresp := 0
  bvalid := false
  waitingForBready := false
  coreRun := false
  coreRstN := true
  imemWe := false
  imemWaddr := 0
  imemWdata := 0
  imemWsel := 0
  dmemWe := false
  dmemWaddr := 0
  dmemWdata := 0
  dmemWsel := 0
  arready := true
  rvalid := false
  rdata := 0
  rresp := 0

section Cycle

variable (s : Regs) (i : Inputs)

/-- `write_fire`, which is also `s_awready` and `s_wready`. -/
def writeFire : Bool := i.awvalid && i.wvalid && !s.waitingForBready

def Inputs.wreg : ℕ := (i.awaddr.extractLsb' 0 8).toNat

def Inputs.rreg : ℕ := (i.araddr.extractLsb' 0 8).toNat

/-- The `case` of the write channel, on top of the assignments in `n`. -/
def writeReg (n : Regs) : Regs :=
  match i.wreg with
  | 0x00 => { n with coreRun := i.wdata.getLsbD 0, coreRstN := !i.wdata.getLsbD 1 }
  | 0x10 => { n with imemWsel := i.wdata.extractLsb' 0 12 }
  | 0x14 => { n with
      imemWe := true
      imemWaddr := s.imemWsel <<< 2
      imemWdata := i.wdata
      imemWsel := s.imemWsel + 1 }
  | 0x18 => { n with dmemWsel := i.wdata.extractLsb' 0 12 }
  | 0x1c => { n with
      dmemWe := true
      dmemWaddr := s.dmemWsel <<< 2
      dmemWdata := i.wdata
      dmemWsel := s.dmemWsel + 1 }
  | _ => n

def writeBlock : Regs :=
  let n := { s with imemWe := false, dmemWe := false }
  let n := if writeFire s i then
      { writeReg s i n with bvalid := true, bresp := 0, waitingForBready := true }
    else n
  if s.bvalid && i.bready then { n with bvalid := false, waitingForBready := false } else n

def readReg : BitVec 32 :=
  match i.rreg with
  | 0x00 => BitVec.ofNat 32 ((!s.coreRstN).toNat * 2 + s.coreRun.toNat)
  | 0x04 => BitVec.ofNat 32 (i.coreRunning.toNat * 2 + i.coreHalted.toNat)
  | 0x08 => i.coreExitValue
  | 0x10 => s.imemWsel.setWidth 32
  | 0x18 => s.dmemWsel.setWidth 32
  | _ => 0xdeadc0de

def readBlock (n : Regs) : Regs :=
  let n := if i.arvalid && s.arready then
      { n with arready := false, rvalid := true, rresp := 0, rdata := readReg s i }
    else n
  if s.rvalid && i.rready then { n with rvalid := false, arready := true } else n

def clock : Regs := if !i.rstN then Regs.reset else readBlock s i (writeBlock s i)

end Cycle

def trace (s : Regs) (ins : ℕ → Inputs) : ℕ → Regs
  | 0 => s
  | t + 1 => clock (trace s ins t) (ins t)

section Write

/-- The two memories behind the slave. -/
inductive Bank where
  | imem | dmem
  deriving DecidableEq, Repr

structure Port where
  we : Bool
  addr : BitVec 12
  data : BitVec 32
  deriving DecidableEq, Repr

def Regs.port (s : Regs) : Bank → Port
  | .imem => ⟨s.imemWe, s.imemWaddr, s.imemWdata⟩
  | .dmem => ⟨s.dmemWe, s.dmemWaddr, s.dmemWdata⟩

def Regs.wsel (s : Regs) : Bank → BitVec 12
  | .imem => s.imemWsel
  | .dmem => s.dmemWsel

/-- The offsets of `WSEL` and `WDATA`. -/
def Bank.wselReg : Bank → ℕ
  | .imem => 0x10
  | .dmem => 0x18

def Bank.wdataReg : Bank → ℕ
  | .imem => 0x14
  | .dmem => 0x1c

/-- The registers that writes of the bus set and keep. -/
structure CtrlRegs where
  coreRun : Bool
  coreRstN : Bool
  wsel : Bank → BitVec 12

def Regs.ctrl (s : Regs) : CtrlRegs := ⟨s.coreRun, s.coreRstN, s.wsel⟩

def CtrlRegs.write (c : CtrlRegs) (w : BitVec 12 × BitVec 32) : CtrlRegs :=
  let reg := (w.1.extractLsb' 0 8).toNat
  { coreRun := if reg = 0x00 then w.2.getLsbD 0 else c.coreRun
    coreRstN := if reg = 0x00 then !w.2.getLsbD 1 else c.coreRstN
    wsel := fun b =>
      if reg = b.wselReg then w.2.extractLsb' 0 12
      else if reg = b.wdataReg then c.wsel b + 1
      else c.wsel b }

variable {s : Regs} {i : Inputs}

/-- What the slave drives on the bus and the memories, without the read channel. -/
theorem readBlock_frame (n : Regs) : (readBlock s i n).ctrl = n.ctrl ∧ (readBlock s i n).port = n.port ∧
    (readBlock s i n).bvalid = n.bvalid ∧ (readBlock s i n).waitingForBready = n.waitingForBready := by
  unfold readBlock
  split <;> split <;> exact ⟨rfl, rfl, rfl, rfl⟩

/-- The end of the block of the write channel touches the B response only. -/
theorem writeBlock_frame : ∃ n : Regs, (writeBlock s i).ctrl = n.ctrl ∧ (writeBlock s i).port = n.port ∧
    n = if writeFire s i then writeReg s i { s with imemWe := false, dmemWe := false }
      else { s with imemWe := false, dmemWe := false } := by
  refine ⟨_, ?_, ?_, rfl⟩
  all_goals
    unfold writeBlock
    split <;> split <;> rfl

theorem writeReg_ctrl : (writeReg s i { s with imemWe := false, dmemWe := false }).ctrl =
    s.ctrl.write (i.awaddr, i.wdata) := by
  have hreg : ((i.awaddr, i.wdata).1.extractLsb' 0 8).toNat = i.wreg := rfl
  unfold writeReg CtrlRegs.write
  rw [hreg]
  generalize i.wreg = r
  split
  case h_6 h₀ h₁ h₂ h₃ h₄ =>
    simp only [Regs.ctrl, CtrlRegs.mk.injEq, if_neg h₀, true_and]
    funext b
    cases b with
    | imem => exact ((if_neg h₁).trans (if_neg h₂)).symm
    | dmem => exact ((if_neg h₃).trans (if_neg h₄)).symm
  all_goals
    simp only [Regs.ctrl, CtrlRegs.mk.injEq]
    refine ⟨rfl, rfl, ?_⟩
    funext b
    cases b <;> rfl

theorem writeReg_port (b : Bank) : (writeReg s i { s with imemWe := false, dmemWe := false }).port b =
    if i.wreg = b.wdataReg then ⟨true, s.wsel b <<< 2, i.wdata⟩ else { s.port b with we := false } := by
  unfold writeReg
  generalize i.wreg = r
  split
  case h_6 h₀ h₁ h₂ h₃ h₄ =>
    cases b with
    | imem => exact (if_neg h₂).symm
    | dmem => exact (if_neg h₄).symm
  all_goals
    cases b <;> rfl

theorem clock_ctrl (hrst : i.rstN = true) :
    (clock s i).ctrl = if writeFire s i then s.ctrl.write (i.awaddr, i.wdata) else s.ctrl := by
  obtain ⟨n, hctrl, -, hn⟩ := @writeBlock_frame s i
  rw [clock, hrst]
  change (readBlock s i (writeBlock s i)).ctrl = _
  rw [(readBlock_frame _).1, hctrl, hn]
  split
  · exact writeReg_ctrl
  · rfl

theorem clock_port (hrst : i.rstN = true) (b : Bank) : (clock s i).port b =
    if writeFire s i ∧ i.wreg = b.wdataReg then ⟨true, s.wsel b <<< 2, i.wdata⟩
    else { s.port b with we := false } := by
  obtain ⟨n, -, hport, hn⟩ := @writeBlock_frame s i
  rw [clock, hrst]
  change (readBlock s i (writeBlock s i)).port b = _
  rw [(readBlock_frame _).2.1, hport, hn]
  by_cases hfire : writeFire s i = true
  · rw [if_pos hfire, writeReg_port]
    simp [hfire]
  · rw [if_neg hfire, if_neg fun h => hfire h.1]
    cases b <;> rfl

/-- The B response after an edge: it is raised by a write and lowered when it is taken. -/
theorem clock_bvalid (hrst : i.rstN = true) :
    (clock s i).bvalid = (if s.bvalid && i.bready then false else writeFire s i || s.bvalid) ∧
    (clock s i).waitingForBready =
      (if s.bvalid && i.bready then false else writeFire s i || s.waitingForBready) := by
  rw [clock, hrst]
  change (readBlock s i (writeBlock s i)).bvalid = _ ∧
    (readBlock s i (writeBlock s i)).waitingForBready = _
  rw [(readBlock_frame _).2.2.1, (readBlock_frame _).2.2.2, writeBlock]
  cases s.bvalid && i.bready with
  | true => exact ⟨rfl, rfl⟩
  | false =>
    cases writeFire s i with
    | true => exact ⟨rfl, rfl⟩
    | false => exact ⟨rfl, rfl⟩

end Write

section Read

variable {s : Regs} {i : Inputs}

theorem writeBlock_read : (writeBlock s i).arready = s.arready ∧ (writeBlock s i).rvalid = s.rvalid ∧
    (writeBlock s i).rdata = s.rdata := by
  have hreg : ∀ n : Regs, (writeReg s i n).arready = n.arready ∧ (writeReg s i n).rvalid = n.rvalid ∧
      (writeReg s i n).rdata = n.rdata := by
    intro n
    unfold writeReg
    split <;> exact ⟨rfl, rfl, rfl⟩
  unfold writeBlock
  split <;> split <;> first | exact hreg _ | exact ⟨rfl, rfl, rfl⟩

def readFire (s : Regs) (i : Inputs) : Bool := i.arvalid && s.arready

/-- The R response after an edge: it is raised by a read and lowered when it is taken. -/
theorem clock_read (hrst : i.rstN = true) :
    (clock s i).rvalid = (if s.rvalid && i.rready then false else readFire s i || s.rvalid) ∧
    (clock s i).arready = (if s.rvalid && i.rready then true else !readFire s i && s.arready) ∧
    (clock s i).rdata = (if readFire s i then readReg s i else s.rdata) := by
  obtain ⟨harready, hrvalid, hrdata⟩ := @writeBlock_read s i
  rw [clock, hrst]
  change (readBlock s i (writeBlock s i)).rvalid = _ ∧ (readBlock s i (writeBlock s i)).arready = _ ∧
    (readBlock s i (writeBlock s i)).rdata = _
  unfold readBlock readFire
  cases s.rvalid && i.rready with
  | true =>
    cases i.arvalid && s.arready with
    | true => exact ⟨rfl, rfl, rfl⟩
    | false => exact ⟨rfl, rfl, hrdata⟩
  | false =>
    cases i.arvalid && s.arready with
    | true => exact ⟨rfl, rfl, rfl⟩
    | false => exact ⟨hrvalid, harready, hrdata⟩

end Read

section Runs

def bTaken (s : Regs) (i : Inputs) : Bool := s.bvalid && i.bready

def rTaken (s : Regs) (i : Inputs) : Bool := s.rvalid && i.rready

def acceptedWrites (s : Regs) (ins : ℕ → Inputs) : ℕ → List (BitVec 12 × BitVec 32)
  | 0 => []
  | t + 1 => acceptedWrites s ins t ++
      if writeFire (trace s ins t) (ins t) then [((ins t).awaddr, (ins t).wdata)] else []

variable {s : Regs} {ins : ℕ → Inputs}

/-- The inputs of a run without reset. -/
def Released (ins : ℕ → Inputs) : Prop := ∀ t, (ins t).rstN = true

theorem clock_of_reset {i : Inputs} (hrst : i.rstN = false) : clock s i = Regs.reset := by
  rw [clock, hrst]
  rfl

/-- The flag behind `write_fire` is the B response. -/
theorem trace_waiting (hins : Released ins) (t : ℕ) :
    (trace Regs.reset ins t).waitingForBready = (trace Regs.reset ins t).bvalid := by
  induction t with
  | zero => rfl
  | succ t ih =>
    obtain ⟨hbvalid, hwaiting⟩ := @clock_bvalid (trace Regs.reset ins t) (ins t) (hins t)
    rw [trace, hbvalid, hwaiting, ih]

/-- A read can be accepted when no R response is up. -/
theorem trace_arready (hins : Released ins) (t : ℕ) :
    (trace Regs.reset ins t).arready = !(trace Regs.reset ins t).rvalid := by
  induction t with
  | zero => rfl
  | succ t ih =>
    obtain ⟨hrvalid, harready, -⟩ := @clock_read (trace Regs.reset ins t) (ins t) (hins t)
    rw [trace, hrvalid, harready, ih]
    cases (trace Regs.reset ins t).rvalid && (ins t).rready with
    | true => rfl
    | false => simp

/-- The write channel serves one write at a time. -/
theorem writeChannel (hins : Released ins) :
    Lib.OneShot (fun t => (trace Regs.reset ins t).bvalid = true)
      (fun t => writeFire (trace Regs.reset ins t) (ins t) = true)
      (fun t => bTaken (trace Regs.reset ins t) (ins t) = true) := by
  apply Lib.oneShot_of_flag
  · rfl
  · intro t ht
    rw [writeFire, trace_waiting hins t, Bool.and_eq_true, Bool.not_eq_true'] at ht
    exact ht.2
  · exact fun t => (clock_bvalid (hins t)).1

/-- The read channel serves one read at a time. -/
theorem readChannel (hins : Released ins) :
    Lib.OneShot (fun t => (trace Regs.reset ins t).rvalid = true)
      (fun t => readFire (trace Regs.reset ins t) (ins t) = true)
      (fun t => rTaken (trace Regs.reset ins t) (ins t) = true) := by
  apply Lib.oneShot_of_flag
  · rfl
  · intro t ht
    rw [readFire, trace_arready hins t, Bool.and_eq_true, Bool.not_eq_true'] at ht
    exact ht.2
  · exact fun t => (clock_read (hins t)).1

/-- The registers of the bus are those of the accepted writes, each applied once and in order. -/
theorem trace_ctrl (hins : Released ins) (t : ℕ) : (trace s ins t).ctrl =
    (acceptedWrites s ins t).foldl CtrlRegs.write s.ctrl := by
  induction t with
  | zero => rfl
  | succ t ih =>
    rw [trace, clock_ctrl (hins t), acceptedWrites, List.foldl_append, ← ih]
    split <;> rfl

theorem clock_wsel {i : Inputs} (hrst : i.rstN = true) (b : Bank) : (clock s i).wsel b =
    if writeFire s i ∧ i.wreg = b.wselReg then i.wdata.extractLsb' 0 12
    else if writeFire s i ∧ i.wreg = b.wdataReg then s.wsel b + 1
    else s.wsel b := by
  have hctrl := congrArg (fun c => CtrlRegs.wsel c b) (@clock_ctrl s i hrst)
  change (clock s i).wsel b = _ at hctrl
  rw [hctrl]
  by_cases hfire : writeFire s i = true
  · simp only [hfire, true_and, if_true]
    rfl
  · simp only [hfire, Bool.false_eq_true, false_and, if_false]
    rfl

/-- A write enable is up for the one cycle behind a write of `WDATA`. -/
theorem port_pulse (hins : Released ins) (b : Bank) (t : ℕ) :
    (((trace Regs.reset ins (t + 1)).port b).we = true ↔
      writeFire (trace Regs.reset ins t) (ins t) = true ∧ (ins t).wreg = b.wdataReg) ∧
    (((trace Regs.reset ins (t + 1)).port b).we = true →
      ((trace Regs.reset ins (t + 1)).port b).addr.toNat = 4 * ((trace Regs.reset ins t).wsel b).toNat % 2 ^ 12 ∧
      ((trace Regs.reset ins (t + 1)).port b).data = (ins t).wdata ∧
      ((trace Regs.reset ins (t + 2)).port b).we = false) := by
  have hport := fun u => @clock_port (trace Regs.reset ins u) (ins u) (hins u) b
  have hwe : ((trace Regs.reset ins (t + 1)).port b).we = true ↔
      writeFire (trace Regs.reset ins t) (ins t) = true ∧ (ins t).wreg = b.wdataReg := by
    rw [trace, hport t]
    split
    · rename_i h
      exact ⟨fun _ => h, fun _ => rfl⟩
    · rename_i h
      exact ⟨nofun, fun h' => absurd h' h⟩
  refine ⟨hwe, fun hup => ?_⟩
  obtain ⟨hfire, hreg⟩ := hwe.mp hup
  have hhere : (trace Regs.reset ins (t + 1)).port b =
      ⟨true, (trace Regs.reset ins t).wsel b <<< 2, (ins t).wdata⟩ := by
    rw [trace, hport t, if_pos ⟨hfire, hreg⟩]
  have hbusy : ¬ writeFire (trace Regs.reset ins (t + 1)) (ins (t + 1)) = true := by
    intro hnext
    exact (writeChannel hins).of_accept (t + 1) hnext (((writeChannel hins).next t).mpr (.inl hfire))
  refine ⟨?_, by rw [hhere], ?_⟩
  · rw [hhere]
    change ((trace Regs.reset ins t).wsel b <<< 2).toNat = _
    rw [BitVec.toNat_shiftLeft, Nat.shiftLeft_eq]
    congr 1
    omega
  · rw [trace, hport (t + 1), if_neg fun h => hbusy h.1]

/-- The slave after any reset, whatever the master does. -/
theorem axi_ctrl_exactly_once (s₀ : Regs) (i₀ : Inputs) (ins : ℕ → Inputs) (hreset : i₀.rstN = false)
    (hins : Released ins) :
    -- the write channel: the flag, one response for each write, and each write applied once
    (∀ t, (trace (clock s₀ i₀) ins t).waitingForBready = (trace (clock s₀ i₀) ins t).bvalid) ∧
    (∀ t t', writeFire (trace (clock s₀ i₀) ins t) (ins t) = true →
      writeFire (trace (clock s₀ i₀) ins t') (ins t') = true → t < t' →
      (∀ u, t < u → u < t' → ¬ writeFire (trace (clock s₀ i₀) ins u) (ins u) = true) →
      ∃! u, (t < u ∧ u < t') ∧ bTaken (trace (clock s₀ i₀) ins u) (ins u) = true) ∧
    (∀ t, Nat.count (fun u => writeFire (trace (clock s₀ i₀) ins u) (ins u) = true) t =
      Nat.count (fun u => bTaken (trace (clock s₀ i₀) ins u) (ins u) = true) t +
        if (trace (clock s₀ i₀) ins t).bvalid = true then 1 else 0) ∧
    (∀ t, (trace (clock s₀ i₀) ins t).ctrl =
      (acceptedWrites (clock s₀ i₀) ins t).foldl CtrlRegs.write Regs.reset.ctrl) ∧
    -- the word selects and the write enables
    (∀ b t, (trace (clock s₀ i₀) ins (t + 1)).wsel b =
      if writeFire (trace (clock s₀ i₀) ins t) (ins t) ∧ (ins t).wreg = b.wselReg then
        (ins t).wdata.extractLsb' 0 12
      else if writeFire (trace (clock s₀ i₀) ins t) (ins t) ∧ (ins t).wreg = b.wdataReg then
        (trace (clock s₀ i₀) ins t).wsel b + 1
      else (trace (clock s₀ i₀) ins t).wsel b) ∧
    (∀ b, ((trace (clock s₀ i₀) ins 0).port b).we = false) ∧
    (∀ b t, (((trace (clock s₀ i₀) ins (t + 1)).port b).we = true ↔
        writeFire (trace (clock s₀ i₀) ins t) (ins t) = true ∧ (ins t).wreg = b.wdataReg) ∧
      (((trace (clock s₀ i₀) ins (t + 1)).port b).we = true →
        ((trace (clock s₀ i₀) ins (t + 1)).port b).addr.toNat =
          4 * ((trace (clock s₀ i₀) ins t).wsel b).toNat % 2 ^ 12 ∧
        ((trace (clock s₀ i₀) ins (t + 1)).port b).data = (ins t).wdata ∧
        ((trace (clock s₀ i₀) ins (t + 2)).port b).we = false)) ∧
    -- the read channel: one response for each read, with the value of the cycle of acceptance
    (∀ t, (trace (clock s₀ i₀) ins t).arready = !(trace (clock s₀ i₀) ins t).rvalid) ∧
    (∀ t t', readFire (trace (clock s₀ i₀) ins t) (ins t) = true →
      readFire (trace (clock s₀ i₀) ins t') (ins t') = true → t < t' →
      (∀ u, t < u → u < t' → ¬ readFire (trace (clock s₀ i₀) ins u) (ins u) = true) →
      ∃! u, (t < u ∧ u < t') ∧ rTaken (trace (clock s₀ i₀) ins u) (ins u) = true) ∧
    (∀ t, Nat.count (fun u => readFire (trace (clock s₀ i₀) ins u) (ins u) = true) t =
      Nat.count (fun u => rTaken (trace (clock s₀ i₀) ins u) (ins u) = true) t +
        if (trace (clock s₀ i₀) ins t).rvalid = true then 1 else 0) ∧
    (∀ t u, readFire (trace (clock s₀ i₀) ins t) (ins t) = true → t < u →
      (∀ v, t < v → v < u → ¬ rTaken (trace (clock s₀ i₀) ins v) (ins v) = true) →
      (trace (clock s₀ i₀) ins u).rvalid = true ∧
        (trace (clock s₀ i₀) ins u).rdata = readReg (trace (clock s₀ i₀) ins t) (ins t)) := by
  rw [clock_of_reset hreset]
  have hwrite := writeChannel hins
  have hread := readChannel hins
  refine ⟨trace_waiting hins, fun t t' => hwrite.existsUnique_done, hwrite.count_accept, trace_ctrl hins,
    fun b t => clock_wsel (hins t) b, fun b => by cases b <;> rfl, port_pulse hins, trace_arready hins,
    fun t t' => hread.existsUnique_done, hread.count_accept, fun t u ht htu hno => ?_⟩
  refine ⟨hread.busy_of_accept ht htu hno, ?_⟩
  have hstore : ∀ v, (readFire (trace Regs.reset ins v) (ins v) = true →
        (trace Regs.reset ins (v + 1)).rdata = readReg (trace Regs.reset ins v) (ins v)) ∧
      (¬ readFire (trace Regs.reset ins v) (ins v) = true →
        (trace Regs.reset ins (v + 1)).rdata = (trace Regs.reset ins v).rdata) := by
    intro v
    rw [trace, (clock_read (hins v)).2.2]
    exact ⟨fun h => if_pos h, fun h => if_neg h⟩
  exact hread.stored (fun v => (trace Regs.reset ins v).rdata)
    (fun v => readReg (trace Regs.reset ins v) (ins v)) hstore ht htu hno

/-- A master that writes the same word to `IMEM_WDATA` over and over. -/
def eagerMaster : ℕ → Inputs := fun _ => ⟨true, 0x14, true, 0x8067, 0xf, true, true, 0, false, true, false, false, 0⟩

theorem axi_ctrl_eagerMaster : Released eagerMaster ∧
    ((trace (clock Regs.reset { eagerMaster 0 with rstN := false }) eagerMaster 1).port .imem).we = true ∧
    ((trace (clock Regs.reset { eagerMaster 0 with rstN := false }) eagerMaster 2).port .imem).we = false := by
  have hins : Released eagerMaster := fun _ => rfl
  obtain ⟨-, -, -, -, -, -, hpulse, -⟩ :=
    axi_ctrl_exactly_once Regs.reset { eagerMaster 0 with rstN := false } eagerMaster rfl hins
  have hup := (hpulse .imem 0).1.mpr (by decide)
  exact ⟨hins, hup, ((hpulse .imem 0).2 hup).2.2⟩

end Runs

end MerlinV.Fabric
