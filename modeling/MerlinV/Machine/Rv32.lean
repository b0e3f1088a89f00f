import MerlinV.Machine.Reference

/-! # Execution of a text on RV32IM

The machine of the RTOS profile: 32-bit registers, a byte memory and a program counter, with the
text loaded at a base address.  A word that RV32IM does not define traps, and so does a fetch
outside the text or between two words; a trap ends the run.  A helper returns behind the `ecall`
with arbitrary caller-saved registers and memory.
-/
namespace MerlinV.Rv32

/-- The instructions of RV64IM that RV32IM has too. -/
def isRv32 (insn : Insn) : Bool :=
  match insn.cls with
  | .aluImmW | .aluRegW => false
  | .load => insn.ldKind ≠ .ld && insn.ldKind ≠ .lwu
  | .store => insn.stKind ≠ .sd
  | .shiftImm => insn.imm.toNat < 32
  | .mul | .div => !insn.wordOp
  | _ => true

def insnOf (w : BitVec 32) : Option Insn := (isaInsn w).filter isRv32

structure State where
  pc : BitVec 32
  x : Reg → BitVec 32
  mem : BitVec 32 → BitVec 8

namespace State

def setReg (s : State) (rd : Reg) (v : BitVec 32) : State :=
  if rd = 0 then s else { s with x := Function.update s.x rd v }

def read (s : State) (a : BitVec 32) : ℕ → BitVec 32
  | 0 => 0
  | n + 1 => (s.mem a).setWidth 32 ||| (s.read (a + 1) n <<< 8)

def write (s : State) (a : BitVec 32) : ℕ → BitVec 32 → State
  | 0, _ => s
  | n + 1, v => { s with mem := Function.update (s.write (a + 1) n (v >>> 8)).mem a (v.setWidth 8) }

end State

section Alu

def alu (op : AluOp) (a b : BitVec 32) : BitVec 32 :=
  let sh := b.toNat % 32
  match op with
  | .add => a + b
  | .sub => a - b
  | .sll => a <<< sh
  | .slt => if a.slt b then 1 else 0
  | .sltu => if a.ult b then 1 else 0
  | .xor => a ^^^ b
  | .srl => a >>> sh
  | .sra => a.sshiftRight sh
  | .or => a ||| b
  | .and => a &&& b
  | .mul => a * b
  | .mulh => ((a.signExtend 64 * b.signExtend 64) >>> 32).setWidth 32
  | .mulhu => ((a.setWidth 64 * b.setWidth 64) >>> 32).setWidth 32
  | .mulhsu => ((a.signExtend 64 * b.setWidth 64) >>> 32).setWidth 32
  | .div => if b = 0 then -1 else a.sdiv b
  | .divu => if b = 0 then -1 else a.udiv b
  | .rem => if b = 0 then a else a.srem b
  | .remu => if b = 0 then a else a.umod b

def taken (k : BranchKind) (a b : BitVec 32) : Bool :=
  match k with
  | .beq => a = b
  | .bne => a ≠ b
  | .blt => a.slt b
  | .bge => !a.slt b
  | .bltu => a.ult b
  | .bgeu => !a.ult b

def loadValue (s : State) (k : LoadKind) (a : BitVec 32) : BitVec 32 :=
  match k with
  | .lb => ((s.read a 1).setWidth 8).signExtend 32
  | .lh => ((s.read a 2).setWidth 16).signExtend 32
  | .lbu => s.read a 1
  | .lhu => s.read a 2
  | _ => s.read a 4

end Alu

section Exec

variable (insn : Insn) (s : State)

def imm : BitVec 32 := insn.imm.setWidth 32

/-- The value an instruction other than `ecall` writes to `rd`, if it writes one. -/
def result? : Option (BitVec 32) :=
  match insn.cls with
  | .lui => some (imm insn)
  | .auipc => some (s.pc + imm insn)
  | .jal | .jalr => some (s.pc + 4)
  | .load => some (loadValue s insn.ldKind (s.x insn.rs1 + imm insn))
  | .aluImm | .shiftImm => some (alu insn.aluOp (s.x insn.rs1) (imm insn))
  | .aluReg | .mul | .div => some (alu insn.aluOp (s.x insn.rs1) (s.x insn.rs2))
  | _ => none

/-- The instruction leaves the straight line. -/
def jumps : Bool :=
  match insn.cls with
  | .jal | .jalr => true
  | .branch => taken insn.brKind (s.x insn.rs1) (s.x insn.rs2)
  | _ => false

def target : BitVec 32 :=
  if insn.cls = .jalr then (s.x insn.rs1 + imm insn) &&& ~~~1#32 else s.pc + imm insn

def nextPc : BitVec 32 := if jumps insn s then target insn s else s.pc + 4

def exec : State :=
  let s' := if insn.cls = .store then
      s.write (s.x insn.rs1 + imm insn) (storeBytes insn.stKind) (s.x insn.rs2)
    else s
  { (match result? insn s with
      | some v => s'.setReg insn.rd v
      | none => s') with pc := nextPc insn s }

end Exec

/-- The fixed surroundings of a run.  The loader takes texts of at most 64 KiB. -/
structure Env where
  text : Text
  /-- The address of the first instruction. -/
  base : BitVec 32
  ctx : BitVec 32
  /-- `sp` at entry. -/
  sp0 : BitVec 32
  /-- `ra` at entry. -/
  ra0 : BitVec 32
  short : text.length < 2 ^ 31

namespace Env

variable (E : Env)

def off (a : BitVec 32) : ℕ := (a - E.base).toNat

def InText (a : BitVec 32) : Prop := E.off a < E.text.length ∧ E.off a % 4 = 0

instance (a : BitVec 32) : Decidable (E.InText a) := inferInstanceAs (Decidable (_ ∧ _))

def fetch (a : BitVec 32) : Option Insn :=
  if E.InText a then insnOf (textWord E.text (E.off a)) else none

/-- The next instruction returns to the caller. -/
def Returns (s : State) : Prop :=
  ∃ insn, E.fetch s.pc = some insn ∧ insn.cls = .jalr ∧ target insn s = E.ra0

end Env

/-- A helper call returns behind the `ecall`. -/
structure HelperReturn (s s' : State) : Prop where
  pc : s'.pc = s.pc + 4
  saved : ∀ r, callerSaved r = false → s'.x r = s.x r

/-- One step that stays in the program. -/
inductive Step (E : Env) (s s' : State) : Prop where
  | plain (insn : Insn) (fetch : E.fetch s.pc = some insn) (cls : insn.cls ≠ .ecall)
      (stay : ¬ E.Returns s) (next : s' = exec insn s)
  | helper (insn : Insn) (fetch : E.fetch s.pc = some insn) (cls : insn.cls = .ecall)
      (ret : HelperReturn s s')

/-- The states a program can be entered in; the registers not named are arbitrary. -/
structure Entry (E : Env) (s : State) : Prop where
  pc : s.pc = E.base
  zero : s.x 0 = 0
  ra : s.x 1 = E.ra0
  sp : s.x 2 = E.sp0
  ctx : s.x 10 = E.ctx

section Lemmas

variable {insn : Insn} {s : State} {E : Env}

theorem State.setReg_x (rd r : Reg) (v : BitVec 32) :
    (s.setReg rd v).x r = if r = rd ∧ rd ≠ 0 then v else s.x r := by
  unfold State.setReg
  by_cases h0 : rd = 0
  · simp [h0]
  · by_cases hr : r = rd
    · simp [h0, hr]
    · simp [h0, hr]

theorem State.write_x (a : BitVec 32) (n : ℕ) (v : BitVec 32) : (s.write a n v).x = s.x := by
  induction n generalizing a v with
  | zero => rfl
  | succ n ih => rfl

@[simp] theorem exec_pc : (exec insn s).pc = nextPc insn s := rfl

theorem exec_x (r : Reg) : (exec insn s).x r = match result? insn s with
    | some v => if r = insn.rd ∧ insn.rd ≠ 0 then v else s.x r
    | none => s.x r := by
  have hx : (if insn.cls = .store then
      s.write (s.x insn.rs1 + imm insn) (storeBytes insn.stKind) (s.x insn.rs2) else s).x = s.x := by
    split
    · exact State.write_x _ _ _
    · rfl
  unfold exec
  cases result? insn s with
  | none => exact congrFun hx r
  | some v =>
    change (State.setReg _ insn.rd v).x r = _
    rw [State.setReg_x, hx]

theorem insnOf_eq_some {w : BitVec 32} (h : insnOf w = some insn) :
    isaInsn w = some insn ∧ isRv32 insn = true := Option.filter_eq_some_iff.mp h

theorem Env.inText_of_fetch {a : BitVec 32} (h : E.fetch a = some insn) :
    E.InText a ∧ insnOf (textWord E.text (E.off a)) = some insn := by
  unfold Env.fetch at h
  split at h
  · rename_i hin
    exact ⟨hin, h⟩
  · cases h

theorem Env.off_add {a : BitVec 32} {k : ℕ} (h : E.off a + k < 2 ^ 32) :
    E.off (a + BitVec.ofNat 32 k) = E.off a + k := by
  have hk : (BitVec.ofNat 32 k).toNat = k := by
    rw [BitVec.toNat_ofNat, Nat.mod_eq_of_lt (by omega)]
  have hsub : a + BitVec.ofNat 32 k - E.base = (a - E.base) + BitVec.ofNat 32 k := by
    rw [BitVec.sub_eq_add_neg, BitVec.sub_eq_add_neg, BitVec.add_assoc,
      BitVec.add_comm (BitVec.ofNat 32 k), ← BitVec.add_assoc]
  unfold Env.off at h ⊢
  rw [hsub, BitVec.toNat_add, hk, Nat.mod_eq_of_lt h]

theorem Env.off_next {a : BitVec 32} (hin : E.InText a) : E.off (a + 4) = E.off a + 4 := by
  have hlt := hin.1
  have hshort := E.short
  exact @Env.off_add E a 4 (by omega)

end Lemmas

/-- A text at `0x1000`, with a context and a stack. -/
def envOf (text : Text) (h : text.length < 2 ^ 31) : Env := ⟨text, 0x1000, 0x2000, 0x3000, 0x4000, h⟩

/-- An entry state with an empty memory; the other registers are `0`. -/
def entryState (E : Env) : State where
  pc := E.base
  x r := if r = 1 then E.ra0 else if r = 2 then E.sp0 else if r = 10 then E.ctx else 0
  mem _ := 0

theorem entry_entryState (E : Env) : Entry E (entryState E) := ⟨rfl, rfl, rfl, rfl, rfl⟩

end MerlinV.Rv32
