import MerlinV.Cfg.Build
import MerlinV.Verify.Transfer

/-! # Execution of a MERLIN-V text on RV64IM

The machine the verifier reasons about: 32 registers, a byte memory and a program counter,
with the text loaded at a base address.  `exec` covers every class the default profile
permits except `ecall`; a helper call returns behind the `ecall` with an arbitrary `a0`
and arbitrary caller-saved registers and memory, and a kfunc called through its slot
returns to `ra`.
-/
namespace MerlinV

structure MState where
  pc : Word
  x : Reg → Word
  mem : Word → BitVec 8

namespace MState

def setReg (s : MState) (rd : Reg) (v : Word) : MState :=
  if rd = 0 then s else { s with x := Function.update s.x rd v }

def read (s : MState) (a : Word) : ℕ → Word
  | 0 => 0
  | n + 1 => (s.mem a).setWidth 64 ||| (s.read (a + 1) n <<< 8)

def write (s : MState) (a : Word) : ℕ → Word → MState
  | 0, _ => s
  | n + 1, v => { s with mem := Function.update (s.write (a + 1) n (v >>> 8)).mem a (v.setWidth 8) }

end MState

section Alu

def aluExec (op : AluOp) (a b : Word) : Word :=
  let sh := b.toNat % 64
  match op with
  | .add => a + b
  | .sub => a - b
  | .sll => a <<< sh
  | .slt => if a.slt b then 1 else 0
  | .sltu => if a.ult b then 1 else 0
  | .xor => a ^^^ b
  | .srl => a >>> sh
  | .sra => a.sshiftRight sh
  | .or => a ||| b
  | .and => a &&& b
  | .mul => a * b
  | .mulh => ((a.signExtend 128 * b.signExtend 128) >>> 64).setWidth 64
  | .mulhu => ((a.setWidth 128 * b.setWidth 128) >>> 64).setWidth 64
  | .mulhsu => ((a.signExtend 128 * b.setWidth 128) >>> 64).setWidth 64
  | .div => if b = 0 then -1 else a.sdiv b
  | .divu => if b = 0 then -1 else a.udiv b
  | .rem => if b = 0 then a else a.srem b
  | .remu => if b = 0 then a else a.umod b

/-- The W forms: 32-bit operations with a sign-extended result. -/
def aluExecW (op : AluOp) (a b : Word) : Word :=
  let a := a.setWidth 32
  let b := b.setWidth 32
  let sh := b.toNat % 32
  let r : BitVec 32 := match op with
    | .add => a + b
    | .sub => a - b
    | .sll => a <<< sh
    | .srl => a >>> sh
    | .sra => a.sshiftRight sh
    | .mul => a * b
    | .div => if b = 0 then -1 else a.sdiv b
    | .divu => if b = 0 then -1 else a.udiv b
    | .rem => if b = 0 then a else a.srem b
    | .remu => if b = 0 then a else a.umod b
    | _ => 0
  r.signExtend 64

def aluOf (insn : Insn) (a b : Word) : Word :=
  if insn.wordOp then aluExecW insn.aluOp a b else aluExec insn.aluOp a b

def branchTaken (k : BranchKind) (a b : Word) : Bool :=
  match k with
  | .beq => a = b
  | .bne => a ≠ b
  | .blt => a.slt b
  | .bge => !a.slt b
  | .bltu => a.ult b
  | .bgeu => !a.ult b

def loadValue (s : MState) (k : LoadKind) (a : Word) : Word :=
  match k with
  | .lb => ((s.read a 1).setWidth 8).signExtend 64
  | .lh => ((s.read a 2).setWidth 16).signExtend 64
  | .lw => ((s.read a 4).setWidth 32).signExtend 64
  | .ld => s.read a 8
  | .lbu => s.read a 1
  | .lhu => s.read a 2
  | .lwu => s.read a 4

def loadBytes : LoadKind → ℕ
  | .lb | .lbu => 1
  | .lh | .lhu => 2
  | .lw | .lwu => 4
  | .ld => 8

def storeBytes : StoreKind → ℕ
  | .sb => 1
  | .sh => 2
  | .sw => 4
  | .sd => 8

end Alu

/-- The value an instruction other than `ecall` writes to `rd`, if it writes one. -/
def result? (insn : Insn) (s : MState) : Option Word :=
  match insn.cls with
  | .lui => some insn.imm
  | .auipc => some (s.pc + insn.imm)
  | .jal | .jalr => some (s.pc + 4)
  | .load => some (loadValue s insn.ldKind (s.x insn.rs1 + insn.imm))
  | .aluImm | .shiftImm => some (aluExec insn.aluOp (s.x insn.rs1) insn.imm)
  | .aluImmW => some (aluExecW insn.aluOp (s.x insn.rs1) insn.imm)
  | .aluReg | .aluRegW | .mul | .div => some (aluOf insn (s.x insn.rs1) (s.x insn.rs2))
  | _ => none

def nextPc (insn : Insn) (s : MState) : Word :=
  match insn.cls with
  | .jal => s.pc + insn.imm
  | .jalr => (s.x insn.rs1 + insn.imm) &&& ~~~1#64
  | .branch =>
    if branchTaken insn.brKind (s.x insn.rs1) (s.x insn.rs2) then s.pc + insn.imm else s.pc + 4
  | _ => s.pc + 4

def storeEffect (insn : Insn) (s : MState) : MState :=
  if insn.cls = .store then
    s.write (s.x insn.rs1 + insn.imm) (storeBytes insn.stKind) (s.x insn.rs2)
  else s

/-- Execute an instruction of a permitted class other than `ecall`. -/
def exec (insn : Insn) (s : MState) : Option MState :=
  if merlinInsnPermittedDefault insn = false ∨ insn.cls = .ecall then none
  else
    let s' := storeEffect insn s
    some { (match result? insn s with
      | some v => s'.setReg insn.rd v
      | none => s') with pc := nextPc insn s }

/-- The registers a helper or kfunc may change, next to `a0`. -/
def callerSaved (r : Reg) : Bool :=
  (5 ≤ r && r ≤ 7) || (10 ≤ r && r ≤ 17) || (28 ≤ r && r ≤ 31)

structure Env where
  text : Text
  /-- The address of the first instruction. -/
  base : Word
  /-- The entry address of the kfunc with the given id. -/
  slot : BitVec 32 → Word
  ctx : Word
  /-- `sp` at entry. -/
  sp0 : Word
  /-- `ra` at entry. -/
  ra0 : Word
  slot_even : ∀ id, slot id &&& 1#64 = 0
  ra0_even : ra0 &&& 1#64 = 0

namespace Env

variable (E : Env)

def off (a : Word) : ℕ := (a - E.base).toNat

def InText (a : Word) : Prop := E.off a < E.text.length

instance (a : Word) : Decidable (E.InText a) := by
  unfold InText
  infer_instance

def fetch (a : Word) : Option Insn :=
  if E.InText a then some (merlinDecode (textWord E.text (E.off a)) 0) else none

end Env

/-- A helper call returns behind the `ecall`; `kfunc_resolve` gives the slot of its argument. -/
structure HelperReturn (E : Env) (s s' : MState) : Prop where
  pc : s'.pc = s.pc + 4
  saved : ∀ r, callerSaved r = false → s'.x r = s.x r
  resolve : s.x 17 = helperKfuncResolve.setWidth 64 → s'.x 10 = E.slot ((s.x 10).setWidth 32)

structure KfuncReturn (s s' : MState) : Prop where
  pc : s'.pc = s.x 1
  saved : ∀ r, callerSaved r = false → s'.x r = s.x r

inductive MStep (E : Env) (s s' : MState) : Prop where
  | plain (insn : Insn) (fetch : E.fetch s.pc = some insn) (run : exec insn s = some s')
  | helper (insn : Insn) (fetch : E.fetch s.pc = some insn) (cls : insn.cls = .ecall)
      (ret : HelperReturn E s s')
  | kfunc (id : BitVec 32) (out : ¬ E.InText s.pc) (at_slot : s.pc = E.slot id)
      (ret : KfuncReturn s s')

/-- The states the program can be entered in: `a0` is the context, or an index with the context
in `a1` for a callback body; the registers not named are arbitrary. -/
structure Entry (E : Env) (callback : Bool) (s : MState) : Prop where
  pc : s.pc = E.base
  zero : s.x 0 = 0
  ra : s.x 1 = E.ra0
  sp : s.x 2 = E.sp0
  ctx : s.x (if callback then 11 else 10) = E.ctx
  index : callback = true → 0 ≤ (s.x 10).toInt
  outside : ¬ E.InText E.ra0

inductive MRun (E : Env) (callback : Bool) : MState → Prop where
  | entry {s : MState} (start : Entry E callback s) : MRun E callback s
  | step {s s' : MState} (run : MRun E callback s) (step : MStep E s s') : MRun E callback s'

/-- `v` lies within `2^30` of `base`. -/
def Near (base v : Word) : Prop := -2 ^ 30 ≤ (v - base).toInt ∧ (v - base).toInt ≤ 2 ^ 30

instance (base v : Word) : Decidable (Near base v) := by
  unfold Near
  infer_instance

section Lemmas

variable {insn : Insn} {s s' : MState}

theorem MState.setReg_x (rd r : Reg) (v : Word) :
    (s.setReg rd v).x r = if r = rd ∧ rd ≠ 0 then v else s.x r := by
  unfold MState.setReg
  by_cases h0 : rd = 0
  · simp [h0]
  · by_cases hr : r = rd
    · simp [h0, hr]
    · simp [h0, hr]

theorem MState.write_x (a : Word) (n : ℕ) (v : Word) : (s.write a n v).x = s.x := by
  induction n generalizing a v with
  | zero => rfl
  | succ n ih => rfl

theorem exec_eq_some (h : exec insn s = some s') :
    merlinInsnPermittedDefault insn = true ∧ insn.cls ≠ .ecall ∧ s'.pc = nextPc insn s ∧
      ∀ r, s'.x r = match result? insn s with
        | some v => if r = insn.rd ∧ insn.rd ≠ 0 then v else s.x r
        | none => s.x r := by
  unfold exec at h
  split at h
  · cases h
  rename_i hno
  rw [not_or, Bool.not_eq_false] at hno
  have hx : (storeEffect insn s).x = s.x := by
    unfold storeEffect
    split
    · exact MState.write_x _ _ _
    · rfl
  rw [← Option.some.inj h]
  refine ⟨hno.1, hno.2, rfl, fun r => ?_⟩
  cases result? insn s with
  | none => exact congrFun hx r
  | some v =>
    change ((storeEffect insn s).setReg insn.rd v).x r = _
    rw [MState.setReg_x, hx]

theorem exec_isSome (hp : merlinInsnPermittedDefault insn = true) (hc : insn.cls ≠ .ecall) :
    ∃ s', exec insn s = some s' := by
  unfold exec
  rw [if_neg (by simp [hp, hc])]
  exact ⟨_, rfl⟩

end Lemmas

end MerlinV
