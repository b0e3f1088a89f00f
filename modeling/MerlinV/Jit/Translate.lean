import MerlinV.Cfg.Build
import MerlinV.Jit.Emit

/-! # The single-pass translator

`tools/merlin-jit-x86_64/jit.c`.  The 32 registers of the program live in a frame of 256
bytes that `rbx` points to.  `pc` is the `uint32_t` of the source, so on a text of `2^32`
bytes or more without a `jalr` the loop wraps and never ends: the model then has no
result for any fuel.  `mmap` and `mprotect` are taken to succeed.
-/
namespace MerlinV

open X86

def regsBytes : BitVec 32 := 256

def dispOf (r : Reg) : BitVec 32 := BitVec.ofNat 32 (r * 8)

inductive JitError where
  | invalidSize (size : ℕ)
  | aluImmOp (op : AluOp) (pc : BitVec 32)
  | aluRegOp (op : AluOp) (pc : BitVec 32)
  | mulVariant (op : AluOp)
  | shiftVariant (op : AluOp)
  | unsupportedClass (cls : InsnClass) (pc : BitVec 32)
  deriving DecidableEq, Repr

def emitPrologue : List Byte :=
  emitPushR64 x86Rbx ++ (emitSubRspImm32 regsBytes ++ (emitMovRbxRsp ++ (emitXorRaxRax ++
    ((List.finRange 32).flatMap (fun i => emitMovMemDispFromRax (dispOf i)) ++
      emitMovMemDispFromRdi (dispOf 10)))))

def emitEpilogue : List Byte :=
  emitMovRaxFromMemDisp (dispOf 10) ++ (emitAddRspImm32 regsBytes ++ (emitPopR64 x86Rbx ++ emitRet))

def emitLoadRsPair (rs1 rs2 : Reg) : List Byte :=
  emitMovRaxFromMemDisp (dispOf rs1) ++ emitMovRcxFromMemDisp (dispOf rs2)

/-- `emit_store_rax_to_rd`: `x0` is hard-wired. -/
def emitStoreRaxToRd (rd : Reg) : List Byte :=
  if rd = 0 then [] else emitMovMemDispFromRax (dispOf rd)

def emitHelperCall (tramp : Word) : List Byte :=
  emitMovRdiRbx ++ (emitMovRaxImm64 tramp ++ emitCallRax)

def translateOne (insn : Insn) (tramp : Word) : Except JitError (List Byte) :=
  match insn.cls with
  | .aluImm =>
    match insn.aluOp with
    | .add => .ok (emitMovRaxFromMemDisp (dispOf insn.rs1) ++ emitAddRaxImm32 (insn.imm.setWidth 32) ++
        emitStoreRaxToRd insn.rd)
    | op => .error (.aluImmOp op insn.pc)
  | .lui => .ok (emitMovRaxImm64 insn.imm ++ emitStoreRaxToRd insn.rd)
  | .aluReg =>
    match insn.aluOp with
    | .add => .ok (emitLoadRsPair insn.rs1 insn.rs2 ++ emitAddRaxRcx ++ emitStoreRaxToRd insn.rd)
    | .sub => .ok (emitLoadRsPair insn.rs1 insn.rs2 ++ emitSubRaxRcx ++ emitStoreRaxToRd insn.rd)
    | .or => .ok (emitLoadRsPair insn.rs1 insn.rs2 ++ emitOrRaxRcx ++ emitStoreRaxToRd insn.rd)
    | .and => .ok (emitLoadRsPair insn.rs1 insn.rs2 ++ emitAndRaxRcx ++ emitStoreRaxToRd insn.rd)
    | .xor => .ok (emitLoadRsPair insn.rs1 insn.rs2 ++ emitXorRaxRcx ++ emitStoreRaxToRd insn.rd)
    | op => .error (.aluRegOp op insn.pc)
  | .mul =>
    if insn.aluOp ≠ .mul then .error (.mulVariant insn.aluOp)
    else .ok (emitLoadRsPair insn.rs1 insn.rs2 ++ emitImulRaxRcx ++ emitStoreRaxToRd insn.rd)
  | .shiftImm =>
    match insn.aluOp with
    | .sll => .ok (emitMovRaxFromMemDisp (dispOf insn.rs1) ++ emitShlRaxImm8 (insn.imm.setWidth 8) ++
        emitStoreRaxToRd insn.rd)
    | .srl => .ok (emitMovRaxFromMemDisp (dispOf insn.rs1) ++ emitShrRaxImm8 (insn.imm.setWidth 8) ++
        emitStoreRaxToRd insn.rd)
    | .sra => .ok (emitMovRaxFromMemDisp (dispOf insn.rs1) ++ emitSarRaxImm8 (insn.imm.setWidth 8) ++
        emitStoreRaxToRd insn.rd)
    | op => .error (.shiftVariant op)
  | .ecall => .ok (emitHelperCall tramp)
  | .jalr => .ok emitEpilogue
  | .fence => .ok []
  | cls => .error (.unsupportedClass cls insn.pc)

section Driver

variable (text : Text) (tramp : Word)

/-- The loop of `merlin_jit_translate`: the buffer and `saw_ret`; `none` when `fuel` iterations
were not enough. -/
def translateLoop : ℕ → BitVec 32 → List Byte → Option (Except JitError (List Byte × Bool))
  | 0, _, _ => none
  | fuel + 1, pc, buf =>
    if pc.toNat < text.length then
      let insn := merlinDecode (textWord text pc.toNat) pc
      match translateOne insn tramp with
      | .error e => some (.error e)
      | .ok bs =>
        if insn.cls = .jalr then some (.ok (buf ++ bs, true))
        else translateLoop fuel (pc + 4) (buf ++ bs)
    else some (.ok (buf, false))

def merlinJitTranslate (fuel : ℕ) : Option (Except JitError (List Byte)) :=
  if text.length = 0 ∨ text.length % 4 ≠ 0 then some (.error (.invalidSize text.length))
  else match translateLoop text tramp fuel 0 emitPrologue with
    | none => none
    | some (.error e) => some (.error e)
    | some (.ok (buf, sawRet)) => some (.ok (if !sawRet then buf ++ emitEpilogue else buf))

end Driver

end MerlinV
