import MerlinV.X86.Sequence

/-! # The byte-level emitter

`tools/merlin-jit-x86_64/emit.c`.  Each `emit_*` appends one instruction to the buffer; here
it is the bytes it appends, with the proof that they decode to the instruction its name
says.  The buffer grows on demand and allocation is taken to succeed.
-/
namespace MerlinV

open X86

section Emitters

def emitU32 (v : BitVec 32) : List Byte :=
  [v.extractLsb' 0 8, v.extractLsb' 8 8, v.extractLsb' 16 8, v.extractLsb' 24 8]

def emitU64 (v : BitVec 64) : List Byte :=
  [v.extractLsb' 0 8, v.extractLsb' 8 8, v.extractLsb' 16 8, v.extractLsb' 24 8,
    v.extractLsb' 32 8, v.extractLsb' 40 8, v.extractLsb' 48 8, v.extractLsb' 56 8]

def x86Rbx : BitVec 8 := 3

def emitPushR64 (r : BitVec 8) : List Byte := [0x50 + (r &&& 7)]
def emitPopR64 (r : BitVec 8) : List Byte := [0x58 + (r &&& 7)]

def emitSubRspImm32 (imm : BitVec 32) : List Byte := [0x48, 0x81, 0xec] ++ emitU32 imm
def emitAddRspImm32 (imm : BitVec 32) : List Byte := [0x48, 0x81, 0xc4] ++ emitU32 imm

def emitMovRbxRsp : List Byte := [0x48, 0x89, 0xe3]
def emitMovMemDispFromRdi (disp : BitVec 32) : List Byte := [0x48, 0x89, 0xbb] ++ emitU32 disp
def emitMovRaxFromMemDisp (disp : BitVec 32) : List Byte := [0x48, 0x8b, 0x83] ++ emitU32 disp
def emitMovMemDispFromRax (disp : BitVec 32) : List Byte := [0x48, 0x89, 0x83] ++ emitU32 disp
def emitMovRcxFromMemDisp (disp : BitVec 32) : List Byte := [0x48, 0x8b, 0x8b] ++ emitU32 disp
def emitMovRdiRbx : List Byte := [0x48, 0x89, 0xdf]
def emitMovRaxImm64 (imm : BitVec 64) : List Byte := [0x48, 0xb8] ++ emitU64 imm

def emitXorRaxRax : List Byte := [0x48, 0x31, 0xc0]
def emitAddRaxRcx : List Byte := [0x48, 0x01, 0xc8]
def emitSubRaxRcx : List Byte := [0x48, 0x29, 0xc8]
def emitOrRaxRcx : List Byte := [0x48, 0x09, 0xc8]
def emitAndRaxRcx : List Byte := [0x48, 0x21, 0xc8]
def emitXorRaxRcx : List Byte := [0x48, 0x31, 0xc8]
def emitImulRaxRcx : List Byte := [0x48, 0x0f, 0xaf, 0xc1]
def emitAddRaxImm32 (imm : BitVec 32) : List Byte := [0x48, 0x05] ++ emitU32 imm

def emitShlRaxImm8 (imm : BitVec 8) : List Byte := [0x48, 0xc1, 0xe0, imm]
def emitShrRaxImm8 (imm : BitVec 8) : List Byte := [0x48, 0xc1, 0xe8, imm]
def emitSarRaxImm8 (imm : BitVec 8) : List Byte := [0x48, 0xc1, 0xf8, imm]

def emitCallRax : List Byte := [0xff, 0xd0]
def emitRet : List Byte := [0xc3]

end Emitters

section Decoded

theorem bytes32_append (v : BitVec 32) :
    (v.extractLsb' 24 8 ++ v.extractLsb' 16 8 ++ v.extractLsb' 8 8 ++ v.extractLsb' 0 8 :
      BitVec 32) = v := by
  simp only [BitVec.extractLsb'_append_extractLsb'_eq_extractLsb', BitVec.extractLsb'_eq_self]

theorem emits_pushRbx : Emits (emitPushR64 x86Rbx) [.push .rbx] := .single (fun _ => rfl) rfl

theorem emits_popRbx : Emits (emitPopR64 x86Rbx) [.pop .rbx] := .single (fun _ => rfl) rfl

theorem emits_subRspImm32 (imm : BitVec 32) : Emits (emitSubRspImm32 imm) [.aluImm .sub .rsp imm] :=
  .single (fun _ => congrArg (fun v => some (Instr.aluImm .sub .rsp v)) (bytes32_append imm)) rfl

theorem emits_addRspImm32 (imm : BitVec 32) : Emits (emitAddRspImm32 imm) [.aluImm .add .rsp imm] :=
  .single (fun _ => congrArg (fun v => some (Instr.aluImm .add .rsp v)) (bytes32_append imm)) rfl

theorem emits_movRbxRsp : Emits emitMovRbxRsp [.movReg .rbx .rsp] := .single (fun _ => rfl) rfl

theorem emits_movRdiRbx : Emits emitMovRdiRbx [.movReg .rdi .rbx] := .single (fun _ => rfl) rfl

theorem emits_movMemDispFromRdi (disp : BitVec 32) :
    Emits (emitMovMemDispFromRdi disp) [.store .rbx disp .rdi] :=
  .single (fun _ => congrArg (fun v => some (Instr.store .rbx v .rdi)) (bytes32_append disp)) rfl

theorem emits_movMemDispFromRax (disp : BitVec 32) :
    Emits (emitMovMemDispFromRax disp) [.store .rbx disp .rax] :=
  .single (fun _ => congrArg (fun v => some (Instr.store .rbx v .rax)) (bytes32_append disp)) rfl

theorem emits_movRaxFromMemDisp (disp : BitVec 32) :
    Emits (emitMovRaxFromMemDisp disp) [.load .rax .rbx disp] :=
  .single (fun _ => congrArg (fun v => some (Instr.load .rax .rbx v)) (bytes32_append disp)) rfl

theorem emits_movRcxFromMemDisp (disp : BitVec 32) :
    Emits (emitMovRcxFromMemDisp disp) [.load .rcx .rbx disp] :=
  .single (fun _ => congrArg (fun v => some (Instr.load .rcx .rbx v)) (bytes32_append disp)) rfl

theorem emits_movRaxImm64 (imm : BitVec 64) : Emits (emitMovRaxImm64 imm) [.movImm .rax imm] :=
  .single (fun _ => congrArg (fun v => some (Instr.movImm .rax v)) (bytes_append imm)) rfl

theorem emits_xorRaxRax : Emits emitXorRaxRax [.alu .xor .rax .rax] := .single (fun _ => rfl) rfl

theorem emits_addRaxRcx : Emits emitAddRaxRcx [.alu .add .rax .rcx] := .single (fun _ => rfl) rfl

theorem emits_subRaxRcx : Emits emitSubRaxRcx [.alu .sub .rax .rcx] := .single (fun _ => rfl) rfl

theorem emits_orRaxRcx : Emits emitOrRaxRcx [.alu .or .rax .rcx] := .single (fun _ => rfl) rfl

theorem emits_andRaxRcx : Emits emitAndRaxRcx [.alu .and .rax .rcx] := .single (fun _ => rfl) rfl

theorem emits_xorRaxRcx : Emits emitXorRaxRcx [.alu .xor .rax .rcx] := .single (fun _ => rfl) rfl

theorem emits_imulRaxRcx : Emits emitImulRaxRcx [.imul .rax .rcx] := .single (fun _ => rfl) rfl

theorem emits_addRaxImm32 (imm : BitVec 32) : Emits (emitAddRaxImm32 imm) [.addRaxImm imm] :=
  .single (fun _ => congrArg (fun v => some (Instr.addRaxImm v)) (bytes32_append imm)) rfl

theorem emits_shlRaxImm8 (imm : BitVec 8) : Emits (emitShlRaxImm8 imm) [.shift .shl .rax imm] :=
  .single (fun _ => rfl) rfl

theorem emits_shrRaxImm8 (imm : BitVec 8) : Emits (emitShrRaxImm8 imm) [.shift .shr .rax imm] :=
  .single (fun _ => rfl) rfl

theorem emits_sarRaxImm8 (imm : BitVec 8) : Emits (emitSarRaxImm8 imm) [.shift .sar .rax imm] :=
  .single (fun _ => rfl) rfl

theorem emits_callRax : Emits emitCallRax [.call .rax] := .single (fun _ => rfl) rfl

theorem emits_ret : Emits emitRet [.ret] := .single (fun _ => rfl) rfl

end Decoded

end MerlinV
