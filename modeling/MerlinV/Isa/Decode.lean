import Mathlib.Tactic

/-! # The instruction decoder of the verifier

`tools/merlin-verifier/decode.c` recognises every RV64IM word a MERLIN-V program
may contain and every word that has to be refused by class.  The bit-field
extractors, the five immediate forms and the dispatch on the major opcode are
kept as the source has them; the return code of `merlin_decode` is always zero.
-/
namespace MerlinV

abbrev Word := BitVec 64
abbrev Reg := Fin 32

instance Reg.neZero : NeZero 32 := ⟨by decide⟩

inductive InsnClass where
  | invalid | unsupported
  | lui | auipc | jal | jalr | branch | load | store | aluImm | shiftImm | aluReg
  | fence | ecall | ebreak
  | aluImmW | aluRegW
  | mul | div
  | csr | priv | fenceI | float
  deriving DecidableEq, Repr

inductive BranchKind where
  | beq | bne | blt | bge | bltu | bgeu
  deriving DecidableEq, Repr

inductive LoadKind where
  | lb | lh | lw | ld | lbu | lhu | lwu
  deriving DecidableEq, Repr

inductive StoreKind where
  | sb | sh | sw | sd
  deriving DecidableEq, Repr

inductive AluOp where
  | add | sub | sll | slt | sltu | xor | srl | sra | or | and
  | mul | div | divu | rem | remu | mulh | mulhu | mulhsu
  deriving DecidableEq, Repr

/-- `struct merlin_insn`.  The per-class extras a class does not set keep a default here. -/
structure Insn where
  raw : BitVec 32
  pc : BitVec 32
  cls : InsnClass := .invalid
  rd : Reg
  rs1 : Reg
  rs2 : Reg
  imm : Word := 0
  brKind : BranchKind := .beq
  ldKind : LoadKind := .lb
  stKind : StoreKind := .sb
  aluOp : AluOp := .add
  wordOp : Bool := false
  deriving DecidableEq, Repr

def bits (w : BitVec 32) (hi lo : ℕ) : BitVec 32 :=
  (w >>> lo) &&& ((1#32 <<< (hi - lo + 1)) - 1#32)

def sext (v : BitVec 32) (width : ℕ) : BitVec 32 :=
  (v ^^^ (1#32 <<< (width - 1))) - (1#32 <<< (width - 1))

def immI (w : BitVec 32) : Word := (sext (bits w 31 20) 12).signExtend 64

def immS (w : BitVec 32) : Word :=
  (sext ((bits w 31 25 <<< 5) ||| bits w 11 7) 12).signExtend 64

def immB (w : BitVec 32) : Word :=
  (sext ((bits w 31 31 <<< 12) ||| (bits w 7 7 <<< 11) ||| (bits w 30 25 <<< 5) |||
    (bits w 11 8 <<< 1)) 13).signExtend 64

def immU (w : BitVec 32) : Word := (w &&& 0xfffff000#32).signExtend 64

def immJ (w : BitVec 32) : Word :=
  (sext ((bits w 31 31 <<< 20) ||| (bits w 19 12 <<< 12) ||| (bits w 20 20 <<< 11) |||
    (bits w 30 21 <<< 1)) 21).signExtend 64

def regField (w : BitVec 32) (lo : ℕ) : Reg := Fin.ofNat 32 (bits w (lo + 4) lo).toNat

/-- The fields `merlin_decode` fills before it looks at the opcode. -/
def blankInsn (w pc : BitVec 32) : Insn where
  raw := w
  pc := pc
  rd := regField w 7
  rs1 := regField w 15
  rs2 := regField w 20

def branchKind? : ℕ → Option BranchKind
  | 0 => some .beq
  | 1 => some .bne
  | 4 => some .blt
  | 5 => some .bge
  | 6 => some .bltu
  | 7 => some .bgeu
  | _ => none

def loadKind? : ℕ → Option LoadKind
  | 0 => some .lb
  | 1 => some .lh
  | 2 => some .lw
  | 3 => some .ld
  | 4 => some .lbu
  | 5 => some .lhu
  | 6 => some .lwu
  | _ => none

def storeKind? : ℕ → Option StoreKind
  | 0 => some .sb
  | 1 => some .sh
  | 2 => some .sw
  | 3 => some .sd
  | _ => none

def decodeOpImm (w : BitVec 32) (out : Insn) : Insn :=
  match (bits w 14 12).toNat with
  | 0 => { out with cls := .aluImm, aluOp := .add, imm := immI w }
  | 2 => { out with cls := .aluImm, aluOp := .slt, imm := immI w }
  | 3 => { out with cls := .aluImm, aluOp := .sltu, imm := immI w }
  | 4 => { out with cls := .aluImm, aluOp := .xor, imm := immI w }
  | 6 => { out with cls := .aluImm, aluOp := .or, imm := immI w }
  | 7 => { out with cls := .aluImm, aluOp := .and, imm := immI w }
  | 1 => { out with cls := .shiftImm, aluOp := .sll, imm := (bits w 25 20).setWidth 64 }
  | 5 => { out with
      cls := .shiftImm
      aluOp := if bits w 30 30 ≠ 0 then .sra else .srl
      imm := (bits w 25 20).setWidth 64 }
  | _ => out

def decodeOp (w : BitVec 32) (out : Insn) : Insn :=
  if bits w 31 25 = 0x01 then
    match (bits w 14 12).toNat with
    | 0 => { out with cls := .mul, aluOp := .mul }
    | 1 => { out with cls := .mul, aluOp := .mulh }
    | 2 => { out with cls := .mul, aluOp := .mulhsu }
    | 3 => { out with cls := .mul, aluOp := .mulhu }
    | 4 => { out with cls := .div, aluOp := .div }
    | 5 => { out with cls := .div, aluOp := .divu }
    | 6 => { out with cls := .div, aluOp := .rem }
    | 7 => { out with cls := .div, aluOp := .remu }
    | _ => out
  else
    match (bits w 14 12).toNat with
    | 0 => { out with cls := .aluReg, aluOp := if bits w 31 25 = 0x20 then .sub else .add }
    | 1 => { out with cls := .aluReg, aluOp := .sll }
    | 2 => { out with cls := .aluReg, aluOp := .slt }
    | 3 => { out with cls := .aluReg, aluOp := .sltu }
    | 4 => { out with cls := .aluReg, aluOp := .xor }
    | 5 => { out with cls := .aluReg, aluOp := if bits w 31 25 = 0x20 then .sra else .srl }
    | 6 => { out with cls := .aluReg, aluOp := .or }
    | _ => { out with cls := .aluReg, aluOp := .and }

def decodeOpImmW (w : BitVec 32) (out : Insn) : Insn :=
  match (bits w 14 12).toNat with
  | 0 => { out with cls := .aluImmW, wordOp := true, aluOp := .add, imm := immI w }
  | 1 => { out with
      cls := .aluImmW, wordOp := true, aluOp := .sll, imm := (bits w 24 20).setWidth 64 }
  | 5 => { out with
      cls := .aluImmW
      wordOp := true
      aluOp := if bits w 30 30 ≠ 0 then .sra else .srl
      imm := (bits w 24 20).setWidth 64 }
  | _ => { out with wordOp := true }

def decodeOpW (w : BitVec 32) (out : Insn) : Insn :=
  if bits w 31 25 = 0x01 then
    match (bits w 14 12).toNat with
    | 0 => { out with cls := .mul, wordOp := true, aluOp := .mul }
    | 4 => { out with cls := .div, wordOp := true, aluOp := .div }
    | 5 => { out with cls := .div, wordOp := true, aluOp := .divu }
    | 6 => { out with cls := .div, wordOp := true, aluOp := .rem }
    | 7 => { out with cls := .div, wordOp := true, aluOp := .remu }
    | _ => { out with wordOp := true }
  else
    match (bits w 14 12).toNat with
    | 0 => { out with
        cls := .aluRegW, wordOp := true, aluOp := if bits w 31 25 = 0x20 then .sub else .add }
    | 1 => { out with cls := .aluRegW, wordOp := true, aluOp := .sll }
    | 5 => { out with
        cls := .aluRegW, wordOp := true, aluOp := if bits w 31 25 = 0x20 then .sra else .srl }
    | _ => { out with wordOp := true }

def decodeSystem (w : BitVec 32) (out : Insn) : Insn :=
  if bits w 14 12 = 0 then
    if w = 0x00000073 then { out with cls := .ecall }
    else if w = 0x00100073 then { out with cls := .ebreak }
    else { out with cls := .priv }
  else { out with cls := .csr }

def decodeMajor (w : BitVec 32) (out : Insn) : Insn :=
  match (bits w 6 0).toNat with
  | 0x37 => { out with cls := .lui, imm := immU w }
  | 0x17 => { out with cls := .auipc, imm := immU w }
  | 0x6f => { out with cls := .jal, imm := immJ w }
  | 0x67 => if bits w 14 12 ≠ 0 then out else { out with cls := .jalr, imm := immI w }
  | 0x63 =>
    match branchKind? (bits w 14 12).toNat with
    | none => out
    | some k => { out with cls := .branch, brKind := k, imm := immB w }
  | 0x03 =>
    match loadKind? (bits w 14 12).toNat with
    | none => out
    | some k => { out with cls := .load, ldKind := k, imm := immI w }
  | 0x23 =>
    match storeKind? (bits w 14 12).toNat with
    | none => out
    | some k => { out with cls := .store, stKind := k, imm := immS w }
  | 0x13 => decodeOpImm w out
  | 0x33 => decodeOp w out
  | 0x1b => decodeOpImmW w out
  | 0x3b => decodeOpW w out
  | 0x0f =>
    if bits w 14 12 = 0 then { out with cls := .fence }
    else if bits w 14 12 = 1 then { out with cls := .fenceI }
    else out
  | 0x73 => decodeSystem w out
  | 0x07 => { out with cls := .float }
  | 0x27 => { out with cls := .float }
  | 0x43 => { out with cls := .float }
  | 0x47 => { out with cls := .float }
  | 0x4b => { out with cls := .float }
  | 0x4f => { out with cls := .float }
  | 0x53 => { out with cls := .float }
  | _ => out

/-- `merlin_decode`: compressed encodings are recognised as unsupported first. -/
def merlinDecode (w pc : BitVec 32) : Insn :=
  if w &&& 0x3 ≠ 0x3 then { blankInsn w pc with cls := .unsupported }
  else decodeMajor w (blankInsn w pc)

/-- The program counter is carried along and decides nothing. -/
theorem decodeMajor_pc (w pc : BitVec 32) (out : Insn) :
    decodeMajor w { out with pc := pc } = { decodeMajor w out with pc := pc } := by
  simp only [decodeMajor, decodeOpImm, decodeOp, decodeOpImmW, decodeOpW, decodeSystem]
  repeat' split
  all_goals rfl

theorem merlinDecode_pc (w pc pc' : BitVec 32) :
    merlinDecode w pc = { merlinDecode w pc' with pc := pc } := by
  unfold merlinDecode
  split
  · rfl
  · exact decodeMajor_pc w pc (blankInsn w pc')

theorem merlinDecode_raw (w pc : BitVec 32) : (merlinDecode w pc).raw = w := by
  simp only [merlinDecode, decodeMajor, decodeOpImm, decodeOp, decodeOpImmW, decodeOpW, decodeSystem]
  repeat' split
  all_goals rfl

def InsnClass.permittedDefault : InsnClass → Bool
  | .ebreak | .csr | .priv | .fenceI | .float | .invalid | .unsupported => false
  | _ => true

def merlinInsnPermittedDefault (inn : Insn) : Bool := inn.cls.permittedDefault

/-- What the CFG builder and the analysis ask of a decoder: `none` stands for a negative
return code. -/
structure Decoder where
  decode : BitVec 32 → BitVec 32 → Option Insn
  permitted : Insn → Bool

def merlinDecoder : Decoder where
  decode w pc := some (merlinDecode w pc)
  permitted := merlinInsnPermittedDefault

example : (merlinDecode 0x20100893 0).cls = .aluImm ∧ (merlinDecode 0x20100893 0).rd = 17 ∧
    (merlinDecode 0x20100893 0).imm = 0x201 := by decide

end MerlinV
