import MerlinV.Isa.KernelDecode
import MerlinV.Machine.Rv32

/-! # The decoder of the RTOS build

`zephyr/merlin/src/decode.c` reads RV32 words with 32-bit immediates.  Branches, loads and stores
are taken with any `funct3` and immediate shifts with any `funct7`, so the decoder knows more words
than the manual does.  On the words of RV32IM the two read the same instruction.
-/
namespace MerlinV.Zephyr

structure Insn where
  raw : BitVec 32
  pc : BitVec 32
  cls : InsnClass := .invalid
  rd : Reg
  rs1 : Reg
  rs2 : Reg
  imm : BitVec 32 := 0
  aluOp : AluOp := .add
  wordOp : Bool := false
  deriving DecidableEq, Repr

def sext (v : BitVec 32) (width : ℕ) : BitVec 32 := (v <<< (32 - width)).sshiftRight (32 - width)

def immI (i : BitVec 32) : BitVec 32 := i.sshiftRight 20

def immS (i : BitVec 32) : BitVec 32 := sext ((bits i 31 25 <<< 5) ||| bits i 11 7) 12

def immB (i : BitVec 32) : BitVec 32 :=
  sext ((bits i 31 31 <<< 12) ||| (bits i 7 7 <<< 11) ||| (bits i 30 25 <<< 5) ||| (bits i 11 8 <<< 1)) 13

def immU (i : BitVec 32) : BitVec 32 := i &&& 0xfffff000#32

def immJ (i : BitVec 32) : BitVec 32 :=
  sext ((bits i 31 31 <<< 20) ||| (bits i 19 12 <<< 12) ||| (bits i 20 20 <<< 11) |||
    (bits i 30 21 <<< 1)) 21

def immShamt (i : BitVec 32) : BitVec 32 := (i >>> 20) &&& 0x1f#32

def blank (w pc : BitVec 32) : Insn where
  raw := w
  pc := pc
  rd := regField w 7
  rs1 := regField w 15
  rs2 := regField w 20

def decodeOpImm (w : BitVec 32) (out : Insn) : Option Insn :=
  match (bits w 14 12).toNat with
  | 0 => some { out with cls := .aluImm, aluOp := .add, imm := immI w }
  | 1 => some { out with cls := .shiftImm, aluOp := .sll, imm := immShamt w }
  | 2 => some { out with cls := .aluImm, aluOp := .slt, imm := immI w }
  | 3 => some { out with cls := .aluImm, aluOp := .sltu, imm := immI w }
  | 4 => some { out with cls := .aluImm, aluOp := .xor, imm := immI w }
  | 5 => some { out with
      cls := .shiftImm
      aluOp := if bits w 31 25 &&& 0x20 ≠ 0 then .sra else .srl
      imm := immShamt w }
  | 6 => some { out with cls := .aluImm, aluOp := .or, imm := immI w }
  | 7 => some { out with cls := .aluImm, aluOp := .and, imm := immI w }
  | _ => none

def decodeOp (w : BitVec 32) (out : Insn) : Option Insn :=
  let f3 := (bits w 14 12).toNat
  let f7 := (bits w 31 25).toNat
  if f7 = 1 then
    match f3 with
    | 0 => some { out with cls := .mul, aluOp := .mul }
    | 1 => some { out with cls := .mul, aluOp := .mulh }
    | 2 => some { out with cls := .mul, aluOp := .mulhsu }
    | 3 => some { out with cls := .mul, aluOp := .mulhu }
    | 4 => some { out with cls := .div, aluOp := .div }
    | 5 => some { out with cls := .div, aluOp := .divu }
    | 6 => some { out with cls := .div, aluOp := .rem }
    | _ => some { out with cls := .div, aluOp := .remu }
  else if f7 = 0x20 ∧ (f3 = 0 ∨ f3 = 5) then
    some { out with cls := .aluReg, aluOp := if f3 = 0 then .sub else .sra }
  else if f7 = 0 then
    match f3 with
    | 0 => some { out with cls := .aluReg, aluOp := .add }
    | 1 => some { out with cls := .aluReg, aluOp := .sll }
    | 2 => some { out with cls := .aluReg, aluOp := .slt }
    | 3 => some { out with cls := .aluReg, aluOp := .sltu }
    | 4 => some { out with cls := .aluReg, aluOp := .xor }
    | 5 => some { out with cls := .aluReg, aluOp := .srl }
    | 6 => some { out with cls := .aluReg, aluOp := .or }
    | _ => some { out with cls := .aluReg, aluOp := .and }
  else none

def decodeSystem (w : BitVec 32) (out : Insn) : Insn :=
  if bits w 14 12 = 0 ∧ out.rd = 0 ∧ out.rs1 = 0 then
    if w >>> 20 = 0 then { out with cls := .ecall }
    else if w >>> 20 = 1 then { out with cls := .ebreak }
    else { out with cls := .priv }
  else { out with cls := .csr }

/-- The `switch` over the opcode; `none` is the return code -1. -/
def decodeMajor (w : BitVec 32) (out : Insn) : Option Insn :=
  match (w &&& 0x7f).toNat with
  | 0x37 => some { out with cls := .lui, imm := immU w }
  | 0x17 => some { out with cls := .auipc, imm := immU w }
  | 0x6f => some { out with cls := .jal, imm := immJ w }
  | 0x67 => if bits w 14 12 ≠ 0 then none else some { out with cls := .jalr, imm := immI w }
  | 0x63 => some { out with cls := .branch, imm := immB w }
  | 0x03 => some { out with cls := .load, imm := immI w }
  | 0x23 => some { out with cls := .store, imm := immS w }
  | 0x13 => decodeOpImm w out
  | 0x33 => decodeOp w out
  | 0x0f => some { out with cls := if bits w 14 12 = 1 then .fenceI else .fence }
  | 0x73 => some (decodeSystem w out)
  | 0x2f => some { out with cls := .unsupported }
  | 0x07 => some { out with cls := .float }
  | 0x27 => some { out with cls := .float }
  | 0x43 => some { out with cls := .float }
  | 0x47 => some { out with cls := .float }
  | 0x4b => some { out with cls := .float }
  | 0x4f => some { out with cls := .float }
  | 0x53 => some { out with cls := .float }
  | _ => none

def merlinDecode (w pc : BitVec 32) : Option Insn :=
  if w &&& 3 ≠ 3 then some { blank w pc with cls := .unsupported, rd := 0, rs1 := 0, rs2 := 0 }
  else decodeMajor w (blank w pc)

def merlinInsnPermittedRtos (inn : Insn) : Bool :=
  match inn.cls with
  | .lui | .auipc | .jal | .jalr | .branch | .load | .store | .aluImm | .shiftImm | .aluReg | .fence
  | .ecall | .mul | .div => true
  | _ => false

section Reads

variable {w pc : BitVec 32}

/-- The record has the fields of an instruction, with its immediate cut to 32 bits. -/
structure Reads (z : Insn) (u : MerlinV.Insn) : Prop where
  cls : z.cls = u.cls
  rd : z.rd = u.rd
  rs1 : z.rs1 = u.rs1
  rs2 : z.rs2 = u.rs2
  imm : z.imm = Rv32.imm u
  aluOp : z.aluOp = u.aluOp

def ReadsOn (o : Option Insn) (u : MerlinV.Insn) : Prop := ∃ z, o = some z ∧ Reads z u

theorem readsOn_some {z : Insn} {u : MerlinV.Insn} : ReadsOn (some z) u ↔ z.cls = u.cls ∧ z.rd = u.rd ∧
    z.rs1 = u.rs1 ∧ z.rs2 = u.rs2 ∧ z.imm = u.imm.setWidth 32 ∧ z.aluOp = u.aluOp := by
  constructor
  · rintro ⟨z', hz, h⟩
    obtain rfl := Option.some.inj hz
    exact ⟨h.cls, h.rd, h.rs1, h.rs2, h.imm, h.aluOp⟩
  · rintro ⟨h₁, h₂, h₃, h₄, h₅, h₆⟩
    exact ⟨z, rfl, h₁, h₂, h₃, h₄, h₅, h₆⟩

theorem setWidth_signExtend (v : BitVec 32) : (v.signExtend 64).setWidth 32 = v := by
  apply BitVec.eq_of_getLsbD_eq
  intro i hi
  rw [BitVec.getLsbD_setWidth, BitVec.getLsbD_signExtend]
  simp [hi, show i < 64 by omega]

theorem immI_eq (w : BitVec 32) : immI w = (MerlinV.immI w).setWidth 32 := by
  have hfield : bits w 31 20 = (w.extractLsb' 20 12).setWidth 32 := bits_eq_extract w (by omega) (by omega)
  rw [MerlinV.immI, setWidth_signExtend, sext_eq_signExtend (by omega) (rawI_lt w), hfield, immI]
  apply BitVec.eq_of_getLsbD_eq
  intro i hi
  rw [BitVec.getLsbD_sshiftRight, BitVec.getLsbD_signExtend, BitVec.msb_eq_getLsbD_last,
    BitVec.msb_eq_getLsbD_last]
  by_cases hlow : i < 12
  · simp [hlow, hi, show 20 + i < 32 by omega]
  · simp [hlow, hi, show ¬ 20 + i < 32 by omega, show ¬ 32 ≤ i by omega]

theorem immS_eq (w : BitVec 32) : immS w = (MerlinV.immS w).setWidth 32 := by
  rw [← Kernel.immS_eq]
  exact (setWidth_signExtend _).symm

theorem immB_eq (w : BitVec 32) : immB w = (MerlinV.immB w).setWidth 32 := by
  rw [← Kernel.immB_eq]
  exact (setWidth_signExtend _).symm

theorem immJ_eq (w : BitVec 32) : immJ w = (MerlinV.immJ w).setWidth 32 := by
  rw [← Kernel.immJ_eq]
  exact (setWidth_signExtend _).symm

theorem immU_eq (w : BitVec 32) : immU w = (MerlinV.immU w).setWidth 32 := (setWidth_signExtend _).symm

/-- A shift amount below 32 is the five bits that the decoder reads. -/
theorem immShamt_eq (h : ((bits w 25 20).setWidth 64).toNat < 32) :
    immShamt w = ((bits w 25 20).setWidth 64).setWidth 32 := by
  have hsix : (bits w 25 20).toNat < 2 ^ 64 := lt_of_lt_of_le (bits w 25 20).isLt (by norm_num)
  rw [BitVec.toNat_setWidth, Nat.mod_eq_of_lt hsix, bits_toNat w (by omega) (by omega)] at h
  apply BitVec.eq_of_toNat_eq
  have hmask : (0x1f#32).toNat = 2 ^ 5 - 1 := rfl
  rw [immShamt, BitVec.toNat_and, hmask, Nat.and_two_pow_sub_one_eq_mod, BitVec.toNat_ushiftRight,
    Nat.shiftRight_eq_div_pow, BitVec.toNat_setWidth, BitVec.toNat_setWidth, Nat.mod_eq_of_lt hsix,
    bits_toNat w (by omega) (by omega)]
  omega

theorem readsOn_opImm (hrv : Rv32.isRv32 (MerlinV.decodeOpImm w (blankInsn w 0)) = true) :
    ReadsOn (decodeOpImm w (blank w pc)) (MerlinV.decodeOpImm w (blankInsn w 0)) := by
  have hbit := Kernel.funct7_and_iff w
  rcases funct3_cases w with h | h | h | h | h | h | h | h
  case inr.inl =>
    have hamt : ((bits w 25 20).setWidth 64).toNat < 32 := by
      simpa [MerlinV.decodeOpImm, h, Rv32.isRv32] using hrv
    simp [decodeOpImm, MerlinV.decodeOpImm, h, readsOn_some, blank, blankInsn, immShamt_eq hamt]
  case inr.inr.inr.inr.inr.inl =>
    have hamt : ((bits w 25 20).setWidth 64).toNat < 32 := by
      simpa [MerlinV.decodeOpImm, h, Rv32.isRv32] using hrv
    simp [decodeOpImm, MerlinV.decodeOpImm, h, readsOn_some, blank, blankInsn, immShamt_eq hamt, hbit]
  all_goals
    simp [decodeOpImm, MerlinV.decodeOpImm, h, readsOn_some, blank, blankInsn, immI_eq]

/-- The table of register operations, for the `funct7` that the manual gives. -/
theorem readsOn_op (hf7 : bits w 31 25 = 0 ∨ bits w 31 25 = 1 ∨
      bits w 31 25 = 0x20 ∧ (bits w 14 12 = 0 ∨ bits w 14 12 = 5)) :
    ReadsOn (decodeOp w (blank w pc)) (MerlinV.decodeOp w (blankInsn w 0)) := by
  rcases hf7 with hf | hf | ⟨hf, h | h⟩
  · rcases funct3_cases w with h | h | h | h | h | h | h | h <;>
      simp [decodeOp, MerlinV.decodeOp, h, hf, readsOn_some, blank, blankInsn]
  · rcases funct3_cases w with h | h | h | h | h | h | h | h <;>
      simp [decodeOp, MerlinV.decodeOp, h, hf, readsOn_some, blank, blankInsn]
  · simp [decodeOp, MerlinV.decodeOp, h, hf, readsOn_some, blank, blankInsn]
  · simp [decodeOp, MerlinV.decodeOp, h, hf, readsOn_some, blank, blankInsn]

theorem readsOn_system
    (hperm : (MerlinV.decodeSystem w (blankInsn w 0)).cls.permittedDefault = true) :
    ReadsOn (some (decodeSystem w (blank w pc))) (MerlinV.decodeSystem w (blankInsn w 0)) := by
  have hw : w = 0x73 := by
    unfold MerlinV.decodeSystem at hperm
    split_ifs at hperm with h₁ h₂ h₃
    · exact h₂
    all_goals cases hperm
  subst hw
  exact readsOn_some.mpr ⟨rfl, rfl, rfl, rfl, rfl, rfl⟩

theorem not_rv32_opImmW (hperm : (decodeOpImmW w (blankInsn w 0)).cls.permittedDefault = true) :
    Rv32.isRv32 (decodeOpImmW w (blankInsn w 0)) = false := by
  rcases funct3_cases w with h | h | h | h | h | h | h | h <;>
    simp_all [decodeOpImmW, Rv32.isRv32, InsnClass.permittedDefault, blankInsn]

theorem not_rv32_opW (hperm : (decodeOpW w (blankInsn w 0)).cls.permittedDefault = true) :
    Rv32.isRv32 (decodeOpW w (blankInsn w 0)) = false := by
  by_cases hf : bits w 31 25 = 0x01
  · rcases funct3_cases w with h | h | h | h | h | h | h | h <;>
      simp_all [decodeOpW, Rv32.isRv32, InsnClass.permittedDefault, blankInsn]
  · rcases funct3_cases w with h | h | h | h | h | h | h | h <;>
      simp_all [decodeOpW, Rv32.isRv32, InsnClass.permittedDefault, blankInsn]

/-- On the words of RV32IM the decoder reads the instruction of the manual. -/
theorem readsOn_of_insnOf {insn : MerlinV.Insn} (h : Rv32.insnOf w = some insn) :
    ReadsOn (merlinDecode w pc) insn := by
  obtain ⟨hisa, hrv⟩ := Rv32.insnOf_eq_some h
  obtain ⟨rfl, hperm⟩ := isaInsn_eq_some hisa
  have hexact : encode (MerlinV.merlinDecode w 0) = some w ∨ (MerlinV.merlinDecode w 0).cls = .fence := by
    unfold isaInsn at hisa
    dsimp only at hisa
    split at hisa
    · rename_i hp
      exact hp.2
    · cases hisa
  unfold MerlinV.merlinDecode at hperm hrv hexact ⊢
  unfold merlinDecode
  split at hperm
  · cases hperm
  rename_i hlow
  rw [if_neg hlow] at hrv hexact ⊢
  rw [if_neg (by exact hlow)]
  unfold MerlinV.decodeMajor at hperm hrv hexact ⊢
  unfold decodeMajor
  rw [Kernel.opcode_eq]
  generalize hop : (bits w 6 0).toNat = op at hperm hrv hexact ⊢
  revert hperm hrv hexact
  split <;> intro hperm hrv hexact
  · exact readsOn_some.mpr ⟨rfl, rfl, rfl, rfl, immU_eq w, rfl⟩
  · exact readsOn_some.mpr ⟨rfl, rfl, rfl, rfl, immU_eq w, rfl⟩
  · exact readsOn_some.mpr ⟨rfl, rfl, rfl, rfl, immJ_eq w, rfl⟩
  · split at hperm
    · cases hperm
    · rename_i hf
      simp only [if_neg hf]
      exact readsOn_some.mpr ⟨rfl, rfl, rfl, rfl, immI_eq w, rfl⟩
  · cases hk : branchKind? (bits w 14 12).toNat with
    | none =>
      rw [hk] at hperm
      cases hperm
    | some k => exact readsOn_some.mpr ⟨rfl, rfl, rfl, rfl, immB_eq w, rfl⟩
  · cases hk : loadKind? (bits w 14 12).toNat with
    | none =>
      rw [hk] at hperm
      cases hperm
    | some k => exact readsOn_some.mpr ⟨rfl, rfl, rfl, rfl, immI_eq w, rfl⟩
  · cases hk : storeKind? (bits w 14 12).toNat with
    | none =>
      rw [hk] at hperm
      cases hperm
    | some k => exact readsOn_some.mpr ⟨rfl, rfl, rfl, rfl, immS_eq w, rfl⟩
  · exact readsOn_opImm hrv
  · have hnot : (MerlinV.decodeOp w (blankInsn w 0)).cls ≠ .fence := by
      unfold MerlinV.decodeOp
      repeat' split
      all_goals nofun
    have hon : ExactOn (MerlinV.decodeOp w (blankInsn w 0)) w := fun _ => hexact.resolve_right hnot
    exact readsOn_op ((exactOn_op hop).mp hon)
  · rw [not_rv32_opImmW hperm] at hrv
    cases hrv
  · rw [not_rv32_opW hperm] at hrv
    cases hrv
  · split_ifs at hperm with h₀ h₁
    · have hne : bits w 14 12 ≠ 1 := by
        rw [h₀]
        decide
      simp only [if_pos h₀, if_neg hne]
      exact readsOn_some.mpr ⟨rfl, rfl, rfl, rfl, rfl, rfl⟩
    · cases hperm
    · cases hperm
  · exact readsOn_system hperm
  iterate 7 cases hperm
  · cases hperm

end Reads

end MerlinV.Zephyr
