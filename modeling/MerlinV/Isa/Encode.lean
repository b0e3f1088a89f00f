import MerlinV.Isa.Fields
import MerlinV.Lib.CarryBits

/-! # The encoding tables of the RISC-V manual

The six formats of the base encoding and, over them, the word of every instruction of the
permitted profile.  A word is read faithfully when the record the decoder makes of it encodes
to the same word; that holds exactly for the words of `ExactReading`.
-/
namespace MerlinV

section Formats

def assemble (f7 : BitVec 7) (rs2 rs1 : BitVec 5) (f3 : BitVec 3) (rd : BitVec 5) (op : BitVec 7) :
    BitVec 32 :=
  f7 ++ rs2 ++ rs1 ++ f3 ++ rd ++ op

def iType (imm : Word) (rs1 : BitVec 5) (f3 : BitVec 3) (rd : BitVec 5) (op : BitVec 7) : BitVec 32 :=
  assemble (imm.extractLsb' 5 7) (imm.extractLsb' 0 5) rs1 f3 rd op

def sType (imm : Word) (rs2 rs1 : BitVec 5) (f3 : BitVec 3) (op : BitVec 7) : BitVec 32 :=
  assemble (imm.extractLsb' 5 7) rs2 rs1 f3 (imm.extractLsb' 0 5) op

def bType (imm : Word) (rs2 rs1 : BitVec 5) (f3 : BitVec 3) (op : BitVec 7) : BitVec 32 :=
  assemble (imm.extractLsb' 12 1 ++ imm.extractLsb' 5 6) rs2 rs1 f3
    (imm.extractLsb' 1 4 ++ imm.extractLsb' 11 1) op

def uType (imm : Word) (rd : BitVec 5) (op : BitVec 7) : BitVec 32 :=
  assemble (imm.extractLsb' 25 7) (imm.extractLsb' 20 5) (imm.extractLsb' 15 5) (imm.extractLsb' 12 3) rd op

def jType (imm : Word) (rd : BitVec 5) (op : BitVec 7) : BitVec 32 :=
  assemble (imm.extractLsb' 20 1 ++ imm.extractLsb' 5 6) (imm.extractLsb' 1 4 ++ imm.extractLsb' 11 1)
    (imm.extractLsb' 15 5) (imm.extractLsb' 12 3) rd op

def shiftType (f6 : BitVec 6) (imm : Word) (rs1 : BitVec 5) (f3 : BitVec 3) (rd : BitVec 5) : BitVec 32 :=
  assemble (f6 ++ imm.extractLsb' 5 1) (imm.extractLsb' 0 5) rs1 f3 rd 0x13

theorem assemble_eq_iff {f7 op : BitVec 7} {rs2 rs1 rd : BitVec 5} {f3 : BitVec 3} {w : BitVec 32} :
    assemble f7 rs2 rs1 f3 rd op = w ↔
      f7 = w.extractLsb' 25 7 ∧ rs2 = w.extractLsb' 20 5 ∧ rs1 = w.extractLsb' 15 5 ∧
        f3 = w.extractLsb' 12 3 ∧ rd = w.extractLsb' 7 5 ∧ op = w.extractLsb' 0 7 := by
  rw [assemble, Lib.append_eq_iff, Lib.append_eq_iff, Lib.append_eq_iff, Lib.append_eq_iff, Lib.append_eq_iff]
  simp (disch := omega) only [Lib.extractLsb'_nested, and_assoc]

end Formats

section Tables

def branchFunct3 : BranchKind → BitVec 3
  | .beq => 0
  | .bne => 1
  | .blt => 4
  | .bge => 5
  | .bltu => 6
  | .bgeu => 7

def loadFunct3 : LoadKind → BitVec 3
  | .lb => 0
  | .lh => 1
  | .lw => 2
  | .ld => 3
  | .lbu => 4
  | .lhu => 5
  | .lwu => 6

def storeFunct3 : StoreKind → BitVec 3
  | .sb => 0
  | .sh => 1
  | .sw => 2
  | .sd => 3

def aluFunct : AluOp → BitVec 7 × BitVec 3
  | .add => (0, 0)
  | .sub => (0x20, 0)
  | .sll => (0, 1)
  | .slt => (0, 2)
  | .sltu => (0, 3)
  | .xor => (0, 4)
  | .srl => (0, 5)
  | .sra => (0x20, 5)
  | .or => (0, 6)
  | .and => (0, 7)
  | .mul => (1, 0)
  | .mulh => (1, 1)
  | .mulhsu => (1, 2)
  | .mulhu => (1, 3)
  | .div => (1, 4)
  | .divu => (1, 5)
  | .rem => (1, 6)
  | .remu => (1, 7)

def aluAllowed (cls : InsnClass) (wordOp : Bool) (op : AluOp) : Bool :=
  match cls, op with
  | .aluImm, .add | .aluImm, .slt | .aluImm, .sltu | .aluImm, .xor | .aluImm, .or | .aluImm, .and => true
  | .shiftImm, .sll | .shiftImm, .srl | .shiftImm, .sra => true
  | .aluReg, .add | .aluReg, .sub | .aluReg, .sll | .aluReg, .slt | .aluReg, .sltu | .aluReg, .xor
  | .aluReg, .srl | .aluReg, .sra | .aluReg, .or | .aluReg, .and => true
  | .aluImmW, .add | .aluImmW, .sll | .aluImmW, .srl | .aluImmW, .sra => true
  | .aluRegW, .add | .aluRegW, .sub | .aluRegW, .sll | .aluRegW, .srl | .aluRegW, .sra => true
  | .mul, .mul => true
  | .mul, .mulh | .mul, .mulhsu | .mul, .mulhu => !wordOp
  | .div, .div | .div, .divu | .div, .rem | .div, .remu => true
  | _, _ => false

def encode (inn : Insn) : Option (BitVec 32) :=
  let rd : BitVec 5 := .ofFin inn.rd
  let rs1 : BitVec 5 := .ofFin inn.rs1
  let rs2 : BitVec 5 := .ofFin inn.rs2
  let f7 := (aluFunct inn.aluOp).1
  let f3 := (aluFunct inn.aluOp).2
  match inn.cls with
  | .lui => some (uType inn.imm rd 0x37)
  | .auipc => some (uType inn.imm rd 0x17)
  | .jal => some (jType inn.imm rd 0x6f)
  | .jalr => some (iType inn.imm rs1 0 rd 0x67)
  | .branch => some (bType inn.imm rs2 rs1 (branchFunct3 inn.brKind) 0x63)
  | .load => some (iType inn.imm rs1 (loadFunct3 inn.ldKind) rd 0x03)
  | .store => some (sType inn.imm rs2 rs1 (storeFunct3 inn.stKind) 0x23)
  | .fence => some (iType inn.imm rs1 0 rd 0x0f)
  | .ecall => some 0x73
  | cls =>
    if aluAllowed cls inn.wordOp inn.aluOp then
      match cls with
      | .aluImm => some (iType inn.imm rs1 f3 rd 0x13)
      | .shiftImm => some (shiftType (f7.extractLsb' 1 6) inn.imm rs1 f3 rd)
      | .aluImmW =>
        if inn.aluOp = .add then some (iType inn.imm rs1 f3 rd 0x1b)
        else some (assemble f7 (inn.imm.extractLsb' 0 5) rs1 f3 rd 0x1b)
      | .aluReg => some (assemble f7 rs2 rs1 f3 rd 0x33)
      | .aluRegW => some (assemble f7 rs2 rs1 f3 rd 0x3b)
      | _ => some (assemble f7 rs2 rs1 f3 rd (if inn.wordOp then 0x3b else 0x33))
    else none

end Tables

section Fields

variable {w v : BitVec 32}

theorem bits_eq_iff (hi lo : ℕ) (h : hi < 32) (hlo : lo ≤ hi) (k : BitVec (hi - lo + 1)) :
    bits w hi lo = k.setWidth 32 ↔ w.extractLsb' lo (hi - lo + 1) = k := by
  rw [bits_eq_extract w h hlo]
  constructor
  · intro heq
    have := congrArg (BitVec.setWidth (hi - lo + 1)) heq
    simpa [BitVec.setWidth_setWidth_of_le _ (show hi - lo + 1 ≤ 32 by omega)] using this
  · intro heq
    rw [heq]

theorem ofFin_regField {lo : ℕ} (h : lo + 4 < 32) :
    (BitVec.ofFin (regField w lo) : BitVec 5) = w.extractLsb' lo 5 := by
  apply BitVec.eq_of_toNat_eq
  have hsub : lo + 4 - lo + 1 = 5 := by omega
  simp only [regField, Fin.val_ofNat, BitVec.toNat_ofFin, bits_toNat w h (Nat.le_add_right lo 4), hsub,
    BitVec.extractLsb'_toNat, Nat.shiftRight_eq_div_pow]
  omega

theorem opcode_extract {k : BitVec 7} (h : (bits w 6 0).toNat = k.toNat) : k = w.extractLsb' 0 7 := by
  apply BitVec.eq_of_toNat_eq
  rw [← h, bits_toNat w (by omega) (by omega), BitVec.extractLsb'_toNat, Nat.shiftRight_eq_div_pow]

theorem getLsbD_bits {hi lo i : ℕ} (h : hi < 32) (hlo : lo ≤ hi) :
    (bits w hi lo).getLsbD i = (decide (i < hi - lo + 1) && w.getLsbD (lo + i)) := by
  rw [bits_eq_extract w h hlo, BitVec.getLsbD_setWidth, BitVec.getLsbD_extractLsb']
  by_cases hi' : i < hi - lo + 1
  · have h32 : i < 32 := by omega
    simp [hi', h32]
  · simp [hi']

/-- Below its width an extension is the value itself. -/
theorem getLsbD_sext {k i : ℕ} (hk : k < 32) (hi : i < k + 1) (hv : v.toNat < 2 ^ (k + 1)) :
    ((sext v (k + 1)).signExtend 64).getLsbD i = v.getLsbD i := by
  have h32 : i < 32 := by omega
  have h64 : i < 64 := by omega
  rw [sext_eq_signExtend hk hv]
  simp only [BitVec.getLsbD_signExtend, BitVec.getLsbD_setWidth, hi, h32, h64, decide_true, Bool.true_and,
    if_true]

theorem immI_extract (w : BitVec 32) :
    (immI w).extractLsb' 5 7 = w.extractLsb' 25 7 ∧ (immI w).extractLsb' 0 5 = w.extractLsb' 20 5 := by
  have hbit : ∀ i < 12, (immI w).getLsbD i = (bits w 31 20).getLsbD i := fun i hi =>
    getLsbD_sext (by omega) hi (rawI_lt w)
  constructor
  all_goals
    apply BitVec.eq_of_getLsbD_eq
    intro i hi
    interval_cases i <;> simp [hbit, getLsbD_bits, -BitVec.getLsbD_eq_getElem]

theorem immS_extract (w : BitVec 32) :
    (immS w).extractLsb' 5 7 = w.extractLsb' 25 7 ∧ (immS w).extractLsb' 0 5 = w.extractLsb' 7 5 := by
  have hbit : ∀ i < 12, (immS w).getLsbD i = ((bits w 31 25 <<< 5) ||| bits w 11 7).getLsbD i := fun i hi =>
    getLsbD_sext (by omega) hi (rawS_lt w)
  constructor
  all_goals
    apply BitVec.eq_of_getLsbD_eq
    intro i hi
    interval_cases i <;> simp [hbit, getLsbD_bits, -BitVec.getLsbD_eq_getElem]

theorem immB_extract (w : BitVec 32) :
    (immB w).extractLsb' 12 1 ++ (immB w).extractLsb' 5 6 = w.extractLsb' 25 7 ∧
      (immB w).extractLsb' 1 4 ++ (immB w).extractLsb' 11 1 = w.extractLsb' 7 5 := by
  have hbit : ∀ i < 13, (immB w).getLsbD i = ((bits w 31 31 <<< 12) ||| (bits w 7 7 <<< 11) |||
      (bits w 30 25 <<< 5) ||| (bits w 11 8 <<< 1)).getLsbD i := fun i hi =>
    getLsbD_sext (by omega) hi (rawB_lt w)
  constructor
  all_goals
    apply BitVec.eq_of_getLsbD_eq
    intro i hi
    simp only [BitVec.getLsbD_append]
    interval_cases i <;> simp [hbit, getLsbD_bits, -BitVec.getLsbD_eq_getElem]

theorem immJ_extract (w : BitVec 32) :
    (immJ w).extractLsb' 20 1 ++ (immJ w).extractLsb' 5 6 = w.extractLsb' 25 7 ∧
      (immJ w).extractLsb' 1 4 ++ (immJ w).extractLsb' 11 1 = w.extractLsb' 20 5 ∧
      (immJ w).extractLsb' 15 5 = w.extractLsb' 15 5 ∧ (immJ w).extractLsb' 12 3 = w.extractLsb' 12 3 := by
  have hbit : ∀ i < 21, (immJ w).getLsbD i = ((bits w 31 31 <<< 20) ||| (bits w 19 12 <<< 12) |||
      (bits w 20 20 <<< 11) ||| (bits w 30 21 <<< 1)).getLsbD i := fun i hi =>
    getLsbD_sext (by omega) hi (rawJ_lt w)
  refine ⟨?_, ?_, ?_, ?_⟩
  all_goals
    apply BitVec.eq_of_getLsbD_eq
    intro i hi
    try simp only [BitVec.getLsbD_append]
    interval_cases i <;> simp [hbit, getLsbD_bits, -BitVec.getLsbD_eq_getElem]

theorem immU_extract (w : BitVec 32) :
    (immU w).extractLsb' 25 7 = w.extractLsb' 25 7 ∧ (immU w).extractLsb' 20 5 = w.extractLsb' 20 5 ∧
      (immU w).extractLsb' 15 5 = w.extractLsb' 15 5 ∧ (immU w).extractLsb' 12 3 = w.extractLsb' 12 3 := by
  refine ⟨?_, ?_, ?_, ?_⟩
  all_goals
    apply BitVec.eq_of_getLsbD_eq
    intro i hi
    interval_cases i <;> simp [immU, BitVec.getLsbD_signExtend, -BitVec.getLsbD_eq_getElem]

end Fields

section Faithful

def Legal (w : BitVec 32) : Prop := ∃ inn : Insn, inn.cls.permittedDefault = true ∧ encode inn = some w

/-- A permitted word is legal and encodes what the decoder has made of it. -/
def FaithfulAt (w pc : BitVec 32) : Prop :=
  merlinInsnPermittedDefault (merlinDecode w pc) = true → Legal w ∧ encode (merlinDecode w pc) = some w

/-- The words of which the decoder looks at every bit that matters: no reserved bits in a shift, no
other extension's `funct7`, and no fence with sets. -/
def ExactReading (w : BitVec 32) : Prop :=
  match (bits w 6 0).toNat with
  | 0x13 =>
    if bits w 14 12 = 1 then bits w 31 26 = 0
    else if bits w 14 12 = 5 then bits w 31 26 = 0 ∨ bits w 31 26 = 0x10
    else True
  | 0x33 => bits w 31 25 = 0 ∨ bits w 31 25 = 1 ∨
      bits w 31 25 = 0x20 ∧ (bits w 14 12 = 0 ∨ bits w 14 12 = 5)
  | 0x1b =>
    if bits w 14 12 = 1 then bits w 31 25 = 0
    else if bits w 14 12 = 5 then bits w 31 25 = 0 ∨ bits w 31 25 = 0x20
    else True
  | 0x3b =>
    if bits w 14 12 = 0 ∨ bits w 14 12 = 5 then
      bits w 31 25 = 0 ∨ bits w 31 25 = 1 ∨ bits w 31 25 = 0x20
    else if bits w 14 12 = 1 then bits w 31 25 = 0 ∨ bits w 31 25 = 1
    else True
  | 0x0f => bits w 14 12 ≠ 0 ∨ bits w 31 20 = 0
  | _ => True

def ExactOn (u : Insn) (w : BitVec 32) : Prop := u.cls.permittedDefault = true → encode u = some w

variable {w pc : BitVec 32} {u : Insn}

theorem faithfulAt_iff_exactOn : FaithfulAt w pc ↔ ExactOn (merlinDecode w pc) w := by
  constructor
  · intro h hp
    exact (h hp).2
  · intro h hp
    exact ⟨⟨_, hp, h hp⟩, h hp⟩

theorem exactOn_of_not_permitted (h : u.cls.permittedDefault = false) : ExactOn u w := by
  intro hp
  rw [h] at hp
  cases hp

@[simp] theorem blankInsn_rd : (BitVec.ofFin (blankInsn w pc).rd : BitVec 5) = w.extractLsb' 7 5 :=
  ofFin_regField (by omega)

@[simp] theorem blankInsn_rs1 : (BitVec.ofFin (blankInsn w pc).rs1 : BitVec 5) = w.extractLsb' 15 5 :=
  ofFin_regField (by omega)

@[simp] theorem blankInsn_rs2 : (BitVec.ofFin (blankInsn w pc).rs2 : BitVec 5) = w.extractLsb' 20 5 :=
  ofFin_regField (by omega)

@[simp] theorem blankInsn_wordOp : (blankInsn w pc).wordOp = false := rfl

theorem funct3_extract {k : BitVec 3} (h : bits w 14 12 = k.setWidth 32) : k = w.extractLsb' 12 3 :=
  ((bits_eq_iff 14 12 (by omega) (by omega) k).mp h).symm

theorem funct7_extract_iff {k : BitVec 7} : k = w.extractLsb' 25 7 ↔ bits w 31 25 = k.setWidth 32 :=
  ⟨fun h => (bits_eq_iff 31 25 (by omega) (by omega) k).mpr h.symm,
    fun h => ((bits_eq_iff 31 25 (by omega) (by omega) k).mp h).symm⟩

theorem iType_eq {f3 : BitVec 3} {op : BitVec 7} (hop : (bits w 6 0).toNat = op.toNat)
    (hf : bits w 14 12 = f3.setWidth 32) :
    iType (immI w) (w.extractLsb' 15 5) f3 (w.extractLsb' 7 5) op = w := by
  obtain ⟨h₁, h₂⟩ := immI_extract w
  exact assemble_eq_iff.mpr ⟨h₁, h₂, rfl, funct3_extract hf, rfl, opcode_extract hop⟩

/-- The register form gives its word back when `funct7` is the one of the table. -/
theorem rType_eq_iff {f7 op : BitVec 7} {f3 : BitVec 3} (hop : (bits w 6 0).toNat = op.toNat)
    (hf : bits w 14 12 = f3.setWidth 32) :
    assemble f7 (w.extractLsb' 20 5) (w.extractLsb' 15 5) f3 (w.extractLsb' 7 5) op = w ↔
      bits w 31 25 = f7.setWidth 32 := by
  rw [assemble_eq_iff, ← funct7_extract_iff]
  constructor
  · rintro ⟨h, -⟩
    exact h
  · intro h
    exact ⟨h, rfl, rfl, funct3_extract hf, rfl, opcode_extract hop⟩

theorem exactOn_op (hop : (bits w 6 0).toNat = 0x33) : ExactOn (decodeOp w (blankInsn w pc)) w ↔
    bits w 31 25 = 0 ∨ bits w 31 25 = 1 ∨
      bits w 31 25 = 0x20 ∧ (bits w 14 12 = 0 ∨ bits w 14 12 = 5) := by
  by_cases h₁ : bits w 31 25 = 1
  · rcases funct3_cases w with h | h | h | h | h | h | h | h <;>
      simp [decodeOp, h, h₁, ExactOn, InsnClass.permittedDefault, encode, aluAllowed, aluFunct, rType_eq_iff, hop]
  by_cases h₂ : bits w 31 25 = 0x20
  · rcases funct3_cases w with h | h | h | h | h | h | h | h <;>
      simp [decodeOp, h, h₂, ExactOn, InsnClass.permittedDefault, encode, aluAllowed, aluFunct, rType_eq_iff, hop]
  · rcases funct3_cases w with h | h | h | h | h | h | h | h <;>
      simp_all [decodeOp, ExactOn, InsnClass.permittedDefault, encode, aluAllowed, aluFunct, rType_eq_iff]

theorem shamt_extract (w : BitVec 32) :
    ((bits w 25 20).setWidth 64).extractLsb' 0 5 = w.extractLsb' 20 5 ∧
      ((bits w 25 20).setWidth 64).extractLsb' 5 1 = w.extractLsb' 25 1 ∧
      ((bits w 24 20).setWidth 64).extractLsb' 0 5 = w.extractLsb' 20 5 := by
  refine ⟨?_, ?_, ?_⟩
  all_goals
    apply BitVec.eq_of_getLsbD_eq
    intro i hi
    interval_cases i <;> simp [getLsbD_bits, -BitVec.getLsbD_eq_getElem]

theorem funct6_extract_iff {k : BitVec 6} :
    k ++ w.extractLsb' 25 1 = w.extractLsb' 25 7 ↔ bits w 31 26 = k.setWidth 32 := by
  rw [bits_eq_iff 31 26 (by omega) (by omega)]
  simp only [← BitVec.toNat_inj, Lib.toNat_append_eq, BitVec.extractLsb'_toNat, Nat.shiftRight_eq_div_pow]
  have hk := k.isLt
  omega

/-- A shift gives its word back when the six bits above the amount are those of the table. -/
theorem shift_eq_iff {f6 : BitVec 6} {f3 : BitVec 3} (hop : (bits w 6 0).toNat = 0x13)
    (hf : bits w 14 12 = f3.setWidth 32) :
    shiftType f6 ((bits w 25 20).setWidth 64) (w.extractLsb' 15 5) f3 (w.extractLsb' 7 5) = w ↔
      bits w 31 26 = f6.setWidth 32 := by
  obtain ⟨h₁, h₂, -⟩ := shamt_extract w
  rw [shiftType, h₁, h₂, assemble_eq_iff, ← funct6_extract_iff]
  constructor
  · rintro ⟨h, -⟩
    exact h
  · intro h
    exact ⟨h, rfl, rfl, funct3_extract hf, rfl, opcode_extract hop⟩

/-- Bit 30 tells the two right shifts apart. -/
theorem arithmetic_bit (w : BitVec 32) :
    (bits w 31 26 = 0 → bits w 30 30 = 0) ∧ (bits w 31 26 = 0x10 → bits w 30 30 ≠ 0) ∧
      (bits w 31 25 = 0 → bits w 30 30 = 0) ∧ (bits w 31 25 = 0x20 → bits w 30 30 ≠ 0) := by
  have h₀ : BitVec.toNat (0 : BitVec 32) = 0 := rfl
  have h₁ : BitVec.toNat (0x10 : BitVec 32) = 16 := rfl
  have h₂ : BitVec.toNat (0x20 : BitVec 32) = 32 := rfl
  simp only [ne_eq, ← BitVec.toNat_inj, bits_toNat w (show 31 < 32 by omega) (show 26 ≤ 31 by omega),
    bits_toNat w (show 30 < 32 by omega) (le_refl 30),
    bits_toNat w (show 31 < 32 by omega) (show 25 ≤ 31 by omega), h₀, h₁, h₂]
  omega

theorem exactOn_opImm (hop : (bits w 6 0).toNat = 0x13) : ExactOn (decodeOpImm w (blankInsn w pc)) w ↔
    if bits w 14 12 = 1 then bits w 31 26 = 0
    else if bits w 14 12 = 5 then bits w 31 26 = 0 ∨ bits w 31 26 = 0x10
    else True := by
  obtain ⟨hsrl, hsra, -⟩ := arithmetic_bit w
  rcases funct3_cases w with h | h | h | h | h | h | h | h
  case inr.inr.inr.inr.inr.inl =>
    by_cases hb : bits w 30 30 = 0
    · have hne : bits w 31 26 ≠ 0x10 := fun heq => hsra heq hb
      simp_all [decodeOpImm, ExactOn, InsnClass.permittedDefault, encode, aluAllowed, aluFunct, shift_eq_iff]
    · have hne : bits w 31 26 ≠ 0 := fun heq => hb (hsrl heq)
      simp_all [decodeOpImm, ExactOn, InsnClass.permittedDefault, encode, aluAllowed, aluFunct, shift_eq_iff]
  all_goals
    simp [decodeOpImm, h, ExactOn, InsnClass.permittedDefault, encode, aluAllowed, aluFunct, iType_eq,
      shift_eq_iff, hop]

theorem shiftW_eq_iff {f7 op : BitVec 7} {f3 : BitVec 3} (hop : (bits w 6 0).toNat = op.toNat)
    (hf : bits w 14 12 = f3.setWidth 32) :
    assemble f7 (((bits w 24 20).setWidth 64).extractLsb' 0 5) (w.extractLsb' 15 5) f3 (w.extractLsb' 7 5)
        op = w ↔ bits w 31 25 = f7.setWidth 32 := by
  rw [(shamt_extract w).2.2]
  exact rType_eq_iff hop hf

theorem exactOn_opImmW (hop : (bits w 6 0).toNat = 0x1b) : ExactOn (decodeOpImmW w (blankInsn w pc)) w ↔
    if bits w 14 12 = 1 then bits w 31 25 = 0
    else if bits w 14 12 = 5 then bits w 31 25 = 0 ∨ bits w 31 25 = 0x20
    else True := by
  obtain ⟨-, -, hsrl, hsra⟩ := arithmetic_bit w
  have hcls : (blankInsn w pc).cls = .invalid := rfl
  rcases funct3_cases w with h | h | h | h | h | h | h | h
  case inr.inr.inr.inr.inr.inl =>
    by_cases hb : bits w 30 30 = 0
    · have hne : bits w 31 25 ≠ 0x20 := fun heq => hsra heq hb
      simp_all [decodeOpImmW, ExactOn, InsnClass.permittedDefault, encode, aluAllowed, aluFunct, shiftW_eq_iff]
    · have hne : bits w 31 25 ≠ 0 := fun heq => hb (hsrl heq)
      simp_all [decodeOpImmW, ExactOn, InsnClass.permittedDefault, encode, aluAllowed, aluFunct, shiftW_eq_iff]
  all_goals
    simp [decodeOpImmW, h, ExactOn, InsnClass.permittedDefault, encode, aluAllowed, aluFunct, iType_eq,
      shiftW_eq_iff, hop, hcls]

theorem exactOn_opW (hop : (bits w 6 0).toNat = 0x3b) : ExactOn (decodeOpW w (blankInsn w pc)) w ↔
    if bits w 14 12 = 0 ∨ bits w 14 12 = 5 then
      bits w 31 25 = 0 ∨ bits w 31 25 = 1 ∨ bits w 31 25 = 0x20
    else if bits w 14 12 = 1 then bits w 31 25 = 0 ∨ bits w 31 25 = 1
    else True := by
  have hcls : (blankInsn w pc).cls = .invalid := rfl
  by_cases h₁ : bits w 31 25 = 1
  · rcases funct3_cases w with h | h | h | h | h | h | h | h <;>
      simp [decodeOpW, h, h₁, ExactOn, InsnClass.permittedDefault, encode, aluAllowed, aluFunct, rType_eq_iff, hop,
        hcls]
  by_cases h₂ : bits w 31 25 = 0x20
  · rcases funct3_cases w with h | h | h | h | h | h | h | h <;>
      simp [decodeOpW, h, h₂, ExactOn, InsnClass.permittedDefault, encode, aluAllowed, aluFunct, rType_eq_iff, hop,
        hcls]
  · rcases funct3_cases w with h | h | h | h | h | h | h | h <;>
      simp_all [decodeOpW, ExactOn, InsnClass.permittedDefault, encode, aluAllowed, aluFunct, rType_eq_iff]

theorem exactOn_branch (hop : (bits w 6 0).toNat = 0x63) :
    ExactOn (match branchKind? (bits w 14 12).toNat with
      | none => blankInsn w pc
      | some k => { blankInsn w pc with cls := .branch, brKind := k, imm := immB w }) w := by
  obtain ⟨h₁, h₂⟩ := immB_extract w
  have hword : ∀ {f3 : BitVec 3}, bits w 14 12 = f3.setWidth 32 →
      bType (immB w) (w.extractLsb' 20 5) (w.extractLsb' 15 5) f3 0x63 = w := fun hf =>
    assemble_eq_iff.mpr ⟨h₁, rfl, rfl, funct3_extract hf, h₂, opcode_extract hop⟩
  have hcls : (blankInsn w pc).cls = .invalid := rfl
  rcases funct3_cases w with h | h | h | h | h | h | h | h <;>
    simp [h, branchKind?, ExactOn, InsnClass.permittedDefault, encode, branchFunct3, hcls]
  all_goals exact hword (by rw [h]; rfl)

theorem exactOn_store (hop : (bits w 6 0).toNat = 0x23) :
    ExactOn (match storeKind? (bits w 14 12).toNat with
      | none => blankInsn w pc
      | some k => { blankInsn w pc with cls := .store, stKind := k, imm := immS w }) w := by
  obtain ⟨h₁, h₂⟩ := immS_extract w
  have hword : ∀ {f3 : BitVec 3}, bits w 14 12 = f3.setWidth 32 →
      sType (immS w) (w.extractLsb' 20 5) (w.extractLsb' 15 5) f3 0x23 = w := fun hf =>
    assemble_eq_iff.mpr ⟨h₁, rfl, rfl, funct3_extract hf, h₂, opcode_extract hop⟩
  have hcls : (blankInsn w pc).cls = .invalid := rfl
  rcases funct3_cases w with h | h | h | h | h | h | h | h <;>
    simp [h, storeKind?, ExactOn, InsnClass.permittedDefault, encode, storeFunct3, hcls]
  all_goals exact hword (by rw [h]; rfl)

theorem exactOn_load (hop : (bits w 6 0).toNat = 0x03) :
    ExactOn (match loadKind? (bits w 14 12).toNat with
      | none => blankInsn w pc
      | some k => { blankInsn w pc with cls := .load, ldKind := k, imm := immI w }) w := by
  have hcls : (blankInsn w pc).cls = .invalid := rfl
  rcases funct3_cases w with h | h | h | h | h | h | h | h <;>
    simp [h, loadKind?, ExactOn, InsnClass.permittedDefault, encode, loadFunct3, iType_eq, hop, hcls]

theorem exactOn_fence (hop : (bits w 6 0).toNat = 0x0f) :
    ExactOn (if bits w 14 12 = 0 then { blankInsn w pc with cls := .fence }
        else if bits w 14 12 = 1 then { blankInsn w pc with cls := .fenceI } else blankInsn w pc) w ↔
      bits w 14 12 ≠ 0 ∨ bits w 31 20 = 0 := by
  have hcls : (blankInsn w pc).cls = .invalid := rfl
  have himm : (blankInsn w pc).imm = 0 := rfl
  by_cases h : bits w 14 12 = 0
  · have hword : iType 0 (w.extractLsb' 15 5) 0 (w.extractLsb' 7 5) 0x0f = w ↔ bits w 31 20 = 0 := by
      have hf : (0 : BitVec 3) = w.extractLsb' 12 3 := funct3_extract (by rw [h]; rfl)
      have ho : (0x0f : BitVec 7) = w.extractLsb' 0 7 := opcode_extract hop
      have hzero : ∀ n, BitVec.toNat (0 : BitVec n) = 0 := fun _ => BitVec.toNat_zero
      rw [iType, assemble_eq_iff, ← hf, ← ho]
      simp only [and_true, ← BitVec.toNat_inj, BitVec.extractLsb'_toNat, Nat.shiftRight_eq_div_pow,
        bits_toNat w (show 31 < 32 by omega) (show 20 ≤ 31 by omega), hzero]
      omega
    simp [h, ExactOn, InsnClass.permittedDefault, encode, himm]
    exact hword
  · rw [if_neg h]
    refine iff_of_true (exactOn_of_not_permitted ?_) (.inl h)
    split <;> rfl

theorem exactOn_system : ExactOn (decodeSystem w (blankInsn w pc)) w := by
  unfold decodeSystem
  split_ifs with hf hw
  · intro _
    rw [hw]
    rfl
  all_goals exact exactOn_of_not_permitted rfl

theorem uType_eq {op : BitVec 7} (hop : (bits w 6 0).toNat = op.toNat) :
    uType (immU w) (w.extractLsb' 7 5) op = w := by
  obtain ⟨h₁, h₂, h₃, h₄⟩ := immU_extract w
  exact assemble_eq_iff.mpr ⟨h₁, h₂, h₃, h₄, rfl, opcode_extract hop⟩

theorem jType_eq {op : BitVec 7} (hop : (bits w 6 0).toNat = op.toNat) :
    jType (immJ w) (w.extractLsb' 7 5) op = w := by
  obtain ⟨h₁, h₂, h₃, h₄⟩ := immJ_extract w
  exact assemble_eq_iff.mpr ⟨h₁, h₂, h₃, h₄, rfl, opcode_extract hop⟩

theorem exactOn_major : ExactOn (decodeMajor w (blankInsn w pc)) w ↔ ExactReading w := by
  unfold decodeMajor ExactReading
  generalize hop : (bits w 6 0).toNat = op
  split
  · refine iff_true_intro fun _ => ?_
    simp only [encode, blankInsn_rd]
    exact congrArg some (uType_eq hop)
  · refine iff_true_intro fun _ => ?_
    simp only [encode, blankInsn_rd]
    exact congrArg some (uType_eq hop)
  · refine iff_true_intro fun _ => ?_
    simp only [encode, blankInsn_rd]
    exact congrArg some (jType_eq hop)
  · refine iff_true_intro ?_
    split
    · exact exactOn_of_not_permitted rfl
    · rename_i hf
      have hf0 : bits w 14 12 = (0 : BitVec 3).setWidth 32 := by simpa using hf
      intro _
      simp only [encode, blankInsn_rd, blankInsn_rs1]
      exact congrArg some (iType_eq hop hf0)
  · exact iff_true_intro (exactOn_branch hop)
  · exact iff_true_intro (exactOn_load hop)
  · exact iff_true_intro (exactOn_store hop)
  · exact exactOn_opImm hop
  · exact exactOn_op hop
  · exact exactOn_opImmW hop
  · exact exactOn_opW hop
  · exact exactOn_fence hop
  · exact iff_true_intro exactOn_system
  iterate 7 exact iff_true_intro (exactOn_of_not_permitted rfl)
  · have hout : ExactOn (blankInsn w pc) w := exactOn_of_not_permitted rfl
    split <;> simp_all

theorem exactReading_of_compressed (h : w &&& 3 ≠ 3) : ExactReading w := by
  have hlow := opcode_low_of_compressed h
  unfold ExactReading
  split
  case h_6 => trivial
  all_goals
    rename_i hop
    rw [hop] at hlow
    exact absurd rfl hlow

theorem faithfulAt_iff_exactReading : FaithfulAt w pc ↔ ExactReading w := by
  rw [faithfulAt_iff_exactOn]
  unfold merlinDecode
  by_cases h : w &&& 0x3 ≠ 0x3
  · rw [if_pos h]
    exact iff_of_true (exactOn_of_not_permitted rfl) (exactReading_of_compressed h)
  · rw [if_neg h]
    exact exactOn_major

structure SameInsn (a b : Insn) : Prop where
  cls : a.cls = b.cls
  rd : a.rd = b.rd
  rs1 : a.rs1 = b.rs1
  rs2 : a.rs2 = b.rs2
  imm : a.imm = b.imm
  brKind : a.brKind = b.brKind
  ldKind : a.ldKind = b.ldKind
  stKind : a.stKind = b.stKind
  aluOp : a.aluOp = b.aluOp
  wordOp : a.wordOp = b.wordOp

theorem SameInsn.encode_eq {a b : Insn} (h : SameInsn a b) : encode a = encode b := by
  obtain ⟨h₁, h₂, h₃, h₄, h₅, h₆, h₇, h₈, h₉, h₁₀⟩ := h
  unfold encode
  rw [h₁, h₂, h₃, h₄, h₅, h₆, h₇, h₈, h₉, h₁₀]

/-- The decoder is faithful to the encoding tables exactly on the words of `ExactReading`, and on
those no two permitted words decode to the same instruction. -/
theorem decode_faithful_iff (w w' pc pc' : BitVec 32) :
    (FaithfulAt w pc ↔ ExactReading w) ∧
      (ExactReading w → ExactReading w' →
        merlinInsnPermittedDefault (merlinDecode w pc) = true →
        merlinInsnPermittedDefault (merlinDecode w' pc') = true →
        SameInsn (merlinDecode w pc) (merlinDecode w' pc') → w = w') := by
  refine ⟨faithfulAt_iff_exactReading, ?_⟩
  intro hw hw' hp hp' hsame
  have henc := (faithfulAt_iff_exactReading.mpr hw hp).2
  have henc' := (faithfulAt_iff_exactReading.mpr hw' hp').2
  rw [hsame.encode_eq, henc'] at henc
  exact (Option.some.inj henc).symm

/-- `andn a0, a0, a1` of Zbb passes as `and`. -/
theorem andn_not_faithful : ¬ ∀ w pc, FaithfulAt w pc := by
  intro h
  have henc := (h 0x40b57533 0 (by decide)).2
  revert henc
  decide

end Faithful

end MerlinV
