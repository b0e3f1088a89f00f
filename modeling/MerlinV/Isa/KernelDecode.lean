import MerlinV.Isa.Fields

/-! # The decoder of the kernel

`kernel/merlin/decode.c` is meant to be the same function as the userland decoder.  It is
modelled on its own, with its immediates and its dispatch, and compared word by word: the two
agree exactly on the words of `SameReading`.
-/
namespace MerlinV.Kernel

def signExt (v : BitVec 32) (width : ℕ) : BitVec 32 := (v <<< (32 - width)).sshiftRight (32 - width)

/-- `imm_i`: the shift is one of an unsigned word, so nothing is extended. -/
def immI (insn : BitVec 32) : Word := (insn >>> 20).signExtend 64

def immS (insn : BitVec 32) : Word :=
  (signExt ((bits insn 31 25 <<< 5) ||| bits insn 11 7) 12).signExtend 64

def immB (insn : BitVec 32) : Word :=
  (signExt ((bits insn 31 31 <<< 12) ||| (bits insn 7 7 <<< 11) ||| (bits insn 30 25 <<< 5) |||
    (bits insn 11 8 <<< 1)) 13).signExtend 64

def immU (insn : BitVec 32) : Word := (insn &&& 0xfffff000#32).signExtend 64

def immJ (insn : BitVec 32) : Word :=
  (signExt ((bits insn 31 31 <<< 20) ||| (bits insn 19 12 <<< 12) ||| (bits insn 20 20 <<< 11) |||
    (bits insn 30 21 <<< 1)) 21).signExtend 64

def immShamt (insn : BitVec 32) (rv64 : Bool) : Word :=
  ((insn >>> 20) &&& (if rv64 then 0x3f#32 else 0x1f#32)).setWidth 64

def blank (insn pc : BitVec 32) : Insn where
  raw := insn
  pc := pc
  rd := regField insn 7
  rs1 := regField insn 15
  rs2 := regField insn 20

def decodeAlui (insn : BitVec 32) (out : Insn) : Option Insn :=
  match (bits insn 14 12).toNat with
  | 0 => some { out with cls := .aluImm, aluOp := .add, imm := immI insn }
  | 1 => some { out with cls := .shiftImm, aluOp := .sll, imm := immShamt insn true }
  | 2 => some { out with cls := .aluImm, aluOp := .slt, imm := immI insn }
  | 3 => some { out with cls := .aluImm, aluOp := .sltu, imm := immI insn }
  | 4 => some { out with cls := .aluImm, aluOp := .xor, imm := immI insn }
  | 5 => some { out with
      cls := .shiftImm
      aluOp := if bits insn 31 25 &&& 0x20 ≠ 0 then .sra else .srl
      imm := immShamt insn true }
  | 6 => some { out with cls := .aluImm, aluOp := .or, imm := immI insn }
  | 7 => some { out with cls := .aluImm, aluOp := .and, imm := immI insn }
  | _ => none

def mulDivOp : ℕ → AluOp
  | 0 => .mul
  | 1 => .mulh
  | 2 => .mulhsu
  | 3 => .mulhu
  | 4 => .div
  | 5 => .divu
  | 6 => .rem
  | _ => .remu

def aluOps : ℕ → AluOp
  | 0 => .add
  | 1 => .sll
  | 2 => .slt
  | 3 => .sltu
  | 4 => .xor
  | 5 => .srl
  | 6 => .or
  | _ => .and

def decodeAlur (insn : BitVec 32) (out : Insn) : Option Insn :=
  let funct3 := (bits insn 14 12).toNat
  let funct7 := bits insn 31 25
  if funct7 = 1 then
    some { out with cls := if funct3 < 4 then .mul else .div, aluOp := mulDivOp funct3 }
  else if funct7 = 0x20 ∧ (funct3 = 0 ∨ funct3 = 5) then
    some { out with cls := .aluReg, aluOp := if funct3 = 0 then .sub else .sra }
  else if funct7 = 0 then some { out with cls := .aluReg, aluOp := aluOps funct3 }
  else none

def decodeAluiw (insn : BitVec 32) (out : Insn) : Option Insn :=
  match (bits insn 14 12).toNat with
  | 0 => some { out with cls := .aluImmW, wordOp := true, aluOp := .add, imm := immI insn }
  | 1 => some { out with cls := .aluImmW, wordOp := true, aluOp := .sll, imm := immShamt insn false }
  | 5 => some { out with
      cls := .aluImmW
      wordOp := true
      aluOp := if bits insn 31 25 &&& 0x20 ≠ 0 then .sra else .srl
      imm := immShamt insn false }
  | _ => none

/-- The table `w_ops`; the entries left zero are `ALU_ADD`. -/
def wOps : ℕ → AluOp
  | 1 => .sll
  | 5 => .srl
  | _ => .add

/-- Case `OP_ALUW`; the M operations keep the zero of `memset` as their `alu_op`. -/
def decodeAluw (insn : BitVec 32) (out : Insn) : Option Insn :=
  let funct3 := (bits insn 14 12).toNat
  let funct7 := bits insn 31 25
  if funct7 = 1 then some { out with cls := if funct3 < 4 then .mul else .div, wordOp := true }
  else if funct7 = 0x20 ∧ (funct3 = 0 ∨ funct3 = 5) then
    some { out with cls := .aluRegW, wordOp := true, aluOp := if funct3 = 0 then .sub else .sra }
  else if funct7 = 0 then some { out with cls := .aluRegW, wordOp := true, aluOp := wOps funct3 }
  else none

def decodeSystem (insn : BitVec 32) (out : Insn) : Insn :=
  if bits insn 14 12 = 0 ∧ out.rd = 0 ∧ out.rs1 = 0 then
    if insn >>> 20 = 0 then { out with cls := .ecall }
    else if insn >>> 20 = 1 then { out with cls := .ebreak }
    else { out with cls := .priv }
  else { out with cls := .csr }

def decodeMajor (insn : BitVec 32) (out : Insn) : Option Insn :=
  match (insn &&& 0x7f).toNat with
  | 0x37 => some { out with cls := .lui, imm := immU insn }
  | 0x17 => some { out with cls := .auipc, imm := immU insn }
  | 0x6f => some { out with cls := .jal, imm := immJ insn }
  | 0x67 => if bits insn 14 12 ≠ 0 then none else some { out with cls := .jalr, imm := immI insn }
  | 0x63 => (branchKind? (bits insn 14 12).toNat).map fun k =>
      { out with cls := .branch, imm := immB insn, brKind := k }
  | 0x03 => (loadKind? (bits insn 14 12).toNat).map fun k =>
      { out with cls := .load, imm := immI insn, ldKind := k }
  | 0x23 => (storeKind? (bits insn 14 12).toNat).map fun k =>
      { out with cls := .store, imm := immS insn, stKind := k }
  | 0x13 => decodeAlui insn out
  | 0x33 => decodeAlur insn out
  | 0x1b => decodeAluiw insn out
  | 0x3b => decodeAluw insn out
  | 0x0f => some { out with cls := if bits insn 14 12 = 1 then .fenceI else .fence }
  | 0x73 => some (decodeSystem insn out)
  | 0x2f => some { out with cls := .unsupported }
  | 0x07 => some { out with cls := .float }
  | 0x27 => some { out with cls := .float }
  | 0x43 => some { out with cls := .float }
  | 0x47 => some { out with cls := .float }
  | 0x4b => some { out with cls := .float }
  | 0x4f => some { out with cls := .float }
  | 0x53 => some { out with cls := .float }
  | _ => none

def merlinDecode (insn pc : BitVec 32) : Option Insn :=
  if insn &&& 3 ≠ 3 then some { blank insn pc with cls := .unsupported, rd := 0, rs1 := 0, rs2 := 0 }
  else decodeMajor insn (blank insn pc)

theorem decodeMajor_pc (w pc : BitVec 32) (out : Insn) :
    decodeMajor w { out with pc := pc } = (decodeMajor w out).map fun u => { u with pc := pc } := by
  simp only [decodeMajor, decodeAlui, decodeAlur, decodeAluiw, decodeAluw, decodeSystem]
  split
  all_goals try rfl
  all_goals try (simp only [Option.map_map]; rfl)
  all_goals
    repeat' split
    all_goals rfl

theorem merlinDecode_pc (w pc pc' : BitVec 32) :
    merlinDecode w pc = (merlinDecode w pc').map fun u => { u with pc := pc } := by
  unfold merlinDecode
  split
  · rfl
  · exact decodeMajor_pc w pc (blank w pc')

def merlinInsnPermittedDefault (inn : Insn) : Bool :=
  match inn.cls with
  | .lui | .auipc | .jal | .jalr | .branch | .load | .store | .aluImm | .shiftImm | .aluReg | .fence
  | .ecall | .aluImmW | .aluRegW | .mul | .div => true
  | _ => false

def merlinDecoder : Decoder where
  decode := merlinDecode
  permitted := merlinInsnPermittedDefault

section Immediates

variable {w v : BitVec 32}

theorem signExt_eq_signExtend {k : ℕ} (hk : k < 32) :
    signExt v (k + 1) = (v.setWidth (k + 1)).signExtend 32 := by
  apply BitVec.eq_of_getLsbD_eq
  intro i hi
  rw [signExt, BitVec.getLsbD_sshiftRight, BitVec.getLsbD_signExtend, BitVec.msb_eq_getLsbD_last,
    BitVec.msb_eq_getLsbD_last]
  simp only [BitVec.getLsbD_shiftLeft, BitVec.getLsbD_setWidth, Nat.add_sub_cancel]
  by_cases hik : i < k + 1
  · have hin : 31 - k + i < 32 := by omega
    simp [hik, hin, hi]
  · have hout : ¬ 31 - k + i < 32 := by omega
    have hsign : 31 - (31 - k) = k := by omega
    have hle : ¬ 31 < 31 - k := by omega
    have hlt : ¬ 32 ≤ i := by omega
    simp [hik, hout, hsign, hle, hlt, hi]

theorem immS_eq (w : BitVec 32) : immS w = MerlinV.immS w := by
  rw [immS, MerlinV.immS, signExt_eq_signExtend (by omega), sext_eq_signExtend (by omega) (rawS_lt w)]

theorem immB_eq (w : BitVec 32) : immB w = MerlinV.immB w := by
  rw [immB, MerlinV.immB, signExt_eq_signExtend (by omega), sext_eq_signExtend (by omega) (rawB_lt w)]

theorem immJ_eq (w : BitVec 32) : immJ w = MerlinV.immJ w := by
  rw [immJ, MerlinV.immJ, signExt_eq_signExtend (by omega), sext_eq_signExtend (by omega) (rawJ_lt w)]

/-- The shift leaves the sign behind: the immediates agree when there is none. -/
theorem immI_eq_iff (w : BitVec 32) : immI w = MerlinV.immI w ↔ bits w 31 31 = 0 := by
  have hfield : bits w 31 20 = (w.extractLsb' 20 12).setWidth 32 := bits_eq_extract w (by omega) (by omega)
  have hshift : (w >>> 20).toNat < 2 ^ 31 := by
    rw [BitVec.toNat_ushiftRight, Nat.shiftRight_eq_div_pow]
    have := w.isLt
    omega
  rw [← BitVec.toInt_inj, ← BitVec.toNat_inj, immI, MerlinV.immI, sext_eq_signExtend (by omega) (rawI_lt w),
    BitVec.toInt_signExtend_of_le (by omega), BitVec.toInt_signExtend_of_le (by omega),
    BitVec.toInt_signExtend_of_le (by omega), BitVec.toInt_eq_toNat_cond, BitVec.toInt_eq_toNat_cond,
    BitVec.toNat_setWidth, bits_toNat w (by omega) (by omega), bits_toNat w (by omega) (by omega),
    BitVec.toNat_ushiftRight, Nat.shiftRight_eq_div_pow]
  have hw := w.isLt
  have hzero : BitVec.toNat (0 : BitVec 32) = 0 := rfl
  rw [hzero]
  split_ifs <;> omega

theorem immShamt_true (w : BitVec 32) : immShamt w true = (bits w 25 20).setWidth 64 := rfl

theorem immShamt_false (w : BitVec 32) : immShamt w false = (bits w 24 20).setWidth 64 := rfl

theorem funct7_and_iff (w : BitVec 32) : bits w 31 25 &&& 32#32 = 0#32 ↔ bits w 30 30 = 0#32 := by
  have h₇ : ∀ e : BitVec 7, (e.setWidth 32 &&& 32#32 = 0#32 ↔ e.getLsbD 5 = false) := by decide
  have h₁ : ∀ e : BitVec 1, (e.setWidth 32 = 0#32 ↔ e.getLsbD 0 = false) := by decide
  rw [bits_eq_extract w (by omega) (by omega), bits_eq_extract w (by omega) (by omega), h₇, h₁]
  simp

end Immediates

section Compare

structure SameFields (a b : Insn) : Prop where
  cls : a.cls = b.cls
  rd : a.rd = b.rd
  rs1 : a.rs1 = b.rs1
  rs2 : a.rs2 = b.rs2
  aluOp : a.aluOp = b.aluOp
  ldKind : a.ldKind = b.ldKind
  stKind : a.stKind = b.stKind
  brKind : a.brKind = b.brKind
  imm : a.imm = b.imm

def Accepts (d : Decoder) (w pc : BitVec 32) (inn : Insn) : Prop :=
  d.decode w pc = some inn ∧ d.permitted inn = true

/-- When either decoder accepts a word, both do and they read the same instruction. -/
def DecodersAgree (w pc : BitVec 32) : Prop :=
  ((∃ a, Accepts merlinDecoder w pc a) ∨ ∃ b, Accepts MerlinV.merlinDecoder w pc b) →
    ∃ a b, Accepts merlinDecoder w pc a ∧ Accepts MerlinV.merlinDecoder w pc b ∧ SameFields a b

/-- The words both decoders read alike: no negative immediate of the I form, no `funct7` that only
one of the decoders looks at, no M operation of the W form, and no third kind of fence. -/
def SameReading (w : BitVec 32) : Prop :=
  match (bits w 6 0).toNat with
  | 0x67 => bits w 14 12 ≠ 0 ∨ bits w 31 31 = 0
  | 0x03 => bits w 14 12 = 7 ∨ bits w 31 31 = 0
  | 0x13 => bits w 14 12 = 1 ∨ bits w 14 12 = 5 ∨ bits w 31 31 = 0
  | 0x33 => bits w 31 25 = 0 ∨ bits w 31 25 = 1 ∨
      bits w 31 25 = 0x20 ∧ (bits w 14 12 = 0 ∨ bits w 14 12 = 5)
  | 0x1b => bits w 14 12 ≠ 0 ∨ bits w 31 31 = 0
  | 0x3b =>
    if bits w 14 12 = 0 ∨ bits w 14 12 = 5 then bits w 31 25 = 0 ∨ bits w 31 25 = 0x20
    else if bits w 14 12 = 1 then bits w 31 25 = 0
    else bits w 31 25 ≠ 0 ∧ bits w 31 25 ≠ 1
  | 0x0f => bits w 14 12 = 0 ∨ bits w 14 12 = 1
  | _ => True

def AgreeOn (k : Option Insn) (u : Insn) : Prop :=
  ((∃ a, k = some a ∧ a.cls.permittedDefault = true) ∨ u.cls.permittedDefault = true) →
    ∃ a, k = some a ∧ a.cls.permittedDefault = true ∧ u.cls.permittedDefault = true ∧ SameFields a u

variable {w pc : BitVec 32} {a u out : Insn}

theorem permittedDefault_eq (inn : Insn) : merlinInsnPermittedDefault inn = inn.cls.permittedDefault := by
  unfold merlinInsnPermittedDefault InsnClass.permittedDefault
  cases inn.cls <;> rfl

theorem decodersAgree_iff_agreeOn :
    DecodersAgree w pc ↔ AgreeOn (merlinDecode w pc) (MerlinV.merlinDecode w pc) := by
  simp only [DecodersAgree, AgreeOn, Accepts, merlinDecoder, MerlinV.merlinDecoder, permittedDefault_eq,
    MerlinV.merlinInsnPermittedDefault, Option.some.injEq]
  constructor
  · intro h hor
    obtain ⟨a, b, ⟨ha, hpa⟩, ⟨rfl, hpb⟩, hsame⟩ := h (hor.imp id fun hu => ⟨_, rfl, hu⟩)
    exact ⟨a, ha, hpa, hpb, hsame⟩
  · intro h hor
    obtain ⟨a, ha, hpa, hpu, hsame⟩ := h (hor.imp id (by rintro ⟨b, rfl, hb⟩; exact hb))
    exact ⟨a, _, ⟨ha, hpa⟩, ⟨rfl, hpu⟩, hsame⟩

theorem agreeOn_none : AgreeOn none u ↔ u.cls.permittedDefault = false := by
  simp [AgreeOn]

theorem agreeOn_some : AgreeOn (some a) u ↔
    (a.cls.permittedDefault = true ∨ u.cls.permittedDefault = true → SameFields a u) := by
  unfold AgreeOn
  constructor
  · intro h hor
    obtain ⟨a', ha, -, -, hsame⟩ := h (hor.imp_left fun ha => ⟨a, rfl, ha⟩)
    rw [Option.some.inj ha]
    exact hsame
  · intro h hor
    have hor' : a.cls.permittedDefault = true ∨ u.cls.permittedDefault = true :=
      hor.imp_left fun ⟨_, heq, ha⟩ => Option.some.inj heq ▸ ha
    have hsame := h hor'
    rw [hsame.cls, or_self] at hor'
    exact ⟨a, rfl, hsame.cls ▸ hor', hor', hsame⟩

theorem agreeOn_same (h : SameFields a u) : AgreeOn (some a) u := agreeOn_some.mpr fun _ => h

theorem agreeOn_refl : AgreeOn (some a) a := agreeOn_same ⟨rfl, rfl, rfl, rfl, rfl, rfl, rfl, rfl, rfl⟩

theorem sameFields_iff : SameFields a u ↔ a.cls = u.cls ∧ a.rd = u.rd ∧ a.rs1 = u.rs1 ∧ a.rs2 = u.rs2 ∧
    a.aluOp = u.aluOp ∧ a.ldKind = u.ldKind ∧ a.stKind = u.stKind ∧ a.brKind = u.brKind ∧ a.imm = u.imm :=
  ⟨fun ⟨a, b, c, d, e, f, g, h, i⟩ => ⟨a, b, c, d, e, f, g, h, i⟩,
    fun ⟨a, b, c, d, e, f, g, h, i⟩ => ⟨a, b, c, d, e, f, g, h, i⟩⟩

theorem agreeOn_alui : AgreeOn (decodeAlui w out) (decodeOpImm w out) ↔
    bits w 14 12 = 1 ∨ bits w 14 12 = 5 ∨ bits w 31 31 = 0 := by
  rcases funct3_cases w with h | h | h | h | h | h | h | h <;>
    simp [decodeAlui, decodeOpImm, h, agreeOn_some, sameFields_iff, InsnClass.permittedDefault, immI_eq_iff,
      immShamt_true, funct7_and_iff]

theorem agreeOn_aluiw : AgreeOn (decodeAluiw w (blankInsn w pc)) (decodeOpImmW w (blankInsn w pc)) ↔
    bits w 14 12 ≠ 0 ∨ bits w 31 31 = 0 := by
  rcases funct3_cases w with h | h | h | h | h | h | h | h <;>
    simp [decodeAluiw, decodeOpImmW, h, agreeOn_some, agreeOn_none, sameFields_iff, InsnClass.permittedDefault,
      immI_eq_iff, immShamt_false, funct7_and_iff, blankInsn]

theorem agreeOn_alur : AgreeOn (decodeAlur w out) (decodeOp w out) ↔
    bits w 31 25 = 0 ∨ bits w 31 25 = 1 ∨
      bits w 31 25 = 0x20 ∧ (bits w 14 12 = 0 ∨ bits w 14 12 = 5) := by
  by_cases h₀ : bits w 31 25 = 0
  · rcases funct3_cases w with h | h | h | h | h | h | h | h <;>
      simp [decodeAlur, decodeOp, h, h₀, agreeOn_refl, aluOps]
  by_cases h₁ : bits w 31 25 = 1
  · rcases funct3_cases w with h | h | h | h | h | h | h | h <;>
      simp [decodeAlur, decodeOp, h, h₁, agreeOn_refl, mulDivOp]
  by_cases h₂ : bits w 31 25 = 0x20
  · rcases funct3_cases w with h | h | h | h | h | h | h | h <;>
      simp [decodeAlur, decodeOp, h, h₂, agreeOn_refl, agreeOn_none, InsnClass.permittedDefault]
  · rcases funct3_cases w with h | h | h | h | h | h | h | h <;>
      simp_all [decodeAlur, decodeOp, agreeOn_none, InsnClass.permittedDefault]

theorem agreeOn_aluw : AgreeOn (decodeAluw w (blankInsn w pc)) (decodeOpW w (blankInsn w pc)) ↔
    if bits w 14 12 = 0 ∨ bits w 14 12 = 5 then bits w 31 25 = 0 ∨ bits w 31 25 = 0x20
    else if bits w 14 12 = 1 then bits w 31 25 = 0
    else bits w 31 25 ≠ 0 ∧ bits w 31 25 ≠ 1 := by
  by_cases h₀ : bits w 31 25 = 0
  · rcases funct3_cases w with h | h | h | h | h | h | h | h <;>
      simp [decodeAluw, decodeOpW, h, h₀, agreeOn_some, sameFields_iff, wOps, InsnClass.permittedDefault, blankInsn]
  by_cases h₁ : bits w 31 25 = 1
  · rcases funct3_cases w with h | h | h | h | h | h | h | h <;>
      simp [decodeAluw, decodeOpW, h, h₁, agreeOn_some, sameFields_iff, InsnClass.permittedDefault, blankInsn]
  by_cases h₂ : bits w 31 25 = 0x20
  · rcases funct3_cases w with h | h | h | h | h | h | h | h <;>
      simp [decodeAluw, decodeOpW, h, h₂, agreeOn_some, agreeOn_none, sameFields_iff, InsnClass.permittedDefault,
        blankInsn]
  · rcases funct3_cases w with h | h | h | h | h | h | h | h <;>
      simp_all [decodeAluw, decodeOpW, agreeOn_none, InsnClass.permittedDefault, blankInsn]

theorem opcode_eq (w : BitVec 32) : w &&& 0x7f = bits w 6 0 := by
  simp [bits]

theorem agreeOn_load : AgreeOn ((loadKind? (bits w 14 12).toNat).map fun k =>
      { blankInsn w pc with cls := .load, imm := immI w, ldKind := k })
    (match loadKind? (bits w 14 12).toNat with
      | none => blankInsn w pc
      | some k => { blankInsn w pc with cls := .load, ldKind := k, imm := MerlinV.immI w }) ↔
    bits w 14 12 = 7 ∨ bits w 31 31 = 0 := by
  rcases funct3_cases w with h | h | h | h | h | h | h | h <;>
    simp [h, loadKind?, agreeOn_some, agreeOn_none, sameFields_iff, InsnClass.permittedDefault, immI_eq_iff,
      blankInsn]

theorem agreeOn_fence :
    AgreeOn (some { blankInsn w pc with cls := if bits w 14 12 = 1 then .fenceI else .fence })
      (if bits w 14 12 = 0 then { blankInsn w pc with cls := .fence }
        else if bits w 14 12 = 1 then { blankInsn w pc with cls := .fenceI } else blankInsn w pc) ↔
    bits w 14 12 = 0 ∨ bits w 14 12 = 1 := by
  rcases funct3_cases w with h | h | h | h | h | h | h | h <;>
    simp [h, agreeOn_some, sameFields_iff, InsnClass.permittedDefault, blankInsn]

theorem ecall_word (hop : (bits w 6 0).toNat = 0x73)
    (hzero : bits w 14 12 = 0 ∧ (blankInsn w pc).rd = 0 ∧ (blankInsn w pc).rs1 = 0) (himm : w >>> 20 = 0) :
    w = 0x73 := by
  obtain ⟨hf, hrd, hrs⟩ := hzero
  replace hf := congrArg BitVec.toNat hf
  replace hrd := congrArg Fin.val hrd
  replace hrs := congrArg Fin.val hrs
  replace himm := congrArg BitVec.toNat himm
  simp only [blankInsn, regField, Fin.val_ofNat, BitVec.toNat_ushiftRight, Nat.shiftRight_eq_div_pow,
    bits_toNat w (show 14 < 32 by omega) (show 12 ≤ 14 by omega),
    bits_toNat w (show 7 + 4 < 32 by omega) (show 7 ≤ 7 + 4 by omega),
    bits_toNat w (show 15 + 4 < 32 by omega) (show 15 ≤ 15 + 4 by omega),
    bits_toNat w (show 6 < 32 by omega) (show 0 ≤ 6 by omega)] at hf hrd hrs himm hop
  apply BitVec.eq_of_toNat_eq
  change w.toNat = 0x73
  change _ = 0 at hf hrd hrs himm
  omega

theorem agreeOn_system (hop : (bits w 6 0).toNat = 0x73) :
    AgreeOn (some (decodeSystem w (blankInsn w pc))) (MerlinV.decodeSystem w (blankInsn w pc)) := by
  by_cases hw : w = 0x73
  · subst hw
    exact agreeOn_refl
  · have hkernel : (decodeSystem w (blankInsn w pc)).cls.permittedDefault = false := by
      unfold decodeSystem
      split_ifs with hzero himm
      · exact absurd (ecall_word hop hzero himm) hw
      · rfl
      · rfl
      · rfl
    have huser : (MerlinV.decodeSystem w (blankInsn w pc)).cls.permittedDefault = false := by
      unfold MerlinV.decodeSystem
      split_ifs <;> rfl
    rw [agreeOn_some, hkernel, huser]
    simp

theorem agreeOn_major : AgreeOn (decodeMajor w (blankInsn w pc)) (MerlinV.decodeMajor w (blankInsn w pc)) ↔
    SameReading w := by
  unfold decodeMajor MerlinV.decodeMajor SameReading
  rw [opcode_eq]
  generalize hop : (bits w 6 0).toNat = op
  split
  · exact iff_true_intro agreeOn_refl
  · exact iff_true_intro agreeOn_refl
  · rw [immJ_eq]
    exact iff_true_intro agreeOn_refl
  · rcases funct3_cases w with h | h | h | h | h | h | h | h <;>
      simp [h, agreeOn_some, agreeOn_none, sameFields_iff, InsnClass.permittedDefault, immI_eq_iff, blankInsn]
  · rw [immB_eq]
    refine iff_true_intro ?_
    cases branchKind? (bits w 14 12).toNat with
    | none => exact agreeOn_none.mpr rfl
    | some k => exact agreeOn_refl
  · exact agreeOn_load
  · rw [immS_eq]
    refine iff_true_intro ?_
    cases storeKind? (bits w 14 12).toNat with
    | none => exact agreeOn_none.mpr rfl
    | some k => exact agreeOn_refl
  · exact agreeOn_alui
  · exact agreeOn_alur
  · exact agreeOn_aluiw
  · exact agreeOn_aluw
  · exact agreeOn_fence
  · exact iff_true_intro (agreeOn_system hop)
  · exact iff_true_intro (agreeOn_some.mpr (by rintro (h | h) <;> cases h))
  iterate 7 exact iff_true_intro agreeOn_refl
  · split <;> simp_all [agreeOn_none, InsnClass.permittedDefault, blankInsn]

/-- A compressed word has no opcode that either decoder looks at twice. -/
theorem sameReading_of_compressed (h : w &&& 3 ≠ 3) : SameReading w := by
  have hlow := opcode_low_of_compressed h
  unfold SameReading
  split
  case h_8 => trivial
  all_goals
    rename_i hop
    rw [hop] at hlow
    exact absurd rfl hlow

/-- The decoders agree on a word exactly when it is one of `SameReading`. -/
theorem decodersAgree_iff (w pc : BitVec 32) : DecodersAgree w pc ↔ SameReading w := by
  rw [decodersAgree_iff_agreeOn]
  unfold merlinDecode MerlinV.merlinDecode
  by_cases h : w &&& 3 ≠ 3
  · rw [if_pos h, if_pos h, iff_true_right (sameReading_of_compressed h), agreeOn_some]
    rintro (hp | hp) <;> cases hp
  · rw [if_neg h, if_neg h]
    exact agreeOn_major

/-- `addi a0, a0, -1`: the kernel reads the immediate 4095. -/
theorem addi_minus_one_not_agree : ¬ ∀ w pc, DecodersAgree w pc := by
  intro h
  have hsame := (h 0xfff50513 0) (.inl ⟨_, rfl, rfl⟩)
  obtain ⟨a, b, ⟨ha, -⟩, ⟨hb, -⟩, hsame⟩ := hsame
  cases ha
  cases hb
  exact absurd hsame.imm (by decide)

end Compare

end MerlinV.Kernel
