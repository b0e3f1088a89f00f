import MerlinV.Isa.KernelDecode
import MerlinV.Jit.Preserve
import MerlinV.Kernel.Verifier

/-! # The translator of the kernel

`kernel/merlin/jit/arch/x86_64.c`, a port of the userland translator with its own emitters
and the decoder of the kernel.  What it has no code for it does not refuse: an ALU or
multiply operation becomes a zero in `rd`, a branch, jump, load or store becomes nothing.
Allocation is taken to succeed.
-/
namespace MerlinV.Kernel

open X86

section Emitters

def disp32 (rv : Reg) : BitVec 32 := BitVec.ofNat 32 (rv * 8)

def emitU32le (v : BitVec 32) : List Byte :=
  [v.extractLsb' 0 8, v.extractLsb' 8 8, v.extractLsb' 16 8, v.extractLsb' 24 8]

def emitU64le (v : Word) : List Byte :=
  [v.extractLsb' 0 8, v.extractLsb' 8 8, v.extractLsb' 16 8, v.extractLsb' 24 8,
    v.extractLsb' 32 8, v.extractLsb' 40 8, v.extractLsb' 48 8, v.extractLsb' 56 8]

def emitPushRbx : List Byte := [0x53]
def emitPopRbx : List Byte := [0x5b]
def emitRet : List Byte := [0xc3]
def emitSubRspImm32 (imm : BitVec 32) : List Byte := [0x48, 0x81, 0xec] ++ emitU32le imm
def emitAddRspImm32 (imm : BitVec 32) : List Byte := [0x48, 0x81, 0xc4] ++ emitU32le imm
def emitMovRbxRsp : List Byte := [0x48, 0x89, 0xe3]
def emitStoreRax (disp : BitVec 32) : List Byte := [0x48, 0x89, 0x83] ++ emitU32le disp
def emitLoadRax (disp : BitVec 32) : List Byte := [0x48, 0x8b, 0x83] ++ emitU32le disp
def emitLoadRcx (disp : BitVec 32) : List Byte := [0x48, 0x8b, 0x8b] ++ emitU32le disp
def emitStoreRdi (disp : BitVec 32) : List Byte := [0x48, 0x89, 0xbb] ++ emitU32le disp
def emitXorRaxRax : List Byte := [0x48, 0x31, 0xc0]
def emitMovRaxImm64 (v : Word) : List Byte := [0x48, 0xb8] ++ emitU64le v
def emitAddRaxImm32 (imm : BitVec 32) : List Byte := [0x48, 0x05] ++ emitU32le imm
def emitAddRaxRcx : List Byte := [0x48, 0x01, 0xc8]
def emitSubRaxRcx : List Byte := [0x48, 0x29, 0xc8]
def emitOrRaxRcx : List Byte := [0x48, 0x09, 0xc8]
def emitAndRaxRcx : List Byte := [0x48, 0x21, 0xc8]
def emitXorRaxRcx : List Byte := [0x48, 0x31, 0xc8]
def emitImulRaxRcx : List Byte := [0x48, 0x0f, 0xaf, 0xc1]
def emitShlRaxImm8 (imm : BitVec 8) : List Byte := [0x48, 0xc1, 0xe0, imm]
def emitShrRaxImm8 (imm : BitVec 8) : List Byte := [0x48, 0xc1, 0xe8, imm]
def emitSarRaxImm8 (imm : BitVec 8) : List Byte := [0x48, 0xc1, 0xf8, imm]
def emitMovRdiRbx : List Byte := [0x48, 0x89, 0xdf]
def emitCallRax : List Byte := [0xff, 0xd0]

def emitLoadRsPair (rs1 rs2 : Reg) : List Byte := emitLoadRax (disp32 rs1) ++ emitLoadRcx (disp32 rs2)

/-- `emit_store_rd`: writes to `x0` are discarded. -/
def emitStoreRd (rd : Reg) : List Byte := if rd = 0 then [] else emitStoreRax (disp32 rd)

def emitPrologue : List Byte :=
  emitPushRbx ++ (emitSubRspImm32 256 ++ (emitMovRbxRsp ++ (emitXorRaxRax ++
    ((List.finRange 32).flatMap (fun r => emitStoreRax (disp32 r)) ++ emitStoreRdi (disp32 10)))))

def emitEpilogue : List Byte :=
  emitLoadRax (disp32 10) ++ (emitAddRspImm32 256 ++ (emitPopRbx ++ emitRet))

end Emitters

section Translator

/-- The return codes: `-EINVAL`, `-ENOSYS` and -1. -/
inductive TranslateError where
  | einval | enosys | failed
  deriving DecidableEq, Repr

def translateOne (inn : Insn) (trampAddr : Word) : Except TranslateError (List Byte) :=
  match inn.cls with
  | .lui => .ok (emitMovRaxImm64 inn.imm ++ emitStoreRd inn.rd)
  | .aluImm =>
    let op := match inn.aluOp with
      | .add => emitAddRaxImm32 (inn.imm.setWidth 32)
      | _ => emitXorRaxRax
    .ok (emitLoadRax (disp32 inn.rs1) ++ op ++ emitStoreRd inn.rd)
  | .aluReg =>
    let op := match inn.aluOp with
      | .add => emitAddRaxRcx
      | .sub => emitSubRaxRcx
      | .or => emitOrRaxRcx
      | .and => emitAndRaxRcx
      | .xor => emitXorRaxRcx
      | _ => emitXorRaxRax
    .ok (emitLoadRsPair inn.rs1 inn.rs2 ++ op ++ emitStoreRd inn.rd)
  | .mul =>
    if inn.aluOp ≠ .mul then .ok (emitXorRaxRax ++ emitStoreRd inn.rd)
    else .ok (emitLoadRsPair inn.rs1 inn.rs2 ++ emitImulRaxRcx ++ emitStoreRd inn.rd)
  | .shiftImm =>
    match inn.aluOp with
    | .sll => .ok (emitLoadRax (disp32 inn.rs1) ++ emitShlRaxImm8 (inn.imm.setWidth 8) ++ emitStoreRd inn.rd)
    | .srl => .ok (emitLoadRax (disp32 inn.rs1) ++ emitShrRaxImm8 (inn.imm.setWidth 8) ++ emitStoreRd inn.rd)
    | .sra => .ok (emitLoadRax (disp32 inn.rs1) ++ emitSarRaxImm8 (inn.imm.setWidth 8) ++ emitStoreRd inn.rd)
    | _ => .error .failed
  | .ecall => .ok (emitMovRdiRbx ++ (emitMovRaxImm64 trampAddr ++ emitCallRax))
  | .jalr => .ok emitEpilogue
  | .fence => .ok []
  | .branch | .jal | .load | .store => .ok []
  | _ => .error .enosys

variable (text : Text) (trampAddr : Word)

/-- The loop of `x86_translate`: the buffer and `saw_ret`; `none` when `fuel` iterations were not
enough. -/
def translateLoop : ℕ → BitVec 32 → List Byte → Option (Except TranslateError (List Byte × Bool))
  | 0, _, _ => none
  | fuel + 1, pc, buf =>
    if pc.toNat < text.length then
      match merlinDecode (textWord text pc.toNat) pc with
      | none => some (.error .einval)
      | some inn =>
        match translateOne inn trampAddr with
        | .error e => some (.error e)
        | .ok bs =>
          if inn.cls = .jalr then some (.ok (buf ++ bs, true))
          else translateLoop fuel (pc + 4) (buf ++ bs)
    else some (.ok (buf, false))

def x86Translate (fuel : ℕ) : Option (Except TranslateError (List Byte)) :=
  if text.length = 0 ∨ text.length % 4 ≠ 0 then some (.error .einval)
  else match translateLoop text trampAddr fuel 0 emitPrologue with
    | none => none
    | some (.error e) => some (.error e)
    | some (.ok (buf, sawRet)) => some (.ok (if !sawRet then buf ++ emitEpilogue else buf))

/-- `merlin_jit_x86_helper_trampoline` on the registers, for the helpers of `dispatch`. -/
def merlinJitX86HelperTrampoline (dispatch : BitVec 32 → (Fin 6 → Word) → Word) (regs : Reg → Word) :
    Reg → Word :=
  Function.update regs 10 (dispatch ((regs 17).setWidth 32) (helperArgs regs))

end Translator

section Lowering

/-- The effect `translate_one` gives an instruction other than `jalr`: what it implements as the
userland translator does, a zero or nothing for the rest it accepts. -/
def effectOf (inn : Insn) : Option Effect :=
  match MerlinV.effectOf inn with
  | some e => some e
  | none =>
    match inn.cls with
    | .aluImm | .aluReg | .mul => some (.assign inn.rd fun _ => 0)
    | .branch | .jal | .load | .store => some .skip
    | _ => none

variable {inn : Insn} {tramp : Word} {bs : List Byte}

theorem computes_zero {is : List Instr} (h : ∀ i ∈ is, Scratch i = true) :
    Computes (is ++ [.alu .xor .rax .rax]) (fun _ => 0) where
  scratch i hi := by
    rcases List.mem_append.mp hi with hi | hi
    · exact h i hi
    · rw [List.mem_singleton.mp hi]
      rfl
  value H c pos := by
    rw [Host.seq_append]
    simp [Host.seq, Host.after, Instr.exec, Alu.eval]

theorem translateOne_of_userland (h : MerlinV.translateOne inn tramp = .ok bs) :
    translateOne inn tramp = .ok bs := by
  unfold MerlinV.translateOne at h
  unfold translateOne
  cases hc : inn.cls with
  | aluImm => cases ho : inn.aluOp <;> rw [hc, ho] at h <;> cases h; rfl
  | aluReg => cases ho : inn.aluOp <;> rw [hc, ho] at h <;> cases h <;> rfl
  | shiftImm => cases ho : inn.aluOp <;> rw [hc, ho] at h <;> cases h <;> rfl
  | mul => cases ho : inn.aluOp <;> rw [hc, ho] at h <;> cases h; rfl
  | _ =>
    rw [hc] at h
    cases h
    try rfl

theorem effectOf_of_refused {e : JitError} (h : MerlinV.translateOne inn tramp = .error e) :
    MerlinV.effectOf inn = none := by
  unfold MerlinV.translateOne at h
  unfold MerlinV.effectOf
  cases hc : inn.cls <;> cases ho : inn.aluOp <;> rw [hc, ho] at h <;> first | rfl | cases h

theorem lowers_zero {is : List Instr} (rd : Reg) (hemits : Emits bs is)
    (hscratch : ∀ i ∈ is, Scratch i = true) :
    ∃ is', Emits (bs ++ emitXorRaxRax ++ emitStoreRd rd) is' ∧ Lowers tramp is' (.assign rd fun _ => 0) :=
  ⟨_, (hemits.append emits_xorRaxRax).append (emits_storeRaxToRd rd),
    .assign rd (computes_zero hscratch)⟩

/-- What the userland translator refuses and the kernel accepts is cleared or skipped. -/
theorem translateOne_refused {e : JitError} (hu : MerlinV.translateOne inn tramp = .error e)
    (h : translateOne inn tramp = .ok bs) :
    ∃ is e, effectOf inn = some e ∧ Emits bs is ∧ Lowers tramp is e := by
  unfold effectOf
  rw [effectOf_of_refused hu]
  unfold translateOne at h
  unfold MerlinV.translateOne at hu
  cases hc : inn.cls with
  | aluImm =>
    have hop : (match inn.aluOp with
        | .add => emitAddRaxImm32 (inn.imm.setWidth 32)
        | _ => emitXorRaxRax) = emitXorRaxRax := by
      cases ho : inn.aluOp <;> rw [hc, ho] at hu
      cases hu
    rw [hc] at h
    dsimp only at h
    rw [hop] at h
    cases h
    obtain ⟨is, hemits, hlow⟩ := @lowers_zero tramp _ _ inn.rd
      (emits_movRaxFromMemDisp (dispOf inn.rs1)) (by simp [Scratch])
    exact ⟨is, _, rfl, hemits, hlow⟩
  | aluReg =>
    have hop : (match inn.aluOp with
        | .add => emitAddRaxRcx
        | .sub => emitSubRaxRcx
        | .or => emitOrRaxRcx
        | .and => emitAndRaxRcx
        | .xor => emitXorRaxRcx
        | _ => emitXorRaxRax) = emitXorRaxRax := by
      cases ho : inn.aluOp <;> rw [hc, ho] at hu <;> cases hu
    rw [hc] at h
    dsimp only at h
    rw [hop] at h
    cases h
    obtain ⟨is, hemits, hlow⟩ := @lowers_zero tramp _ _ inn.rd
      (emits_loadRsPair inn.rs1 inn.rs2) (by simp [loadPairInstrs, Scratch])
    exact ⟨is, _, rfl, hemits, hlow⟩
  | mul =>
    have hop : inn.aluOp ≠ .mul := by
      intro ho
      rw [hc, ho] at hu
      cases hu
    rw [hc] at h
    dsimp only at h
    rw [if_pos hop] at h
    cases h
    obtain ⟨is, hemits, hlow⟩ := @lowers_zero tramp _ _ inn.rd .nil (by simp)
    exact ⟨is, _, rfl, hemits, hlow⟩
  | branch | jal | load | store =>
    rw [hc] at h
    cases h
    exact ⟨_, _, rfl, .nil, .skip⟩
  | shiftImm => cases ho : inn.aluOp <;> rw [hc, ho] at h hu <;> cases hu <;> cases h
  | _ =>
    rw [hc] at h hu
    cases hu <;> cases h

theorem translateOne_lowers (h : translateOne inn tramp = .ok bs) (hcls : inn.cls ≠ .jalr) :
    ∃ is e, effectOf inn = some e ∧ Emits bs is ∧ Lowers tramp is e := by
  cases hu : MerlinV.translateOne inn tramp with
  | error e => exact translateOne_refused hu h
  | ok bs' =>
    rw [translateOne_of_userland hu] at h
    cases h
    obtain ⟨is, e, heff, hemits, hlow⟩ := MerlinV.translateOne_lowers hu hcls
    refine ⟨is, e, ?_, hemits, hlow⟩
    rw [effectOf, heff]

end Lowering

section Scan

variable {text : Text} {tramp : Word}

def jitInsn (text : Text) (pc : BitVec 32) : Insn :=
  (merlinDecode (textWord text pc.toNat) pc).getD (blank (textWord text pc.toNat) pc)

theorem translateOne_jalr {inn : Insn} {bs : List Byte} (h : translateOne inn tramp = .ok bs)
    (hcls : inn.cls = .jalr) : bs = emitEpilogue := by
  rw [translateOne, hcls] at h
  exact (Except.ok.inj h).symm

theorem translateLoop_succ {fuel : ℕ} {pc : BitVec 32} {buf : List Byte} {r : List Byte × Bool}
    (h : translateLoop text tramp (fuel + 1) pc buf = some (.ok r)) :
    Iteration text.length (jitInsn text) effectOf tramp
      (fun pc buf r => translateLoop text tramp fuel pc buf = some (.ok r)) pc buf r := by
  unfold translateLoop at h
  split at h
  · rename_i hin
    cases hd : merlinDecode (textWord text pc.toNat) pc with
    | none =>
      rw [hd] at h
      cases h
    | some inn =>
      have hinn : jitInsn text pc = inn := by rw [jitInsn, hd, Option.getD_some]
      rw [hd] at h
      cases ht : translateOne inn tramp with
      | error e =>
        simp only [ht] at h
        cases h
      | ok bs =>
        simp only [ht] at h
        split at h
        · rename_i hc
          cases h
          rw [translateOne_jalr ht hc]
          exact .ret hin (hinn ▸ hc)
        · rename_i hc
          obtain ⟨is, e, heff, hemits, hlow⟩ := translateOne_lowers ht hc
          exact .block hin (hinn ▸ hc) (hinn ▸ heff) hemits hlow h
  · rename_i hout
    cases h
    exact .stop (not_lt.mp hout)

/-- The loop ends on every text whose length the program counter can hold. -/
theorem translateLoop_returns (hlen : text.length + 4 < 2 ^ 32) {fuel : ℕ} {pc : BitVec 32}
    (hfuel : text.length ≤ pc.toNat + 4 * fuel) (buf : List Byte) :
    ∃ r, translateLoop text tramp (fuel + 1) pc buf = some r := by
  induction fuel generalizing pc buf with
  | zero =>
    rw [translateLoop, if_neg (by omega)]
    exact ⟨_, rfl⟩
  | succ fuel ih =>
    rw [translateLoop]
    split
    · rename_i hin
      have hnext : (pc + 4#32).toNat = pc.toNat + 4 := by
        have hfour : (4#32).toNat = 4 := rfl
        rw [BitVec.toNat_add, hfour]
        omega
      have htail := @ih (pc + 4#32) (by omega)
      split
      · exact ⟨_, rfl⟩
      · split
        · exact ⟨_, rfl⟩
        · split
          · exact ⟨_, rfl⟩
          · exact htail _
    · exact ⟨_, rfl⟩

theorem x86Translate_returns (hlen : text.length + 4 < 2 ^ 32) :
    ∃ fuel r, x86Translate text tramp fuel = some r := by
  obtain ⟨r, hr⟩ := @translateLoop_returns text tramp hlen text.length 0 (by omega) emitPrologue
  refine ⟨text.length + 1, ?_⟩
  unfold x86Translate
  rw [hr]
  split
  · exact ⟨_, rfl⟩
  · cases r with
    | error e => exact ⟨_, rfl⟩
    | ok p => exact ⟨_, rfl⟩

theorem x86Translate_scanned {fuel : ℕ} {code : List Byte}
    (h : x86Translate text tramp fuel = some (.ok code)) :
    ∃ tail, code = emitPrologue ++ tail ∧ Scanned text.length (jitInsn text) effectOf tramp 0 tail := by
  unfold x86Translate at h
  split at h
  · cases h
  · cases hl : translateLoop text tramp fuel 0 emitPrologue with
    | none =>
      rw [hl] at h
      cases h
    | some r =>
      cases r with
      | error e =>
        rw [hl] at h
        cases h
      | ok p =>
        obtain ⟨buf, sawRet⟩ := p
        rw [hl] at h
        obtain ⟨tail, htail, hscan⟩ := @scanned_of_iterations tramp _ _ _
          (fun fuel pc buf r => translateLoop text tramp fuel pc buf = some (.ok r)) (fun _ _ _ => nofun)
          (fun _ _ _ _ => translateLoop_succ) _ _ _ _ hl
        exact ⟨tail, (Except.ok.inj (Option.some.inj h)).symm.trans htail, hscan⟩

end Scan

section Reading

def Implemented (insn : Insn) : Bool :=
  match insn.cls with
  | .lui | .shiftImm | .ecall | .fence | .jalr => true
  | .aluImm => insn.aluOp = .add
  | .aluReg => insn.aluOp ∈ [.add, .sub, .or, .and, .xor]
  | .mul => insn.aluOp = .mul && !insn.wordOp
  | _ => false

/-- The kernel's record of an instruction: the same fields, and the immediate unless it is a negative
one of the I form. -/
structure Reads (k insn : Insn) : Prop where
  cls : k.cls = insn.cls
  rd : k.rd = insn.rd
  rs1 : k.rs1 = insn.rs1
  rs2 : k.rs2 = insn.rs2
  aluOp : k.aluOp = insn.aluOp
  imm : (insn.cls = .aluImm → 0 ≤ insn.imm.toInt) → insn.cls ≠ .jalr → k.imm = insn.imm

variable {w pc : BitVec 32} {k insn : Insn}

theorem SameFields.reads (h : SameFields k insn) : Reads k insn where
  cls := h.cls
  rd := h.rd
  rs1 := h.rs1
  rs2 := h.rs2
  aluOp := h.aluOp
  imm _ _ := h.imm

theorem immI_neg (h : bits w 31 31 ≠ 0) : ¬ 0 ≤ (MerlinV.immI w).toInt := by
  have hne : bits w 31 31 ≠ 0 → (bits w 31 31).toNat ≠ 0 := fun h0 h1 => h0 (BitVec.eq_of_toNat_eq h1)
  have hbit := hne h
  rw [bits_toNat w (by omega) (by omega)] at hbit
  rw [MerlinV.immI, sext_eq_signExtend (by omega) (rawI_lt w), BitVec.toInt_signExtend_of_le (by omega),
    BitVec.toInt_signExtend_of_le (by omega), BitVec.toInt_eq_toNat_cond, BitVec.toNat_setWidth,
    bits_toNat w (by omega) (by omega)]
  have hw := w.isLt
  split_ifs <;> omega

theorem isaInsn_legal (h : isaInsn w = some insn) : encode insn = some w ∨ insn.cls = .fence := by
  unfold isaInsn at h
  dsimp only at h
  split at h
  · rename_i hp
    cases h
    exact hp.2
  · cases h

theorem reads_jalr (hop : (bits w 6 0).toNat = 0x67) (hf : bits w 14 12 = 0) :
    ∃ k, decodeMajor w (blankInsn w pc) = some k ∧ Reads k (MerlinV.decodeMajor w (blankInsn w pc)) := by
  simp only [decodeMajor, MerlinV.decodeMajor, opcode_eq, hop, hf]
  exact ⟨_, rfl, rfl, rfl, rfl, rfl, rfl, fun _ h => absurd rfl h⟩

theorem reads_addi (hop : (bits w 6 0).toNat = 0x13) (hneg : bits w 31 31 ≠ 0)
    (himp : Implemented (MerlinV.decodeMajor w (blankInsn w pc)) = true)
    (h1 : bits w 14 12 ≠ 1) (h5 : bits w 14 12 ≠ 5) :
    ∃ k, decodeMajor w (blankInsn w pc) = some k ∧ Reads k (MerlinV.decodeMajor w (blankInsn w pc)) := by
  simp only [decodeMajor, MerlinV.decodeMajor, opcode_eq, hop, decodeAlui, decodeOpImm] at himp ⊢
  rcases funct3_cases w with h | h | h | h | h | h | h | h
  · simp only [h] 
    exact ⟨_, rfl, rfl, rfl, rfl, rfl, rfl, fun h _ => absurd (h rfl) (immI_neg hneg)⟩
  · exact absurd h h1
  · simp [h, Implemented] at himp
  · simp [h, Implemented] at himp
  · simp [h, Implemented] at himp
  · exact absurd h h5
  · simp [h, Implemented] at himp
  · simp [h, Implemented] at himp

theorem not_implemented_load (hop : (bits w 6 0).toNat = 0x03) :
    Implemented (MerlinV.decodeMajor w (blankInsn w pc)) = false := by
  simp only [MerlinV.decodeMajor, hop]
  split <;> rfl

theorem not_implemented_opImmW (hop : (bits w 6 0).toNat = 0x1b) :
    Implemented (MerlinV.decodeMajor w (blankInsn w pc)) = false := by
  simp only [MerlinV.decodeMajor, hop, decodeOpImmW]
  split <;> rfl

theorem not_implemented_opW (hop : (bits w 6 0).toNat = 0x3b) :
    Implemented (MerlinV.decodeMajor w (blankInsn w pc)) = false := by
  simp only [MerlinV.decodeMajor, hop, decodeOpW]
  repeat' split
  all_goals rfl

theorem reads_major (hexact : ExactReading w ∨ (MerlinV.decodeMajor w (blankInsn w pc)).cls = .fence)
    (hp : (MerlinV.decodeMajor w (blankInsn w pc)).cls.permittedDefault = true)
    (himp : Implemented (MerlinV.decodeMajor w (blankInsn w pc)) = true) :
    ∃ k, decodeMajor w (blankInsn w pc) = some k ∧ Reads k (MerlinV.decodeMajor w (blankInsn w pc)) := by
  by_cases hsame : SameReading w
  · obtain ⟨a, ha, -, -, hf⟩ := agreeOn_major.mpr hsame (.inr hp)
    exact ⟨a, ha, hf.reads⟩
  · unfold SameReading at hsame
    split at hsame
    case h_1 hop =>
      push Not at hsame
      exact reads_jalr hop hsame.1
    case h_2 hop =>
      rw [not_implemented_load hop] at himp
      cases himp
    case h_3 hop =>
      push Not at hsame
      exact reads_addi hop hsame.2.2 himp hsame.1 hsame.2.1
    case h_4 hop =>
      rcases hexact with hexact | hfence
      · rw [ExactReading, hop] at hexact
        exact absurd hexact hsame
      · simp only [MerlinV.decodeMajor, hop, decodeOp] at hfence
        repeat' split at hfence
        all_goals cases hfence
    case h_5 hop =>
      rw [not_implemented_opImmW hop] at himp
      cases himp
    case h_6 hop =>
      rw [not_implemented_opW hop] at himp
      cases himp
    case h_7 hop =>
      push Not at hsame
      simp only [MerlinV.decodeMajor, hop, hsame, if_false] at hp
      cases hp
    case h_8 => exact absurd trivial hsame

/-- The kernel reads every legal word `translate_one` has code for, but for the negative immediates
of the I form. -/
theorem reads_of_legal (hisa : isaInsn w = some insn) (himp : Implemented insn = true) (pc : BitVec 32) :
    ∃ k, merlinDecode w pc = some k ∧ Reads k insn := by
  obtain ⟨hinsn, hp⟩ := isaInsn_eq_some hisa
  have hlegal := isaInsn_legal hisa
  obtain rfl : insn = { MerlinV.merlinDecode w pc with pc := 0 } := hinsn.trans (MerlinV.merlinDecode_pc w 0 pc)
  unfold MerlinV.merlinDecode at hp himp hlegal ⊢
  unfold merlinDecode
  by_cases hc : w &&& 3 ≠ 3
  · rw [if_pos hc] at hp
    cases hp
  · rw [if_neg hc] at hp himp hlegal ⊢
    rw [if_neg hc]
    have hexact : ExactReading w ∨ (MerlinV.decodeMajor w (blankInsn w pc)).cls = .fence := by
      refine hlegal.imp (fun henc => ?_) id
      exact exactOn_major.mp fun _ => henc
    obtain ⟨k, hk, hr⟩ := reads_major hexact hp himp
    exact ⟨k, hk, hr.cls, hr.rd, hr.rs1, hr.rs2, hr.aluOp, hr.imm⟩

end Reading

section Effects

/-- The steps the emitted code follows: an instruction `translate_one` has code for, an `addi` whose
immediate is not negative or that writes `x0`, and a `jalr` that returns and leaves `a0` alone. -/
structure JitFollows (insn : Insn) (s : MState) : Prop where
  implemented : Implemented insn = true
  addi : insn.cls = .aluImm → insn.rd ≠ 0 → 0 ≤ insn.imm.toInt
  ret : insn.cls = .jalr → nextPc insn s = 0 ∧ insn.rd ≠ 10

variable {k insn : Insn} {s s₁ : MState} {e : Effect} {helped : (Reg → Word) → Reg → Word}

theorem Reads.effectOf_eq (hr : Reads k insn) (himm : k.imm = insn.imm) : effectOf k = effectOf insn := by
  unfold effectOf MerlinV.effectOf
  rw [hr.cls, hr.rd, hr.rs1, hr.rs2, hr.aluOp, himm]

/-- Nothing `translate_one` has code for is cleared or skipped. -/
theorem effectOf_implemented (himp : Implemented insn = true) (he : effectOf insn = some e) :
    MerlinV.effectOf insn = some e := by
  unfold effectOf at he
  cases hu : MerlinV.effectOf insn with
  | some e' =>
    rw [hu] at he
    exact he
  | none =>
    rw [hu] at he
    unfold MerlinV.effectOf at hu
    unfold Implemented at himp
    cases hc : insn.cls with
    | aluImm =>
      have ho : insn.aluOp = .add := by simpa [hc] using himp
      simp [hc, ho] at hu
    | aluReg =>
      cases ho : insn.aluOp <;> simp [hc, ho] at himp hu
    | mul =>
      cases ho : insn.aluOp <;> simp [hc, ho] at himp hu
    | _ =>
      rw [hc] at he himp
      cases himp <;> cases he

theorem effectOf_of_some (h : MerlinV.effectOf k = some e) : effectOf k = some e := by
  rw [effectOf, h]

/-- A plain step has the effect the translator gives the kernel's record of its instruction. -/
theorem exec_effect_of_reads (hr : Reads k insn) (hf : JitFields insn) (himp : Implemented insn = true)
    (haddi : insn.cls = .aluImm → insn.rd ≠ 0 → 0 ≤ insn.imm.toInt) (hcls : insn.cls ≠ .jalr)
    (hrun : exec insn s = some s₁) (he : effectOf k = some e) :
    s₁.pc = s.pc + 4 ∧ s₁.x = e.apply helped s.x ∧ e.calls s.x = [] := by
  by_cases hc : insn.cls = .aluImm
  · have ho : insn.aluOp = .add := by simpa [Implemented, hc] using himp
    have hek : MerlinV.effectOf k =
        some (.assign insn.rd fun x => x insn.rs1 + (k.imm.setWidth 32).signExtend 64) := by
      simp only [MerlinV.effectOf, hr.cls, hr.aluOp, hc, ho, hr.rd, hr.rs1]
    rw [effectOf_of_some hek] at he
    cases he
    refine exec_assign hrun (by simp [nextPc, hc]) (by simp only [result?, hc, ho]; rfl) fun hrd => ?_
    rw [hr.imm (fun _ => haddi hc hrd) hcls, hf.imm hc]
    rfl
  · rw [hr.effectOf_eq (hr.imm (fun h => absurd h hc) hcls)] at he
    refine exec_effect hf ⟨fun hm hword _ => ?_, fun h => absurd h hcls⟩ hrun (effectOf_implemented himp he)
    simp [Implemented, hm, hword] at himp

end Effects

section Preserve

/-- The block `translate_one` emits for an instruction has its effect in every state: the instruction
is not replaced by nothing, nor by a zero. -/
def Faithful (insn : Insn) : Prop :=
  ∀ (pc : BitVec 32) (k : Insn) (tramp : Word) (bs : List Byte), merlinDecode insn.raw pc = some k →
    k.cls ≠ .jalr → translateOne k tramp = .ok bs →
    ∃ is e, Emits bs is ∧ Lowers tramp is e ∧ ∀ helped s s₁, exec insn s = some s₁ →
      s₁.pc = s.pc + 4 ∧ s₁.x = e.apply helped s.x

variable {E : RefEnv} {pc w : BitVec 32} {insn : Insn} {s : MState}

theorem JitFollows.reads (hok : JitFollows insn s) (hfetch : E.fetch (E.addr pc) = some insn) :
    merlinDecode (textWord E.text pc.toNat) pc = some (jitInsn E.text pc) ∧ Reads (jitInsn E.text pc) insn := by
  obtain ⟨k, hk, hr⟩ := reads_of_legal (RefEnv.fetch_addr hfetch) hok.implemented pc
  have hinsn : jitInsn E.text pc = k := by rw [jitInsn, hk, Option.getD_some]
  rw [hinsn]
  exact ⟨hk, hr⟩

theorem isaInsn_fields (h : isaInsn w = some insn) : JitFields insn := by
  rw [(isaInsn_eq_some h).1]
  exact merlinDecode_fields w 0

theorem kernel_agrees (E : RefEnv) : Agrees E (jitInsn E.text) effectOf JitFollows where
  plain hpc hfetch hok hrun hcls he := by
    rw [hpc] at hfetch
    obtain ⟨-, hr⟩ := hok.reads hfetch
    rw [hr.cls] at hcls
    exact exec_effect_of_reads hr (isaInsn_fields (RefEnv.fetch_addr hfetch)) hok.implemented hok.addi hcls
      hrun he
  helper {pc insn s} hpc hfetch hc hok := by
    rw [hpc] at hfetch
    obtain ⟨-, hr⟩ := hok.reads hfetch
    refine ⟨by simp [hr.cls, hc], effectOf_of_some ?_⟩
    simp only [MerlinV.effectOf, hr.cls, hc]
  ret hpc hfetch hok hrun hcls := by
    rw [hpc] at hfetch
    obtain ⟨-, hr⟩ := hok.reads hfetch
    rw [hr.cls] at hcls
    exact exec_jalr hrun hcls (hok.ret hcls)

theorem JitFollows.faithful (hok : JitFollows insn s) (hisa : isaInsn w = some insn) : Faithful insn := by
  intro pc k tramp bs hk hcls htrans
  have hraw : insn.raw = w := by rw [(isaInsn_eq_some hisa).1, merlinDecode_raw]
  obtain ⟨k', hk', hr⟩ := reads_of_legal hisa hok.implemented pc
  rw [hraw, hk'] at hk
  cases hk
  obtain ⟨is, e, he, hemits, hlow⟩ := translateOne_lowers htrans hcls
  refine ⟨is, e, hemits, hlow, fun helped s s₁ hrun => ?_⟩
  obtain ⟨hpc, hx, -⟩ := exec_effect_of_reads hr (isaInsn_fields hisa) hok.implemented hok.addi
    (hr.cls ▸ hcls) hrun he
  exact ⟨hpc, hx⟩

def Accepted (text : Text) (textOffset : BitVec 32) (cfg : VerifierCfg) : Prop :=
  ∃ fuel, merlinVerifyText merlinDecoder cfg text textOffset fuel = some .ok

theorem Accepted.length_le {text : Text} {textOffset : BitVec 32} {cfg : VerifierCfg}
    (h : Accepted text textOffset cfg) : text.length ≤ 4 * cfgMaxInsns := by
  obtain ⟨fuel, h⟩ := h
  unfold merlinVerifyText merlinCfgBuild at h
  by_cases hsize : text.length % 4 ≠ 0
  · rw [if_pos hsize] at h
    cases h
  · by_cases hcap : text.length / 4 > cfgMaxInsns
    · rw [if_neg hsize, if_neg hsize, if_pos hcap] at h
      cases h
    · omega

/-- The code for `text`, run with `rdi` as the context, returns what the program returns and calls the
trampoline with the registers of the program, and no instruction the program executes has been
replaced, on the runs whose steps all meet `ok`. -/
def JitPreserves (text : Text) (tramp : Word) (code : List Byte) (ok : Insn → MState → Prop) : Prop :=
  ∀ (dispatch : BitVec 32 → (Fin 6 → Word) → Word) (base : Word) (H : Host) (c : Cpu) (s s' : MState)
    (calls : List (Reg → Word)),
    let E : RefEnv := ⟨text, base, fun a7 args => dispatch (a7.setWidth 32) args⟩
    ¬ E.InText 0 → H.code = code → Realises (merlinJitX86HelperTrampoline dispatch) (H.callee tramp) →
    E.Starts (c.reg .rdi) s → E.Returns ok s calls s' →
    (∃ n visits target c', H.run n c 0 = (visits, .returned target c') ∧ c'.reg .rax = s'.x 10 ∧
      callsOf visits = calls.map (tramp, ·)) ∧ E.Returns (fun insn _ => Faithful insn) s calls s'

theorem Accepted.length_lt {text : Text} {textOffset : BitVec 32} {cfg : VerifierCfg}
    (h : Accepted text textOffset cfg) : text.length + 4 < 2 ^ 32 := by
  have hle := h.length_le
  have hmax : 4 * cfgMaxInsns + 4 < 2 ^ 32 := by decide
  omega

/-- `x86_translate` ends on every accepted text, and the code it emits follows the runs whose steps all
meet `JitFollows`. -/
theorem kernel_jit_preserves (text : Text) (textOffset : BitVec 32) (cfg : VerifierCfg) (tramp : Word)
    (hacc : Accepted text textOffset cfg) :
    (∃ fuel r, x86Translate text tramp fuel = some r) ∧
      ∀ fuel code, x86Translate text tramp fuel = some (.ok code) →
        JitPreserves text tramp code JitFollows := by
  refine ⟨x86Translate_returns hacc.length_lt, ?_⟩
  intro fuel code h dispatch base H c s s' calls E hout hcode hT hstart hret
  obtain ⟨tail, rfl, hscan⟩ := x86Translate_scanned h
  have hsim : Scanned E.text.length (jitInsn E.text) effectOf tramp 0 tail := hscan
  refine ⟨hsim.returns hcode (kernel_agrees E) hT hout hacc.length_lt hstart hret, ?_⟩
  exact hret.mono fun insn s hfetch hok => hok.faithful (RefEnv.isaInsn_of_fetch hfetch)

instance (insn : Insn) (s : MState) : Decidable (JitFollows insn s) :=
  decidable_of_iff
    (Implemented insn = true ∧ (insn.cls = .aluImm → insn.rd ≠ 0 → 0 ≤ insn.imm.toInt) ∧
      (insn.cls = .jalr → nextPc insn s = 0 ∧ insn.rd ≠ 10))
    ⟨fun h => ⟨h.1, h.2.1, h.2.2⟩, fun h => ⟨h.implemented, h.addi, h.ret⟩⟩

theorem JitPreserves.hostResult_eq {text : Text} {tramp : Word} {code : List Byte}
    {okb : Insn → MState → Bool} {ok : Insn → MState → Prop} {m : ℕ} {ctx : Word} {r : Word × ℕ}
    (h : JitPreserves text tramp code ok) (hok : ∀ insn s, okb insn s = true → ok insn s)
    (hout : ¬ (succEnv text).InText 0) (hr : refResult okb m text ctx = some r) :
    ∃ n, hostResult n code ctx = some r := by
  obtain ⟨calls, s', hret, rfl⟩ := exists_returns hr
  exact exists_hostResult (h (fun _ args => args 0 + 1) 0x400000 (succHost code) (entryCpu ctx) _ s' calls
    hout rfl (helperTrampoline_realises (succEnv text)) ⟨rfl, rfl⟩
    (hret.mono fun insn s _ => hok insn s)).1

/-- The code `x86_translate` emits for a trampoline at `0x1000`. -/
def translated (text : Text) : List Byte :=
  match x86Translate text 0x1000 (text.length / 4) with
  | some (.ok code) => code
  | _ => []

theorem timeText_kernel_preserved : Accepted timeText 0x40 merlinVerifierCfgInitForMvdp ∧
    x86Translate timeText 0x1000 3 = some (.ok (translated timeText)) ∧
    ∃ n, hostResult n (translated timeText) 5 = some (6, 1) := by
  have hacc : Accepted timeText 0x40 merlinVerifierCfgInitForMvdp := ⟨20, by decide +kernel⟩
  have hcode : x86Translate timeText 0x1000 3 = some (.ok (translated timeText)) := by decide +kernel
  have hpres := (kernel_jit_preserves timeText 0x40 merlinVerifierCfgInitForMvdp 0x1000 hacc).2 3 _ hcode
  exact ⟨hacc, hcode, @JitPreserves.hostResult_eq _ _ _ (fun insn s => decide (JitFollows insn s)) _ 4 _ _
    hpres (fun _ _ h => of_decide_eq_true h) (by unfold RefEnv.InText; decide +kernel) (by decide +kernel)⟩

def oriText : Text := ofWords [0x00106513, 0x00008067]

/-- The program returns 1, the emitted code 0. -/
theorem oriText_not_preserved : ¬ ∀ (text : Text) (textOffset : BitVec 32) (cfg : VerifierCfg)
    (tramp : Word) (fuel : ℕ) (code : List Byte), Accepted text textOffset cfg →
      x86Translate text tramp fuel = some (.ok code) → JitPreserves text tramp code fun _ _ => True := by
  intro hall
  have hpres := hall oriText 0x40 merlinVerifierCfgInitForMvdp 0x1000 2 (translated oriText)
    ⟨20, by decide +kernel⟩ (by decide +kernel)
  have href : refResult (fun _ _ => true) 3 oriText 0 = some (1, 0) := by decide +kernel
  have hhost : hostResult 60 (translated oriText) 0 = some (0, 0) := by decide +kernel
  obtain ⟨n, hn⟩ := hpres.hostResult_eq (fun _ _ _ => trivial) (by unfold RefEnv.InText; decide +kernel) href
  exact absurd (hostResult_unique hn hhost) (by decide)

end Preserve

end MerlinV.Kernel
