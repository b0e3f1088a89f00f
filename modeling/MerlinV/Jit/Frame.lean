import MerlinV.Jit.Translate

/-! # The register frame

The program's registers as the quadwords `rbx` points to, the instructions that compute a
value in `rax` without touching the frame, and the blocks `translate_one` emits.
-/
namespace MerlinV

open X86

section Slots

def slotAddr (F : Addr) (r : Reg) : Addr := F + BitVec.ofNat 64 (8 * r)

def slots (m : Addr → Byte) (F : Addr) : Reg → Word := fun r => read64 m (slotAddr F r)

theorem dispOf_signExtend (r : Reg) : (dispOf r).signExtend 64 = BitVec.ofNat 64 (8 * r) := by
  revert r
  decide

theorem apart_add {F : Addr} {m n : ℕ} (hm : m < 2 ^ 63) (hn : n < 2 ^ 63) (h : m + 8 ≤ n ∨ n + 8 ≤ m) :
    Apart (F + BitVec.ofNat 64 m) (F + BitVec.ofNat 64 n) := by
  have := F.isLt
  have hm' : (BitVec.ofNat 64 m).toNat = m := by
    rw [BitVec.toNat_ofNat]
    omega
  have hn' : (BitVec.ofNat 64 n).toNat = n := by
    rw [BitVec.toNat_ofNat]
    omega
  constructor
  · rw [BitVec.toNat_sub, BitVec.toNat_add, BitVec.toNat_add, hm', hn']
    omega
  · rw [BitVec.toNat_sub, BitVec.toNat_add, BitVec.toNat_add, hm', hn']
    omega

theorem apart_slot {F : Addr} {r s : Reg} (h : r ≠ s) : Apart (slotAddr F r) (slotAddr F s) := by
  have hne : (r : ℕ) ≠ s := fun h' => h (Fin.ext h')
  exact apart_add (by omega) (by omega) (by omega)

theorem apart_slot_saved (F : Addr) (r : Reg) : Apart (slotAddr F r) (F + 256#64) :=
  apart_add (by omega) (by omega) (by omega)

theorem apart_below {F : Addr} {n : ℕ} (hn : n < 2 ^ 63) : Apart (F - 8#64) (F + BitVec.ofNat 64 n) := by
  have := F.isLt
  have hn' : (BitVec.ofNat 64 n).toNat = n := by
    rw [BitVec.toNat_ofNat]
    omega
  have h8 : (8#64).toNat = 8 := rfl
  constructor
  · rw [BitVec.toNat_sub, BitVec.toNat_sub, BitVec.toNat_add, hn', h8]
    omega
  · rw [BitVec.toNat_sub, BitVec.toNat_sub, BitVec.toNat_add, hn', h8]
    omega

theorem slots_write_slot (m : Addr → Byte) (F : Addr) (r : Reg) (v : Word) :
    slots (write64 m (slotAddr F r) v) F = Function.update (slots m F) r v := by
  funext s
  by_cases h : s = r
  · subst h
    rw [Function.update_self]
    exact read64_write64_same m _ v
  · rw [Function.update_of_ne h]
    exact read64_write64_apart v (apart_slot (Ne.symm h))

theorem slots_write_below (m : Addr → Byte) (F : Addr) (v : Word) :
    slots (write64 m (F - 8#64) v) F = slots m F := by
  funext s
  exact read64_write64_apart v (apart_below (by omega))

theorem slots_zero (m : Addr → Byte) (F : Addr) : slots m F 0 = read64 m F := by
  unfold slots slotAddr
  rw [show BitVec.ofNat 64 (8 * (0 : Reg)) = 0#64 from rfl, BitVec.add_zero]

end Slots

section Computations

/-- The instructions that change no more than `rax` and `rcx`. -/
def Scratch : Instr → Bool
  | .load dst _ _ | .movImm dst _ | .alu _ dst _ | .imul dst _ | .shift _ dst _ => dst = .rax || dst = .rcx
  | .addRaxImm _ => true
  | _ => false

/-- Two processors that agree on everything but `rax` and `rcx`. -/
structure SameFrame (c c' : Cpu) : Prop where
  mem : c'.mem = c.mem
  reg : ∀ r, r ≠ .rax → r ≠ .rcx → c'.reg r = c.reg r

theorem SameFrame.refl (c : Cpu) : SameFrame c c := ⟨rfl, fun _ _ _ => rfl⟩

theorem SameFrame.set {c c' : Cpu} (h : SameFrame c c') {dst : Gpr} (v : Word)
    (hdst : (dst = .rax || dst = .rcx) = true) : SameFrame c (c'.set dst v) := by
  refine ⟨h.mem, fun r hax hcx => ?_⟩
  rw [Cpu.set_reg, if_neg, h.reg r hax hcx]
  rintro rfl
  simp [hax, hcx] at hdst

theorem SameFrame.after {H : Host} {c c' : Cpu} {i : Instr} (h : SameFrame c c') (hi : Scratch i = true)
    (pos : ℕ) : SameFrame c (H.after i c' pos) := by
  cases i with
  | load dst base disp => exact h.set _ hi
  | movImm dst imm => exact h.set _ hi
  | alu op dst src => exact h.set _ hi
  | imul dst src => exact h.set _ hi
  | shift op dst count => exact h.set _ hi
  | addRaxImm imm => exact h.set _ rfl
  | _ => cases hi

/-- `is` leaves `f` of the program's registers in `rax` and touches nothing else but `rcx`. -/
structure Computes (is : List Instr) (f : (Reg → Word) → Word) : Prop where
  scratch : ∀ i ∈ is, Scratch i = true
  value : ∀ (H : Host) (c : Cpu) (pos : ℕ), (H.seq is c pos).2.reg .rax = f (slots c.mem (c.reg .rbx))

theorem Computes.sameFrame {is : List Instr} {f : (Reg → Word) → Word} (h : Computes is f) (H : Host)
    (c : Cpu) (pos : ℕ) :
    (∀ v ∈ (H.seq is c pos).1, SameFrame c v.cpu ∧ Scratch v.instr = true) ∧
      SameFrame c (H.seq is c pos).2 :=
  Host.seq_inv (SameFrame c) (fun i hi _ pos hc => ⟨⟨hc, h.scratch i hi⟩, hc.after (h.scratch i hi) pos⟩)
    (.refl c)

theorem load_slot (c : Cpu) (r : Reg) :
    read64 c.mem (c.reg .rbx + (dispOf r).signExtend 64) = slots c.mem (c.reg .rbx) r := by
  rw [dispOf_signExtend]
  rfl

def loadPairInstrs (rs1 rs2 : Reg) : List Instr :=
  [.load .rax .rbx (dispOf rs1), .load .rcx .rbx (dispOf rs2)]

theorem computes_movImm (v : Word) : Computes [.movImm .rax v] (fun _ => v) where
  scratch := by simp [Scratch]
  value _ _ _ := Cpu.set_reg_same _ _ _

theorem computes_addImm (rs : Reg) (imm : BitVec 32) :
    Computes [.load .rax .rbx (dispOf rs), .addRaxImm imm] (fun x => x rs + imm.signExtend 64) where
  scratch := by simp [Scratch]
  value _ c _ := by
    simp only [Host.seq, Host.after, Instr.exec, Cpu.set_reg_same]
    rw [load_slot]

theorem computes_shift (op : Shift) (rs : Reg) (n : BitVec 8) :
    Computes [.load .rax .rbx (dispOf rs), .shift op .rax n] (fun x => op.eval (x rs) (n.toNat % 64)) where
  scratch := by simp [Scratch]
  value _ c _ := by
    simp only [Host.seq, Host.after, Instr.exec, Cpu.set_reg_same]
    rw [load_slot]

/-- The operand pair: `rax` from `rs1`, then `rcx` from `rs2`. -/
theorem loadPair_reg (H : Host) (c : Cpu) (pos : ℕ) (rs1 rs2 : Reg) :
    (H.seq (loadPairInstrs rs1 rs2) c pos).2.reg .rax = slots c.mem (c.reg .rbx) rs1 ∧
      (H.seq (loadPairInstrs rs1 rs2) c pos).2.reg .rcx = slots c.mem (c.reg .rbx) rs2 := by
  have hbase : ((c.set .rax (slots c.mem (c.reg .rbx) rs1)).reg .rbx) = c.reg .rbx := rfl
  simp only [loadPairInstrs, Host.seq, Host.after, Instr.exec, load_slot, hbase, Cpu.set_mem, Cpu.set_reg_same]
  exact ⟨rfl, trivial⟩

theorem computes_alu (op : Alu) (rs1 rs2 : Reg) :
    Computes (loadPairInstrs rs1 rs2 ++ [.alu op .rax .rcx]) (fun x => op.eval (x rs1) (x rs2)) where
  scratch := by simp [loadPairInstrs, Scratch]
  value H c pos := by
    obtain ⟨hax, hcx⟩ := loadPair_reg H c pos rs1 rs2
    rw [Host.seq_append]
    simp only [Host.seq, Host.after, Instr.exec, Cpu.set_reg_same, hax, hcx]

theorem computes_imul (rs1 rs2 : Reg) :
    Computes (loadPairInstrs rs1 rs2 ++ [.imul .rax .rcx]) (fun x => x rs1 * x rs2) where
  scratch := by simp [loadPairInstrs, Scratch]
  value H c pos := by
    obtain ⟨hax, hcx⟩ := loadPair_reg H c pos rs1 rs2
    rw [Host.seq_append]
    simp only [Host.seq, Host.after, Instr.exec, Cpu.set_reg_same, hax, hcx]

end Computations

section Blocks

def storeInstrs (rd : Reg) : List Instr := if rd = 0 then [] else [.store .rbx (dispOf rd) .rax]

def callInstrs (tramp : Word) : List Instr := [.movReg .rdi .rbx, .movImm .rax tramp, .call .rax]

def prologueInstrs : List Instr :=
  [.push .rbx, .aluImm .sub .rsp regsBytes, .movReg .rbx .rsp, .alu .xor .rax .rax] ++
    ((List.finRange 32).map (fun i => .store .rbx (dispOf i) .rax) ++ [.store .rbx (dispOf 10) .rdi])

def restoreInstrs : List Instr :=
  [.load .rax .rbx (dispOf 10), .aluImm .add .rsp regsBytes, .pop .rbx]

theorem emits_flatMap {α : Type} {f : α → List Byte} {g : α → Instr} (h : ∀ a, Emits (f a) [g a])
    (l : List α) : Emits (l.flatMap f) (l.map g) := by
  induction l with
  | nil => exact .nil
  | cons a l ih =>
    rw [List.flatMap_cons]
    exact (h a).append ih

theorem emits_prologue : Emits emitPrologue prologueInstrs :=
  emits_pushRbx.append ((emits_subRspImm32 _).append (emits_movRbxRsp.append (emits_xorRaxRax.append
    ((emits_flatMap (fun i => emits_movMemDispFromRax (dispOf i)) _).append
      (emits_movMemDispFromRdi _)))))

theorem emits_epilogue : Emits emitEpilogue (restoreInstrs ++ [.ret]) :=
  (emits_movRaxFromMemDisp _).append ((emits_addRspImm32 _).append (emits_popRbx.append emits_ret))

theorem emits_loadRsPair (rs1 rs2 : Reg) : Emits (emitLoadRsPair rs1 rs2) (loadPairInstrs rs1 rs2) :=
  (emits_movRaxFromMemDisp _).append (emits_movRcxFromMemDisp _)

theorem emits_storeRaxToRd (rd : Reg) : Emits (emitStoreRaxToRd rd) (storeInstrs rd) := by
  unfold emitStoreRaxToRd storeInstrs
  split
  · exact .nil
  · exact emits_movMemDispFromRax _

theorem emits_helperCall (tramp : Word) : Emits (emitHelperCall tramp) (callInstrs tramp) :=
  emits_movRdiRbx.append ((emits_movRaxImm64 tramp).append emits_callRax)

/-- What a block does to the program's registers. -/
inductive Effect where
  | assign (rd : Reg) (f : (Reg → Word) → Word)
  | call
  | skip

inductive Lowers (tramp : Word) : List Instr → Effect → Prop where
  | assign {is : List Instr} (rd : Reg) {f : (Reg → Word) → Word} (computes : Computes is f) :
      Lowers tramp (is ++ storeInstrs rd) (.assign rd f)
  | call : Lowers tramp (callInstrs tramp) .call
  | skip : Lowers tramp [] .skip

inductive Body (tramp : Word) : List Byte → List Instr → List Effect → Prop where
  | nil : Body tramp [] [] []
  | cons {bs bs' : List Byte} {is is' : List Instr} {e : Effect} {es : List Effect}
      (emits : Emits bs is) (lowers : Lowers tramp is e) (tail : Body tramp bs' is' es) :
      Body tramp (bs ++ bs') (is ++ is') (e :: es)

/-- The effect `translate_one` gives an instruction other than `jalr`, if it accepts it. -/
def effectOf (insn : Insn) : Option Effect :=
  match insn.cls, insn.aluOp with
  | .aluImm, .add => some (.assign insn.rd fun x => x insn.rs1 + (insn.imm.setWidth 32).signExtend 64)
  | .lui, _ => some (.assign insn.rd fun _ => insn.imm)
  | .aluReg, .add => some (.assign insn.rd fun x => x insn.rs1 + x insn.rs2)
  | .aluReg, .sub => some (.assign insn.rd fun x => x insn.rs1 - x insn.rs2)
  | .aluReg, .or => some (.assign insn.rd fun x => x insn.rs1 ||| x insn.rs2)
  | .aluReg, .and => some (.assign insn.rd fun x => x insn.rs1 &&& x insn.rs2)
  | .aluReg, .xor => some (.assign insn.rd fun x => x insn.rs1 ^^^ x insn.rs2)
  | .mul, .mul => some (.assign insn.rd fun x => x insn.rs1 * x insn.rs2)
  | .shiftImm, .sll =>
    some (.assign insn.rd fun x => x insn.rs1 <<< ((insn.imm.setWidth 8).toNat % 64))
  | .shiftImm, .srl =>
    some (.assign insn.rd fun x => x insn.rs1 >>> ((insn.imm.setWidth 8).toNat % 64))
  | .shiftImm, .sra =>
    some (.assign insn.rd fun x => (x insn.rs1).sshiftRight ((insn.imm.setWidth 8).toNat % 64))
  | .ecall, _ => some .call
  | .fence, _ => some .skip
  | _, _ => none

theorem translateOne_lowers {insn : Insn} {tramp : Word} {bs : List Byte}
    (h : translateOne insn tramp = .ok bs) (hcls : insn.cls ≠ .jalr) :
    ∃ is e, effectOf insn = some e ∧ Emits bs is ∧ Lowers tramp is e := by
  have hstore := emits_storeRaxToRd insn.rd
  have hload := emits_movRaxFromMemDisp (dispOf insn.rs1)
  have hpair := emits_loadRsPair insn.rs1 insn.rs2
  unfold translateOne at h
  unfold effectOf
  cases hc : insn.cls with
  | jalr => exact absurd hc hcls
  | aluImm =>
    cases ho : insn.aluOp <;> rw [hc, ho] at h <;> cases h
    exact ⟨_, _, rfl, (hload.append (emits_addRaxImm32 _)).append hstore, .assign _ (computes_addImm _ _)⟩
  | lui =>
    rw [hc] at h
    cases h
    exact ⟨_, _, rfl, (emits_movRaxImm64 _).append hstore, .assign _ (computes_movImm _)⟩
  | aluReg =>
    cases ho : insn.aluOp <;> rw [hc, ho] at h <;> cases h
    · exact ⟨_, _, rfl, (hpair.append emits_addRaxRcx).append hstore, .assign _ (computes_alu .add _ _)⟩
    · exact ⟨_, _, rfl, (hpair.append emits_subRaxRcx).append hstore, .assign _ (computes_alu .sub _ _)⟩
    · exact ⟨_, _, rfl, (hpair.append emits_xorRaxRcx).append hstore, .assign _ (computes_alu .xor _ _)⟩
    · exact ⟨_, _, rfl, (hpair.append emits_orRaxRcx).append hstore, .assign _ (computes_alu .or _ _)⟩
    · exact ⟨_, _, rfl, (hpair.append emits_andRaxRcx).append hstore, .assign _ (computes_alu .and _ _)⟩
  | mul =>
    rw [hc] at h
    dsimp only at h
    split at h
    · cases h
    · rename_i hop
      rw [not_not.mp hop]
      cases h
      exact ⟨_, _, rfl, (hpair.append emits_imulRaxRcx).append hstore, .assign _ (computes_imul _ _)⟩
  | shiftImm =>
    cases ho : insn.aluOp <;> rw [hc, ho] at h <;> cases h
    · exact ⟨_, _, rfl, (hload.append (emits_shlRaxImm8 _)).append hstore, .assign _ (computes_shift .shl _ _)⟩
    · exact ⟨_, _, rfl, (hload.append (emits_shrRaxImm8 _)).append hstore, .assign _ (computes_shift .shr _ _)⟩
    · exact ⟨_, _, rfl, (hload.append (emits_sarRaxImm8 _)).append hstore, .assign _ (computes_shift .sar _ _)⟩
  | ecall =>
    rw [hc] at h
    cases h
    exact ⟨_, _, rfl, emits_helperCall tramp, .call⟩
  | fence =>
    rw [hc] at h
    cases h
    exact ⟨_, _, rfl, .nil, .skip⟩
  | _ =>
    rw [hc] at h
    cases h

end Blocks

end MerlinV
