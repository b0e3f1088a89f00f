import MerlinV.Verify.Fixpoint

/-! # Accepted steps

What `step_insn` does to the abstract state when it raises no rejection, class by class,
and what the checks it passed say about the operands.
-/
namespace MerlinV

/-- A signed sum is exact or off by `2^64`. -/
theorem toInt_add_cases (a b : Word) :
    ((a + b).toInt = a.toInt + b.toInt ∧ -2 ^ 63 ≤ a.toInt + b.toInt ∧ a.toInt + b.toInt < 2 ^ 63) ∨
      ((a + b).toInt = a.toInt + b.toInt - 2 ^ 64 ∧ 2 ^ 63 ≤ a.toInt + b.toInt) ∨
      ((a + b).toInt = a.toInt + b.toInt + 2 ^ 64 ∧ a.toInt + b.toInt < -2 ^ 63) := by
  have ha₁ := BitVec.le_toInt (x := a)
  have ha₂ := BitVec.toInt_lt (x := a)
  have hb₁ := BitVec.le_toInt (x := b)
  have hb₂ := BitVec.toInt_lt (x := b)
  have hs := BitVec.toInt_add a b
  rw [Int.bmod_def] at hs
  split at hs <;> omega

section Inversion

variable {cfg : VerifierCfg} {insn : Insn} {st : VState}

def VState.setReg (st : VState) (rd : Reg) (v : Rval) : VState := if rd = 0 then st else st.set rd v

theorem VState.setReg_x (rd r : Reg) (v : Rval) :
    (st.setReg rd v).x r = if r = rd ∧ rd ≠ 0 then v else st.x r := by
  unfold VState.setReg
  by_cases h0 : rd = 0
  · simp [h0]
  · rw [if_neg h0, VState.set_x]
    simp [h0]

def addiResult (insn : Insn) (st : VState) : Rval :=
  if insn.rs1 = 0 then .const insn.imm
  else match st.x insn.rs1 with
    | .scalar s => .scalar (s.add (Scalar.const insn.imm))
    | .ptrCtx lo hi => .ptrCtx (lo + insn.imm) (hi + insn.imm)
    | .ptrStack lo hi => .ptrStack (lo + insn.imm) (hi + insn.imm)
    | _ => .scalarTop

/-- What an accepted instruction other than `ecall` leaves in `rd`, if it writes `rd`. -/
def plainResult? (insn : Insn) (st : VState) : Option Rval :=
  match insn.cls with
  | .store | .branch | .jalr => none
  | .lui => some (.const insn.imm)
  | .aluImm => some (if insn.aluOp = .add then addiResult insn st else .scalarTop)
  | .aluReg => some (aluRegResult (st.x insn.rs1) (st.x insn.rs2))
  | _ => some .scalarTop

theorem assign_eq {rd : Reg} {v : Rval} {why : Reject} (h : (assign st rd v why).2 = []) :
    (assign st rd v why).1 = st.setReg rd v := by
  unfold assign at h ⊢
  unfold VState.setReg
  by_cases h2 : rd = 2
  · rw [if_pos h2] at h
    cases h
  · by_cases h0 : rd = 0
    · simp [h0]
    · simp [h2, h0]

theorem stepAddi_eq (h : (stepAddi cfg insn st).2 = []) :
    (stepAddi cfg insn st).1 = st.setReg insn.rd (addiResult insn st) := by
  have hset : ∀ (v : Rval) (l : List Reject), (if insn.rd ≠ 0 then (st.set insn.rd v, l)
      else (st, [])).1 = st.setReg insn.rd v := by
    intro v l
    by_cases h0 : insn.rd = 0
    · simp [h0, VState.setReg]
    · simp [h0, VState.setReg]
  unfold stepAddi at h ⊢
  unfold addiResult
  split
  · rename_i h0
    rw [if_pos h0] at h
    exact assign_eq h
  · rename_i h0
    rw [if_neg h0] at h
    split
    · rename_i h2
      rw [if_pos h2] at h
      cases h
    · rename_i h2
      rw [if_neg h2] at h
      cases hx : st.x insn.rs1 with
      | scalar s =>
        simp only [hx] at h
        exact assign_eq h
      | ptrCtx lo hi => exact hset _ _
      | ptrStack lo hi => exact hset _ _
      | uninit =>
        simp only [hx] at h
        exact assign_eq h
      | ptrHelperRet id =>
        simp only [hx] at h
        exact assign_eq h
      | ptrKfuncSlot id =>
        simp only [hx] at h
        exact assign_eq h

/-- An accepted instruction other than `ecall` changes at most `rd`. -/
theorem stepPlain_eq (h : (stepPlain cfg insn st).2 = []) :
    (stepPlain cfg insn st).1 = match plainResult? insn st with
      | some v => st.setReg insn.rd v
      | none => st := by
  unfold stepPlain at h ⊢
  unfold plainResult?
  cases hc : insn.cls <;> simp only [hc] at h ⊢
  case load => exact assign_eq (List.append_eq_nil_iff.mp h).2
  case store => rfl
  case aluImm =>
    unfold stepAluImm at h ⊢
    split
    · rename_i ha
      rw [if_pos ha] at h
      exact stepAddi_eq h
    · rename_i ha
      rw [if_neg ha] at h
      exact assign_eq h
  case lui => exact assign_eq h
  case auipc => exact assign_eq h
  case aluReg => exact assign_eq (List.append_eq_nil_iff.mp h).2
  case jal => exact assign_eq h
  all_goals
    unfold VState.setReg
    by_cases h0 : insn.rd = 0 <;> simp [h0]

def ecallResult (hid : BitVec 32) (st : VState) : Rval :=
  if hid = helperKfuncResolve then
    match (st.x 10).const? with
    | some a0 => .ptrKfuncSlot (a0.tn.value.setWidth 32)
    | none => .scalarTop
  else if hid = helperLoopCb then .scalarTop
  else .ptrHelperRet hid

/-- An accepted `ecall` names an allowed helper, and `kfunc_resolve` an allowed kfunc. -/
theorem stepEcall_eq {p : BitVec 32} (h : (stepEcall cfg st p).rejects = []) :
    ∃ a7, (st.x 17).const? = some a7 ∧ helperAllowed cfg (a7.tn.value.setWidth 32) = true ∧
      (stepEcall cfg st p).st = st.clobber.set 10 (ecallResult (a7.tn.value.setWidth 32) st) ∧
      (a7.tn.value.setWidth 32 = helperKfuncResolve → ∃ a0, (st.x 10).const? = some a0 ∧
        kfuncAllowed cfg (a0.tn.value.setWidth 32) = true) := by
  unfold stepEcall at h ⊢
  unfold ecallResult
  cases h7 : (st.x 17).const? with
  | none => simp [h7] at h
  | some a7 =>
    simp only [h7] at h ⊢
    refine ⟨a7, rfl, ?_⟩
    generalize BitVec.setWidth 32 a7.tn.value = hid at h ⊢
    cases ha : helperAllowed cfg hid with
    | false => simp [ha] at h
    | true =>
      simp only [ha, Bool.not_true, Bool.false_eq_true, if_false, true_and] at h ⊢
      by_cases hk : hid = helperKfuncResolve
      · simp only [if_pos hk, stepKfuncResolve] at h ⊢
        cases h10 : (st.x 10).const? with
        | none => simp [h10] at h
        | some a0 =>
          simp only [h10] at h ⊢
          cases hka : kfuncAllowed cfg (BitVec.setWidth 32 a0.tn.value) with
          | false => simp [hka] at h
          | true => simp [hka]
      · simp only [if_neg hk] at h ⊢
        refine ⟨?_, fun h' => absurd h' hk⟩
        split
        · simp only [stepLoopCb]
          repeat' split
          all_goals rfl
        · rfl

theorem stepInsn_plain {st : VState} (p : BitVec 32) (hp : merlinInsnPermittedDefault insn = true)
    (hne : insn.cls ≠ .ecall) : stepInsn merlinDecoder cfg insn st p =
      ⟨(stepPlain cfg insn st).1, (stepPlain cfg insn st).2, p⟩ := by
  simp [stepInsn, merlinDecoder, hp, hne]

theorem stepInsn_ecall {st : VState} (p : BitVec 32) (hc : insn.cls = .ecall) :
    stepInsn merlinDecoder cfg insn st p = stepEcall cfg st p := by
  simp [stepInsn, merlinDecoder, merlinInsnPermittedDefault, InsnClass.permittedDefault, hc]

theorem accessRejects_eq_nil {base : Rval} {imm : Word} {width : ℕ} {r r' : Reject} :
    accessRejects cfg base imm width r r' = [] ↔ base.isPtr = true ∧ ∀ lo hi, base = .ptrStack lo hi →
      (lo + imm).slt (-cfg.budget) = false ∧
        (0#64).slt (hi + imm + BitVec.ofNat 64 width) = false := by
  cases base <;> simp [accessRejects, Rval.isPtr]

theorem budget_toInt (cfg : VerifierCfg) : (-cfg.budget).toInt = -(cfg.maxStackBytes.toNat : ℤ) := by
  have hlt := cfg.maxStackBytes.isLt
  have hpos : cfg.budget.toInt = cfg.maxStackBytes.toNat := by
    unfold VerifierCfg.budget
    rw [BitVec.toInt_setWidth, Int.bmod_eq_of_le (by omega) (by omega)]
  rw [BitVec.toInt_neg, hpos, Int.bmod_eq_of_le (by omega) (by omega)]

theorem assign_eq_nil {rd : Reg} {v : Rval} {why : Reject} :
    (assign st rd v why).2 = [] ↔ rd ≠ 2 := by
  unfold assign
  by_cases h2 : rd = 2
  · simp [h2]
  · by_cases h0 : rd = 0
    · simp [h0]
    · simp [h2, h0]

variable (cfg) in
/-- The values of `sp` to which `addi sp, sp, imm` may add. -/
def SpAddable (imm : Word) (v : Rval) : Prop :=
  (∃ lo hi, v = .ptrCtx lo hi) ∨ ∃ lo hi, v = .ptrStack lo hi ∧
    (lo + imm).slt (-cfg.budget) = false ∧ (0#64).slt (hi + imm) = false

/-- An accepted `addi` into `sp` reads `sp`, and keeps a stack pointer inside the frame. -/
theorem stepAddi_eq_nil : (stepAddi cfg insn st).2 = [] ↔
    (insn.rd = 2 → insn.rs1 = 2 ∧ SpAddable cfg insn.imm (st.x 2)) := by
  unfold stepAddi SpAddable
  by_cases hd : insn.rd = 2
  · by_cases h2 : insn.rs1 = 2
    · rw [hd, h2]
      cases st.x 2 <;> simp [assign, spRejects]
    · by_cases h0 : insn.rs1 = 0
      · simp [hd, h0, assign]
      · simp [hd, h0, h2]
  · refine iff_of_true ?_ fun h => absurd h hd
    split
    · exact assign_eq_nil.mpr hd
    · rw [if_neg fun h => hd h.1]
      split
      · exact assign_eq_nil.mpr hd
      · split <;> rfl
      · split
        · simp
        · rfl
      · exact assign_eq_nil.mpr hd

end Inversion

end MerlinV
