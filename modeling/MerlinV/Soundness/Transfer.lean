import MerlinV.Machine.Replay
import MerlinV.Verify.Inversion

/-! # Soundness of the transfer function

The concretisation of abstract values and what one accepted `step_insn` says about the
registers of the machine.  Three cases of `step_insn` do not follow the machine: `jalr`
leaves the abstract value of its link register, register arithmetic on a pointer keeps a
fixed window around the base, and `addi` on a pointer adds to its bounds modulo `2^64`.
-/
namespace MerlinV

/-- The values an abstract value stands for; offsets are signed 64-bit numbers. -/
def Gamma (E : Env) : Rval → Word → Prop
  | .scalar s, v => s.Mem v
  | .ptrCtx lo hi, v => lo.toInt ≤ (v - E.ctx).toInt ∧ (v - E.ctx).toInt ≤ hi.toInt
  | .ptrStack lo hi, v => lo.toInt ≤ (v - E.sp0).toInt ∧ (v - E.sp0).toInt ≤ hi.toInt
  | _, _ => True

/-- The effect of an instruction on the state; an `ecall` changes any caller-saved register. -/
def Executes (insn : Insn) (s s' : MState) : Prop :=
  exec insn s = some s' ∨
    insn.cls = .ecall ∧ ∀ r, callerSaved r = false → s'.x r = s.x r

def Rval.base? (E : Env) : Rval → Option Word
  | .ptrCtx _ _ => some E.ctx
  | .ptrStack _ _ => some E.sp0
  | _ => none

def Rval.bounds? : Rval → Option (Word × Word)
  | .ptrCtx lo hi => some (lo, hi)
  | .ptrStack lo hi => some (lo, hi)
  | _ => none

def AddWraps (a b : Word) : Prop := (a + b).toInt ≠ a.toInt + b.toInt

/-- The inputs on which the transfer function follows the machine. -/
def TransferCond (E : Env) (insn : Insn) (st : VState) (s : MState) : Prop :=
  insn.rd ≠ 0 →
    match insn.cls with
    | .jalr => Gamma E (st.x insn.rd) (s.pc + 4)
    | .aluReg => ∀ b, (st.x insn.rs1).base? E = some b ∨ (st.x insn.rs2).base? E = some b →
        Near b (aluOf insn (s.x insn.rs1) (s.x insn.rs2))
    | .aluImm => insn.aluOp = .add → insn.rs1 ≠ 0 →
        ∀ lo hi, (st.x insn.rs1).bounds? = some (lo, hi) →
          (AddWraps lo insn.imm ↔ AddWraps hi insn.imm)
    | _ => True

section Arithmetic

/-- Adding to the bounds of an interval keeps a member inside exactly when both bounds wrap or
neither does. -/
theorem add_mem_bounds_iff {lo hi d imm : Word} (h₁ : lo.toInt ≤ d.toInt) (h₂ : d.toInt ≤ hi.toInt) :
    ((lo + imm).toInt ≤ (d + imm).toInt ∧ (d + imm).toInt ≤ (hi + imm).toInt) ↔
      (AddWraps lo imm ↔ AddWraps hi imm) := by
  have c₁ := toInt_add_cases lo imm
  have c₂ := toInt_add_cases d imm
  have c₃ := toInt_add_cases hi imm
  have b₁ := BitVec.le_toInt (x := lo)
  have b₂ := BitVec.toInt_lt (x := hi)
  unfold AddWraps
  generalize (lo + imm).toInt = lo' at *
  generalize (d + imm).toInt = d' at *
  generalize (hi + imm).toInt = hi' at *
  generalize lo.toInt = l at *
  generalize d.toInt = e at *
  generalize hi.toInt = h at *
  generalize imm.toInt = k at *
  rcases c₁ with c₁ | c₁ | c₁ <;> rcases c₂ with c₂ | c₂ | c₂ <;> rcases c₃ with c₃ | c₃ | c₃ <;>
    omega

theorem add_sub_base (v base imm : Word) : v + imm - base = v - base + imm := by
  rw [BitVec.sub_eq_add_neg, BitVec.sub_eq_add_neg, BitVec.add_assoc, BitVec.add_comm imm,
    ← BitVec.add_assoc]

end Arithmetic

section Soundness

variable {E : Env} {cfg : VerifierCfg} {insn : Insn} {st : VState} {s s' : MState}

@[simp] theorem gamma_scalarTop (v : Word) : Gamma E .scalarTop v := Scalar.mem_top v

theorem gamma_const {a v : Word} : Gamma E (.const a) v ↔ v = a := by
  constructor
  · intro h
    exact Scalar.eq_value_of_isConst (by simp [Scalar.isConst, Scalar.const, Tnum.const, Tnum.isConst])
      h.tn
  · rintro rfl
    exact Scalar.mem_const v

@[simp] theorem gamma_uninit (v : Word) : Gamma E .uninit v := trivial

@[simp] theorem gamma_ptrHelperRet (id : BitVec 32) (v : Word) : Gamma E (.ptrHelperRet id) v := trivial

@[simp] theorem gamma_ptrKfuncSlot (id : BitVec 32) (v : Word) : Gamma E (.ptrKfuncSlot id) v := trivial

theorem gamma_setReg_iff (hs : ∀ r, Gamma E (st.x r) (s.x r)) (rd : Reg) (v : Rval) (val : Word) :
    (∀ r, Gamma E ((st.setReg rd v).x r) (if r = rd ∧ rd ≠ 0 then val else s.x r)) ↔
      (rd ≠ 0 → Gamma E v val) := by
  constructor
  · intro h h0
    have hr := h rd
    rwa [VState.setReg_x, if_pos ⟨rfl, h0⟩, if_pos ⟨rfl, h0⟩] at hr
  · intro h r
    rw [VState.setReg_x]
    split
    · rename_i hr
      exact h hr.2
    · exact hs r

/-- `addi` follows the machine unless one bound of a pointer wraps and the other does not. -/
theorem gamma_addiResult (h0 : s.x 0 = 0) (hs : Gamma E (st.x insn.rs1) (s.x insn.rs1)) :
    Gamma E (addiResult insn st) (s.x insn.rs1 + insn.imm) ↔
      (insn.rs1 ≠ 0 → ∀ lo hi, (st.x insn.rs1).bounds? = some (lo, hi) →
        (AddWraps lo insn.imm ↔ AddWraps hi insn.imm)) := by
  unfold addiResult
  split
  · rename_i hz
    have hval : s.x insn.rs1 + insn.imm = insn.imm := by
      rw [hz, h0]
      exact BitVec.zero_add _
    rw [hval]
    exact ⟨fun _ h => absurd hz h, fun _ => gamma_const.mpr rfl⟩
  · rename_i hz
    cases hx : st.x insn.rs1 with
    | scalar c =>
      rw [hx] at hs
      exact iff_of_true (Scalar.mem_add hs (Scalar.mem_const insn.imm)) (by simp [Rval.bounds?])
    | ptrCtx lo hi =>
      rw [hx] at hs
      change (_ ≤ _ ∧ _ ≤ _) ↔ _
      rw [add_sub_base, add_mem_bounds_iff hs.1 hs.2]
      simp [Rval.bounds?, hz]
    | ptrStack lo hi =>
      rw [hx] at hs
      change (_ ≤ _ ∧ _ ≤ _) ↔ _
      rw [add_sub_base, add_mem_bounds_iff hs.1 hs.2]
      simp [Rval.bounds?, hz]
    | uninit => exact iff_of_true (gamma_scalarTop _) (by simp [Rval.bounds?])
    | ptrHelperRet id => exact iff_of_true (gamma_scalarTop _) (by simp [Rval.bounds?])
    | ptrKfuncSlot id => exact iff_of_true (gamma_scalarTop _) (by simp [Rval.bounds?])

theorem Rval.base?_of_not_isPtr {a : Rval} (h : a.isPtr = false) : a.base? E = none := by
  cases a <;> first | rfl | cases h

/-- A widened pointer stands for the values near its base. -/
theorem gamma_widenOff {a : Rval} {v : Word} (h : a.isPtr = true) :
    Gamma E a.widenOff v ↔ ∀ base, a.base? E = some base → Near base v := by
  cases a with
  | ptrCtx lo hi => exact ⟨fun hn base hb => Option.some.inj hb ▸ hn, fun hn => hn _ rfl⟩
  | ptrStack lo hi => exact ⟨fun hn base hb => Option.some.inj hb ▸ hn, fun hn => hn _ rfl⟩
  | ptrHelperRet id => simp [Rval.widenOff, Rval.base?]
  | uninit => cases h
  | scalar c => cases h
  | ptrKfuncSlot id => cases h

/-- A register operation on a pointer follows the machine inside the fixed window only. -/
theorem gamma_aluRegResult {a b : Rval} {v : Word} (hab : (a.isPtr && b.isPtr) = false) :
    Gamma E (aluRegResult a b) v ↔
      ∀ base, a.base? E = some base ∨ b.base? E = some base → Near base v := by
  unfold aluRegResult
  cases ha : a.isPtr with
  | true =>
    have hb : b.isPtr = false := by simpa [ha] using hab
    simp [gamma_widenOff ha, Rval.base?_of_not_isPtr hb]
  | false =>
    cases hb : b.isPtr with
    | true => simp [gamma_widenOff hb, Rval.base?_of_not_isPtr ha]
    | false => simp [Rval.base?_of_not_isPtr ha, Rval.base?_of_not_isPtr hb]

/-- What an accepted step other than `ecall` says about the registers of the machine. -/
theorem stepPlain_gamma_iff (h0 : s.x 0 = 0) (hs : ∀ r, Gamma E (st.x r) (s.x r))
    (hr : (stepPlain cfg insn st).2 = []) (he : exec insn s = some s') :
    (∀ r, Gamma E ((stepPlain cfg insn st).1.x r) (s'.x r)) ↔ TransferCond E insn st s := by
  obtain ⟨hp, hne, -, hx⟩ := exec_eq_some he
  have hset := gamma_setReg_iff hs insn.rd
  simp only [hx, stepPlain_eq hr, TransferCond]
  unfold plainResult? result?
  unfold merlinInsnPermittedDefault at hp
  cases hc : insn.cls <;> simp only [hc, InsnClass.permittedDefault, Bool.false_eq_true] at hp hne ⊢
  case jalr =>
    constructor
    · intro h hrd
      have hr := h insn.rd
      rwa [if_pos ⟨rfl, hrd⟩] at hr
    · intro h r
      split
      · rename_i hr
        rw [hr.1]
        exact h hr.2
      · exact hs r
  case aluImm =>
    rw [hset]
    refine forall_congr' fun hrd => ?_
    split
    · rename_i ha
      rw [ha, aluExec, gamma_addiResult h0 (hs _)]
      simp
    · rename_i ha
      simp [ha]
  case aluReg =>
    rw [hset]
    refine forall_congr' fun hrd => gamma_aluRegResult ?_
    simp only [stepPlain, hc, stepAluReg] at hr
    by_contra htwo
    rw [if_pos (by simpa using htwo)] at hr
    cases hr
  case ecall => exact absurd rfl hne
  case store => exact iff_of_true hs (fun _ => trivial)
  case branch => exact iff_of_true hs (fun _ => trivial)
  case fence =>
    refine iff_of_true (fun r => ?_) (fun _ => trivial)
    rw [VState.setReg_x]
    split
    · exact gamma_scalarTop _
    · exact hs r
  case lui =>
    rw [hset]
    exact forall_congr' fun _ => iff_of_true (gamma_const.mpr rfl) trivial
  all_goals
    rw [hset]
    exact forall_congr' fun _ => iff_of_true (gamma_scalarTop _) trivial

/-- An `ecall` leaves nothing but the values of the registers it keeps. -/
theorem stepEcall_gamma {p : BitVec 32} (hs : ∀ r, Gamma E (st.x r) (s.x r))
    (hr : (stepEcall cfg st p).rejects = []) (hx : ∀ r, callerSaved r = false → s'.x r = s.x r)
    (r : Reg) : Gamma E ((stepEcall cfg st p).st.x r) (s'.x r) := by
  obtain ⟨a7, -, -, hst, -⟩ := stepEcall_eq hr
  rw [hst, VState.set_x]
  split
  · unfold ecallResult
    repeat' split
    all_goals simp
  · rename_i h10
    simp only [VState.clobber]
    split
    · trivial
    · rename_i hcl
      rw [hx r]
      · exact hs r
      · simp only [clobbered, callerSaved] at hcl ⊢
        revert r
        decide

theorem stepInsn_zero {p : BitVec 32} (h0 : st.x 0 = .const 0)
    (hr : (stepInsn merlinDecoder cfg insn st p).rejects = []) :
    (stepInsn merlinDecoder cfg insn st p).st.x 0 = .const 0 := by
  unfold stepInsn at hr ⊢
  split
  · exact h0
  · rename_i hp
    rw [if_neg hp] at hr
    split
    · rename_i hc
      rw [if_pos hc] at hr
      obtain ⟨a7, -, -, hst, -⟩ := stepEcall_eq hr
      rw [hst, VState.set_x]
      exact h0
    · rename_i hc
      rw [if_neg hc] at hr
      change (stepPlain cfg insn st).1.x 0 = _
      rw [stepPlain_eq hr]
      split
      · rw [VState.setReg_x, if_neg (fun h => h.2 h.1.symm), h0]
      · exact h0

/-- After the instruction the registers are again in the updated abstract state. -/
def TransferSound (E : Env) (cfg : VerifierCfg) (insn : Insn) (st : VState) (s : MState) : Prop :=
  ∀ s', Executes insn s s' →
    (∀ r, Gamma E ((stepInsn merlinDecoder cfg insn st 0).st.x r) (s'.x r)) ∧
      (stepInsn merlinDecoder cfg insn st 0).st.x 0 = .const 0

/-- `step_insn` follows the machine at a decoded instruction exactly under `TransferCond`. -/
theorem transferSound_iff (E : Env) (cfg : VerifierCfg) (w pc : BitVec 32) (st : VState) (s : MState)
    (h0 : st.x 0 = .const 0) (hs : ∀ r, Gamma E (st.x r) (s.x r))
    (hr : (stepInsn merlinDecoder cfg (merlinDecode w pc) st 0).rejects = []) :
    TransferSound E cfg (merlinDecode w pc) st s ↔ TransferCond E (merlinDecode w pc) st s := by
  have hzero := stepInsn_zero h0 hr
  generalize merlinDecode w pc = insn at hr hzero ⊢
  have hx0 : s.x 0 = 0 := gamma_const.mp (h0 ▸ hs 0)
  unfold TransferSound
  simp only [hzero, and_true]
  by_cases hp : merlinInsnPermittedDefault insn = true
  · have hperm : (!merlinDecoder.permitted insn) = false := by
      change (!merlinInsnPermittedDefault insn) = false
      rw [hp]
      rfl
    simp only [stepInsn, hperm, Bool.false_eq_true, if_false] at hr ⊢
    by_cases hc : insn.cls = .ecall
    · rw [if_pos hc] at hr
      rw [if_pos hc]
      refine iff_of_true (fun s' he => ?_) ?_
      · rcases he with he | ⟨-, he⟩
        · exact absurd hc (exec_eq_some he).2.1
        · exact stepEcall_gamma hs hr he
      · intro _
        rw [hc]
        trivial
    · rw [if_neg hc] at hr
      rw [if_neg hc]
      constructor
      · intro h
        obtain ⟨s', he⟩ := exec_isSome (s := s) hp hc
        exact (stepPlain_gamma_iff hx0 hs hr he).mp (h s' (.inl he))
      · rintro h s' (he | ⟨hec, -⟩)
        · exact (stepPlain_gamma_iff hx0 hs hr he).mpr h
        · exact absurd hec hc
  · simp [stepInsn, merlinDecoder, hp] at hr

theorem sampleEntry_gamma (v : Word) (r : Reg) :
    Gamma (sampleEnv []) ((vstateInitEntry merlinVerifierCfgInitForMvdp).x r)
      ((sampleEntry 11 v).x r) := by
  have hx := fun i (hi : i ≠ 11) => sampleEntry_x hi v
  unfold vstateInitEntry
  by_cases h0 : r = 0
  · subst h0
    exact gamma_const.mpr (hx 0 (by decide))
  by_cases h2 : r = 2
  · subst h2
    rw [hx 2 (by decide)]
    exact ⟨by decide, by decide⟩
  by_cases h10 : r = 10
  · subst h10
    rw [hx 10 (by decide)]
    exact ⟨by decide, by decide⟩
  · simp [h0, h2, h10]

/-- `add x5, a0, a1` with a small `a1` is followed. -/
theorem add_ctx_transferSound :
    TransferCond (sampleEnv []) (merlinDecode 0x00b502b3 0)
        (vstateInitEntry merlinVerifierCfgInitForMvdp) (sampleEntry 11 16) ∧
      TransferSound (sampleEnv []) merlinVerifierCfgInitForMvdp (merlinDecode 0x00b502b3 0)
        (vstateInitEntry merlinVerifierCfgInitForMvdp) (sampleEntry 11 16) := by
  have hcond : TransferCond (sampleEnv []) (merlinDecode 0x00b502b3 0)
      (vstateInitEntry merlinVerifierCfgInitForMvdp) (sampleEntry 11 16) := by
    intro _ b hb
    obtain rfl : b = 0x1000 := by
      rcases hb with hb | hb
      · exact (Option.some.inj hb).symm
      · cases hb
    exact ⟨by decide, by decide⟩
  exact ⟨hcond, (transferSound_iff _ _ _ _ _ _ rfl (sampleEntry_gamma 16) (by decide +kernel)).mpr hcond⟩

/-- `xor x5, a0, a1` leaves a context pointer near its base for the verifier and an address `2^40`
away on the machine. -/
theorem xor_ctx_not_transferSound :
    ∃ (E : Env) (cfg : VerifierCfg) (w pc : BitVec 32) (st : VState) (s : MState),
      merlinInsnPermittedDefault (merlinDecode w pc) = true ∧ st.x 0 = .const 0 ∧
        (∀ r, Gamma E (st.x r) (s.x r)) ∧
        (stepInsn merlinDecoder cfg (merlinDecode w pc) st 0).rejects = [] ∧
        ¬ TransferSound E cfg (merlinDecode w pc) st s := by
  refine ⟨sampleEnv [], merlinVerifierCfgInitForMvdp, 0x00b542b3, 0,
    vstateInitEntry merlinVerifierCfgInitForMvdp, sampleEntry 11 (1#64 <<< 40), by decide, rfl,
    sampleEntry_gamma _, by decide +kernel, fun h => ?_⟩
  obtain ⟨s', he⟩ : ∃ s', exec (merlinDecode 0x00b542b3 0) (sampleEntry 11 (1#64 <<< 40)) = some s' :=
    exec_isSome (by decide) (by decide)
  have hx := (exec_eq_some he).2.2.2 5
  have hval : s'.x 5 = 0x1000 ^^^ (1#64 <<< 40) := hx
  have h5 := (h s' (.inl he)).1 5
  rw [hval] at h5
  revert h5
  change ¬ (_ ∧ _)
  decide

end Soundness

end MerlinV
