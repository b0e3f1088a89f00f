import MerlinV.Lib.Loops
import MerlinV.Zephyr.Soundness

/-! # The scan's entry for the zero register

`x0` reads as zero on the machine.  The branches of `addi` with a known source write `rd` without the
test that every other branch of the scan makes, so its entry for `x0` can become any constant, or a
pointer that a load may then go through.
-/
namespace MerlinV.Zephyr

/-- The branch of `addi` for a source `src` writes something other than zero without a look at `rd`. -/
def Rval.spoils (src : Rval) (imm : BitVec 32) : Bool :=
  match src with
  | .const v => v != -imm
  | .ptrCtx _ | .ptrStack _ => true
  | .unknown | .ptrHelperRet _ => false

/-- A permitted `addi` to `x0` through such a branch. -/
def spoilsZero (x : VState) (z : Insn) : Bool :=
  merlinInsnPermittedRtos z && decide (z.cls = .aluImm ∧ z.aluOp = .add ∧ z.rd = 0) &&
    if z.rs1 = 0 then z.imm != 0 else (x z.rs1).spoils z.imm

section Step

variable {cfg : VerifierCfg} {text : Text} {s : Scan} {z : Insn}

theorem Scan.assign_x_zero (rd : Reg) (v : Rval) : (s.assign rd v).x 0 = s.x 0 := by
  rw [Scan.assign_x, if_neg]
  rintro ⟨h, hne⟩
  exact hne h.symm

theorem scanAccess_x_zero : (scanAccess z s).x 0 = s.x 0 := by
  have hrej := Scan.ite_keep_x ((s.x z.rs1).isPtr = true) s
  unfold scanAccess
  generalize (if (s.x z.rs1).isPtr = true then s else s.reject) = s' at hrej
  rw [← hrej]
  dsimp only
  split
  · exact Scan.assign_x_zero _ _
  · rfl

/-- Each branch of `addi` that writes without a test keeps the entry exactly when it writes zero. -/
theorem scanAddi_x_zero (hzero : s.x 0 = .const 0) : (scanAddi z s).x 0 = .const 0 ↔
    (z.rd = 0 → (if z.rs1 = 0 then z.imm != 0 else (s.x z.rs1).spoils z.imm) = false) := by
  have hset : ∀ v, (s.set z.rd v).x 0 = .const 0 ↔ (z.rd = 0 → v = .const 0) := by
    intro v
    rw [Scan.set_x]
    by_cases hrd : z.rd = 0
    · simp [hrd]
    · simp [hrd, Ne.symm hrd, hzero]
  unfold scanAddi
  by_cases hrs : z.rs1 = 0
  · rw [if_pos hrs, if_pos hrs, hset]
    simp
  · rw [if_neg hrs, if_neg hrs]
    cases hx : s.x z.rs1 with
    | unknown => simp [Scan.assign_x_zero, hzero, Rval.spoils]
    | const v =>
      have hsum : v + z.imm = 0 ↔ v = -z.imm := by grind
      rw [hset]
      simp only [Rval.const.injEq, Rval.spoils, bne_eq_false_iff_eq, hsum]
    | ptrCtx off =>
      rw [hset]
      simp [Rval.spoils]
    | ptrStack off =>
      rw [hset]
      simp [Rval.spoils]
    | ptrHelperRet id => simp [Scan.assign_x_zero, hzero, Rval.spoils]

/-- One instruction keeps the entry exactly when it is no such `addi`. -/
theorem scanInsn_x_zero (hzero : s.x 0 = .const 0) :
    (scanInsn cfg z s).x 0 = .const 0 ↔ spoilsZero s.x z = false := by
  by_cases hperm : merlinInsnPermittedRtos z = true
  · have hx := Scan.ite_reject_x (backEdge cfg z = true) s
    unfold scanInsn spoilsZero
    rw [if_neg (by simp [hperm])]
    generalize (if backEdge cfg z = true then s.reject else s) = s' at hx
    rw [← hx] at hzero ⊢
    simp only [hperm, Bool.true_and]
    by_cases hecall : z.cls = .ecall
    · have hkeep : (scanEcall cfg s').x 0 = s'.x 0 := scanEcall_x_saved (by decide)
      simp [hecall, hkeep, hzero]
    · rw [if_neg hecall]
      by_cases hacc : z.cls = .load ∨ z.cls = .store
      · have himm : z.cls ≠ .aluImm := by
          rcases hacc with h | h
          · simp [h]
          · simp [h]
        simp [hacc, himm, scanAccess_x_zero, hzero]
      · rw [if_neg hacc]
        by_cases haddi : z.cls = .aluImm ∧ z.aluOp = .add
        · rw [if_pos haddi, scanAddi_x_zero hzero]
          simp [haddi]
        · have hno : ¬ (z.cls = .aluImm ∧ z.aluOp = .add ∧ z.rd = 0) := fun h => haddi ⟨h.1, h.2.1⟩
          rw [if_neg haddi]
          split
          · simp [hno, Scan.assign_x_zero, hzero]
          · simp [hno, Scan.assign_x_zero, hzero]
  · simp [scanInsn, spoilsZero, hperm, hzero]

/-- One word of the text; a word that does not decode leaves the registers alone. -/
theorem scan_succ_x_zero {n : ℕ} (hzero : (scan cfg text n).x 0 = .const 0) :
    (scan cfg text (n + 1)).x 0 = .const 0 ↔
      ∀ z, insnAt text (4 * n) = some z → spoilsZero (scan cfg text n).x z = false := by
  rw [scan_succ, scanWord]
  cases hdec : insnAt text (4 * n) with
  | none => simpa using hzero
  | some z =>
    simp only [Option.some.injEq, forall_eq']
    exact @scanInsn_x_zero cfg { scan cfg text n with insnsSeen := (scan cfg text n).insnsSeen + 1 } z hzero

end Step

/-- The entry for `x0` is zero behind every prefix of the text exactly when no word is an `addi` to `x0`
that spoils it. -/
theorem zero_register_kept_iff (cfg : VerifierCfg) (text : Text) :
    (∀ n ≤ text.length / 4, (scan cfg text n).x 0 = .const 0) ↔
      ∀ i < text.length / 4, ∀ z, insnAt text (4 * i) = some z →
        spoilsZero (scan cfg text i).x z = false :=
  Lib.forall_le_iff_of_step (P := fun n => (scan cfg text n).x 0 = .const 0) rfl scan_succ_x_zero _

def zeroLoadText : Text := ofWords [0x00050013, 0x00002583, 0x00008067]

theorem zeroLoadText_judged_with_pointer :
    Accepted (merlinVerifierCfgForProg 512) zeroLoadText ∧
      (scan (merlinVerifierCfgForProg 512) zeroLoadText 1).x 0 = .ptrCtx 0 ∧
      ¬ ∀ n ≤ zeroLoadText.length / 4,
        (scan (merlinVerifierCfgForProg 512) zeroLoadText n).x 0 = .const 0 := by
  have hptr : (scan (merlinVerifierCfgForProg 512) zeroLoadText 1).x 0 = .ptrCtx 0 := by decide +kernel
  refine ⟨by decide +kernel, hptr, ?_⟩
  intro h
  have := h 1 (by decide)
  rw [hptr] at this
  cases this

end MerlinV.Zephyr
