import MerlinV.Domain.Order
import MerlinV.Verify.Inversion
import MerlinV.Verify.Points

/-! # Monotonicity of the transfer function

A step that is accepted in a state is accepted in every smaller state and leaves a smaller
state there, except where `step_insn` looks at a register that is still `Uninit` below, or
tests a register operation for two pointers.
-/
namespace MerlinV

/-- The registers whose kind decides what `step_insn` does. -/
def consulted (insn : Insn) (st : VState) : List Reg :=
  match insn.cls with
  | .load | .store => [insn.rs1]
  | .aluImm => if insn.aluOp = .add ∧ insn.rs1 ≠ 0 then [insn.rs1] else []
  | .aluReg => [insn.rs1, insn.rs2]
  | .jalr => if insn.rs1 = 1 then [] else [insn.rs1]
  | .ecall => 17 :: match (st.x 17).const? with
    | some a7 =>
      let hid := a7.tn.value.setWidth 32
      if hid = helperLoopBound ∨ hid = helperKfuncResolve then [10]
      else if hid = helperLoopCb then [10, 11] else []
    | none => []
  | _ => []

/-- The instruction consults no `Uninit` register and operates on no two pointers. -/
def OrderSafe (insn : Insn) (st : VState) : Prop :=
  (∀ r ∈ consulted insn st, st.x r ≠ .uninit) ∧
    (insn.cls = .aluReg → ((st.x insn.rs1).isPtr && (st.x insn.rs2).isPtr) = false)

instance (insn : Insn) (st : VState) : Decidable (OrderSafe insn st) :=
  inferInstanceAs (Decidable (_ ∧ _))

/-- A well-formed value with an offset that `n` steps can reach. -/
def Rval.Good (n : ℕ) (v : Rval) : Prop := v.WellFormed ∧ v.OffBound (offLimit n)

namespace VState

def Le (st st' : VState) : Prop := ∀ r, (st.x r).Le (st'.x r)

theorem Le.set {st st' : VState} (h : st.Le st') (rd : Reg) {v v' : Rval} (hv : v.Le v') :
    (st.set rd v).Le (st'.set rd v') := by
  intro r
  rw [set_x, set_x]
  split
  · exact hv
  · exact h r

theorem Le.setReg {st st' : VState} (h : st.Le st') (rd : Reg) {v v' : Rval} (hv : v.Le v') :
    (st.setReg rd v).Le (st'.setReg rd v') := by
  unfold VState.setReg
  split
  · exact h
  · exact h.set rd hv

theorem Le.clobber {st st' : VState} (h : st.Le st') : st.clobber.Le st'.clobber := by
  intro r
  simp only [VState.clobber]
  split
  · exact Rval.le_refl trivial
  · exact h r

end VState

section Values

variable {a b : Rval}

theorem stepClosed_wellFormed (imm : Word) : StepClosed imm Rval.WellFormed Rval.WellFormed where
  keep _ h := h
  uninit := trivial
  top := Rval.wellFormed_scalarTop
  const v := Scalar.wellFormed_const v
  ret _ := trivial
  slot _ := trivial
  add _ h := Scalar.WellFormed.add h (Scalar.wellFormed_const imm)
  ctx _ _ _ := trivial
  stack _ _ _ := trivial
  widen v h := by cases v <;> exact h

theorem StepClosed.and {imm : Word} {P Q P' Q' : Rval → Prop} (h : StepClosed imm P Q)
    (h' : StepClosed imm P' Q') : StepClosed imm (fun v => P v ∧ P' v) fun v => Q v ∧ Q' v where
  keep v hv := ⟨h.keep v hv.1, h'.keep v hv.2⟩
  uninit := ⟨h.uninit, h'.uninit⟩
  top := ⟨h.top, h'.top⟩
  const v := ⟨h.const v, h'.const v⟩
  ret id := ⟨h.ret id, h'.ret id⟩
  slot id := ⟨h.slot id, h'.slot id⟩
  add s hs := ⟨h.add s hs.1, h'.add s hs.2⟩
  ctx lo hi hv := ⟨h.ctx lo hi hv.1, h'.ctx lo hi hv.2⟩
  stack lo hi hv := ⟨h.stack lo hi hv.1, h'.stack lo hi hv.2⟩
  widen v hv := ⟨h.widen v hv.1, h'.widen v hv.2⟩

theorem wellFormed_vstateInitEntry (cfg : VerifierCfg) (r : Reg) :
    ((vstateInitEntry cfg).x r).WellFormed := by
  simp only [vstateInitEntry]
  repeat' split
  all_goals first
    | exact Scalar.wellFormed_const 0
    | exact ⟨by decide, by decide, Tnum.canonical_top⟩
    | trivial

theorem runClosed_good (cfg : VerifierCfg) : RunClosed cfg Rval.Good where
  mono h hv := ⟨hv.1, (runClosed_offBound cfg).mono h hv.2⟩
  join h h' := ⟨h.1.join h'.1, (runClosed_offBound cfg).join h.2 h'.2⟩
  init r := ⟨wellFormed_vstateInitEntry cfg r, (runClosed_offBound cfg).init r⟩
  step hn himm := (stepClosed_wellFormed _).and ((runClosed_offBound cfg).step hn himm)
  uninit := ⟨trivial, trivial⟩

theorem Rval.const?_scalarTop : Rval.scalarTop.const? = none := by decide

theorem Rval.Le.kind_eq (h : a.Le b) (ha : a ≠ .uninit) (hb : b ≠ .scalarTop) : a.kind = b.kind := by
  rcases h.cases with hu | ht | hk
  · exact absurd hu ha
  · exact absurd ht hb
  · exact hk

theorem Rval.Le.const? {c : Scalar} (h : a.Le b) (ha : a ≠ .uninit) (wa : a.WellFormed)
    (wb : b.WellFormed) (hc : b.const? = some c) :
    ∃ s, a.const? = some s ∧ s.tn.value = c.tn.value ∧ s.smin = c.smin := by
  obtain ⟨rfl, hconst⟩ := Rval.const?_eq_some hc
  rcases h.cases with hu | htop | hk
  · exact absurd hu ha
  · rw [htop, Rval.const?_scalarTop] at hc
    cases hc
  · cases a with
    | scalar s =>
      have hle := (Rval.scalar_le_scalar (Scalar.WellFormed.tn wb)).mp h
      simp only [Scalar.isConst, Tnum.isConst, Bool.and_eq_true, beq_iff_eq] at hconst
      have htn : s.tn = c.tn := by
        apply Tnum.ext_bits
        intro i hi
        have hm : c.tn.mask.getLsbD i = false := by
          rw [hconst.1]
          simp
        rw [hm]
        exact hle.tn i hi hm
      have hmin : s.smin = c.smin := by
        apply BitVec.eq_of_toInt_eq
        have h₁ := hle.smin
        have h₂ := hle.smax
        have h₃ := Scalar.WellFormed.signed wa
        rw [← hconst.2] at h₂
        omega
      have hmax : s.smax = c.smin := by
        apply BitVec.eq_of_toInt_eq
        have h₁ := hle.smin
        have h₂ := hle.smax
        have h₃ := Scalar.WellFormed.signed wa
        rw [← hconst.2] at h₂
        omega
      refine ⟨s, ?_, by rw [htn], hmin⟩
      simp [Rval.const?, Scalar.isConst, Tnum.isConst, htn, hconst.1, hmin, hmax]
    | _ => cases hk

theorem Rval.Le.isPtr (h : a.Le b) (ha : a ≠ .uninit) (hb : b.isPtr = true) : a.isPtr = true := by
  have hk : a.kind = b.kind := h.kind_eq ha (by rintro rfl; cases hb)
  cases a <;> cases b <;> simp only [Rval.kind, reduceCtorEq] at hk <;> first | rfl | cases hb

theorem Rval.Le.widenOff (h : a.Le b) (ha : a ≠ .uninit) (hb : b.isPtr = true) :
    a.widenOff.Le b.widenOff := by
  have hk : a.kind = b.kind := h.kind_eq ha (by rintro rfl; cases hb)
  cases a <;> cases b <;> simp only [Rval.kind, reduceCtorEq] at hk <;> first
    | exact Rval.le_refl trivial
    | exact h

/-- Adding a number to offsets that stay away from the limits respects their order. -/
theorem offLe_add {lo hi lo' hi' imm : Word} {n : ℕ} {k : ℤ} (hn : n + k < 2 ^ 63)
    (himm : |imm.toInt| ≤ k) (h : Rval.OffLe lo hi lo' hi') (hb : |lo.toInt| ≤ n ∧ |hi.toInt| ≤ n)
    (hb' : |lo'.toInt| ≤ n ∧ |hi'.toInt| ≤ n) :
    Rval.OffLe (lo + imm) (hi + imm) (lo' + imm) (hi' + imm) := by
  have c₁ := toInt_add_cases lo imm
  have c₂ := toInt_add_cases hi imm
  have c₃ := toInt_add_cases lo' imm
  have c₄ := toInt_add_cases hi' imm
  simp only [abs_le] at himm hb hb'
  obtain ⟨h₁, h₂⟩ := h
  constructor
  · omega
  · omega

theorem offLimit_add_lt {n : ℕ} (hn : n < stepLimit) : offLimit n + (2 ^ 31 + 8) < 2 ^ 63 := by
  unfold offLimit
  unfold stepLimit at hn
  omega

/-- The bounds that keep an access, or `sp` itself, inside the frame hold of smaller offsets. -/
theorem window_mono {cfg : VerifierCfg} {lo hi lo' hi' imm w : Word} {n : ℕ} (hn : n < stepLimit)
    (himm : |imm.toInt| ≤ 2 ^ 31) (hw : |w.toInt| ≤ 8) (h : Rval.OffLe lo hi lo' hi')
    (hb : |lo.toInt| ≤ offLimit n ∧ |hi.toInt| ≤ offLimit n)
    (hb' : |lo'.toInt| ≤ offLimit n ∧ |hi'.toInt| ≤ offLimit n)
    (hwin : (lo' + imm).slt (-cfg.budget) = false ∧ (0#64).slt (hi' + imm + w) = false) :
    (lo + imm).slt (-cfg.budget) = false ∧ (0#64).slt (hi + imm + w) = false := by
  have hlim := offLimit_add_lt hn
  have h₁ := offLe_add (by omega) himm h hb hb'
  have h₂ := offLe_add (by omega) hw h₁ ⟨abs_add_le (by omega) himm hb.1, abs_add_le (by omega) himm hb.2⟩
    ⟨abs_add_le (by omega) himm hb'.1, abs_add_le (by omega) himm hb'.2⟩
  simp only [BitVec.slt_eq_decide, decide_eq_false_iff_not, not_lt] at hwin ⊢
  exact ⟨hwin.1.trans h₁.1, h₂.2.trans hwin.2⟩

end Values

section Step

variable {D : Decoder} {cfg : VerifierCfg} {insn : Insn} {st st' : VState} {n : ℕ}
  (hn : n < stepLimit) (himm : |insn.imm.toInt| ≤ 2 ^ 31) (hle : st.Le st')
  (hg : ∀ r, (st.x r).Good n) (hg' : ∀ r, (st'.x r).Good n)

include hn himm hle hg hg' in
theorem addiResult_mono (hinit : insn.rs1 ≠ 0 → st.x insn.rs1 ≠ .uninit) :
    (addiResult insn st).Le (addiResult insn st') := by
  have hlim := offLimit_add_lt hn
  unfold addiResult
  split
  · exact Rval.le_refl (Scalar.wellFormed_const _)
  · rename_i h0
    have hl := hle insn.rs1
    obtain ⟨w, hb⟩ := hg insn.rs1
    obtain ⟨w', hb'⟩ := hg' insn.rs1
    rcases hl.cases with h | htop | hk
    · exact absurd h (hinit h0)
    · have hres : Rval.scalar (Scalar.top.add (Scalar.const insn.imm)) = .scalarTop := by
        rw [Scalar.add_top_const]
        rfl
      rw [htop]
      change Rval.Le _ (Rval.scalar (Scalar.top.add (Scalar.const insn.imm)))
      rw [hres]
      exact Rval.le_scalarTop _
    · generalize st.x insn.rs1 = a at *
      generalize st'.x insn.rs1 = b at *
      cases a <;> cases b <;> simp only [Rval.kind, reduceCtorEq] at hk
      case scalar s c =>
        have hsc := (Rval.scalar_le_scalar (Scalar.WellFormed.tn w')).mp hl
        exact (Rval.scalar_le_scalar (Tnum.canonical_add _ _)).mpr
          (hsc.add w w' (Scalar.wellFormed_const _))
      case ptrCtx lo hi lo' hi' =>
        exact Rval.ctx_le_ctx.mpr (offLe_add (by omega) himm (Rval.ctx_le_ctx.mp hl) hb hb')
      case ptrStack lo hi lo' hi' =>
        exact Rval.stack_le_stack.mpr (offLe_add (by omega) himm (Rval.stack_le_stack.mp hl) hb hb')
      all_goals exact Rval.le_scalarTop _

/-- Register operations respect the order unless they are asked about two pointers. -/
theorem aluRegResult_mono {a b a₁ b₁ : Rval} (h : a.Le b) (h₁ : a₁.Le b₁) (ha : a ≠ .uninit)
    (ha₁ : a₁ ≠ .uninit) (hlow : (a.isPtr && a₁.isPtr) = false) :
    (aluRegResult a a₁).Le (aluRegResult b b₁) := by
  unfold aluRegResult
  cases hp : b.isPtr with
  | true =>
    simp only [h.isPtr ha hp, Bool.true_or, if_true]
    exact h.widenOff ha hp
  | false =>
    cases hp₁ : b₁.isPtr with
    | true =>
      have hpa : a.isPtr = false := by simpa [h₁.isPtr ha₁ hp₁] using hlow
      simp only [h₁.isPtr ha₁ hp₁, hpa, Bool.or_true, if_true, Bool.false_eq_true, if_false]
      exact h₁.widenOff ha₁ hp₁
    | false => exact Rval.le_scalarTop _

include hn himm hle hg hg' in
theorem plainResult_mono (hs : OrderSafe insn st) :
    Option.Rel Rval.Le (plainResult? insn st) (plainResult? insn st') := by
  obtain ⟨hinit, hsingle⟩ := hs
  unfold plainResult?
  unfold consulted at hinit
  cases hc : insn.cls <;> simp only [hc] at hinit hsingle ⊢
  case store => exact .none
  case branch => exact .none
  case jalr => exact .none
  case lui => exact .some (Rval.le_refl (Scalar.wellFormed_const _))
  case aluImm =>
    split
    · rename_i hadd
      exact .some (addiResult_mono hn himm hle hg hg' fun h0 => hinit _ (by simp [hadd, h0]))
    · exact .some (Rval.le_scalarTop _)
  case aluReg =>
    exact .some (aluRegResult_mono (hle _) (hle _) (hinit _ (by simp)) (hinit _ (by simp))
      (hsingle trivial))
  all_goals exact .some (Rval.le_scalarTop _)

include hn himm hle hg hg' in
theorem accessRejects_mono {width : ℕ} {r r' : Reject} (hw : width ≤ 8) {rs : Reg}
    (hinit : st.x rs ≠ .uninit) (hz : accessRejects cfg (st'.x rs) insn.imm width r r' = []) :
    accessRejects cfg (st.x rs) insn.imm width r r' = [] := by
  rw [accessRejects_eq_nil] at hz ⊢
  obtain ⟨hp, hwin⟩ := hz
  have hl := hle rs
  have hb := (hg rs).2
  have hb' := (hg' rs).2
  refine ⟨hl.isPtr hinit hp, fun lo hi hx => ?_⟩
  have hk : (st.x rs).kind = (st'.x rs).kind :=
    hl.kind_eq hinit (by intro h; rw [h] at hp; cases hp)
  rw [hx] at hk hl hb
  cases hx' : st'.x rs <;> rw [hx'] at hk hl hb' <;> simp only [Rval.kind, reduceCtorEq] at hk
  case ptrStack lo' hi' =>
    refine window_mono hn himm ?_ (Rval.stack_le_stack.mp hl) hb hb' (hwin lo' hi' hx')
    interval_cases width <;> decide

include hn himm hle hg hg' in
theorem spAddable_mono (hinit : st.x 2 ≠ .uninit) (hz : SpAddable cfg insn.imm (st'.x 2)) :
    SpAddable cfg insn.imm (st.x 2) := by
  have hl := hle 2
  have hb := (hg 2).2
  have hb' := (hg' 2).2
  have hk : (st.x 2).kind = (st'.x 2).kind := by
    refine hl.kind_eq hinit fun h => ?_
    rcases hz with ⟨lo, hi, hx⟩ | ⟨lo, hi, hx, -⟩ <;> rw [h] at hx <;> cases hx
  rcases hz with ⟨lo', hi', hx'⟩ | ⟨lo', hi', hx', hwin⟩
  · rw [hx'] at hk
    cases hx : st.x 2 <;> rw [hx] at hk <;> simp only [Rval.kind, reduceCtorEq] at hk
    case ptrCtx lo hi => exact .inl ⟨lo, hi, rfl⟩
  · rw [hx'] at hk hl hb'
    cases hx : st.x 2 <;> rw [hx] at hk hl hb <;> simp only [Rval.kind, reduceCtorEq] at hk
    case ptrStack lo hi =>
      refine .inr ⟨lo, hi, rfl, ?_⟩
      have hlow : (lo + insn.imm).slt (-cfg.budget) = false ∧ (0#64).slt (hi + insn.imm + 0#64) = false :=
        window_mono hn himm (by decide) (Rval.stack_le_stack.mp hl) hb hb' (by simpa using hwin)
      simpa using hlow

include hle in
theorem jalrRejects_mono (hinit : insn.rs1 ≠ 1 → st.x insn.rs1 ≠ .uninit)
    (hz : jalrRejects cfg insn st' = []) : jalrRejects cfg insn st = [] := by
  by_cases h1 : insn.rs1 = 1
  · simp [jalrRejects, h1]
  · have hl := hle insn.rs1
    have hi := hinit h1
    unfold jalrRejects at hz ⊢
    cases hx' : st'.x insn.rs1 <;> simp only [hx', h1] at hz <;> try cases hz
    case ptrKfuncSlot id =>
      rw [hx'] at hl
      have hk := hl.kind_eq hi (by simp [Rval.scalarTop])
      cases hx : st.x insn.rs1 <;> rw [hx] at hk hl <;> simp only [Rval.kind, reduceCtorEq] at hk
      case ptrKfuncSlot id' =>
        rw [Rval.slot_le_slot.mp hl]
        simpa [h1] using hz

include hn himm hle hg hg' in
theorem stepPlain_rejects_mono (hs : OrderSafe insn st) (hz : (stepPlain cfg insn st').2 = []) :
    (stepPlain cfg insn st).2 = [] := by
  obtain ⟨hinit, hsingle⟩ := hs
  unfold stepPlain at hz ⊢
  unfold consulted at hinit
  cases hc : insn.cls <;> simp only [hc] at hinit hsingle hz ⊢
  case load =>
    obtain ⟨hacc, hrd⟩ := List.append_eq_nil_iff.mp hz
    refine List.append_eq_nil_iff.mpr ⟨accessRejects_mono hn himm hle hg hg' ?_ (hinit _ (by simp)) hacc,
      assign_eq_nil.mpr (assign_eq_nil.mp hrd)⟩
    cases insn.ldKind <;> decide
  case store =>
    refine accessRejects_mono hn himm hle hg hg' ?_ (hinit _ (by simp)) hz
    cases insn.stKind <;> decide
  case aluImm =>
    unfold stepAluImm at hz ⊢
    split
    · rename_i hadd
      rw [if_pos hadd, stepAddi_eq_nil] at hz
      rw [stepAddi_eq_nil]
      intro hrd
      obtain ⟨hrs, haddable⟩ := hz hrd
      refine ⟨hrs, spAddable_mono hn himm hle hg hg' (hinit 2 ?_) haddable⟩
      simp [hadd, hrs]
    · rename_i hadd
      rw [if_neg hadd, assign_eq_nil] at hz
      exact assign_eq_nil.mpr hz
  case aluReg =>
    obtain ⟨-, hrd⟩ := List.append_eq_nil_iff.mp hz
    refine List.append_eq_nil_iff.mpr ⟨?_, assign_eq_nil.mpr (assign_eq_nil.mp hrd)⟩
    simp [hsingle trivial]
  case jalr => exact jalrRejects_mono hle (fun h1 => hinit _ (by simp [h1])) hz
  case lui => exact assign_eq_nil.mpr (assign_eq_nil.mp hz)
  case auipc => exact assign_eq_nil.mpr (assign_eq_nil.mp hz)
  case jal => exact assign_eq_nil.mpr (assign_eq_nil.mp hz)

include hn himm hle hg hg' in
theorem stepPlain_mono (hs : OrderSafe insn st) (hz : (stepPlain cfg insn st').2 = []) :
    (stepPlain cfg insn st).1.Le (stepPlain cfg insn st').1 := by
  have hres := plainResult_mono hn himm hle hg hg' hs
  rw [stepPlain_eq hz, stepPlain_eq (stepPlain_rejects_mono hn himm hle hg hg' hs hz)]
  cases h : plainResult? insn st <;> cases h' : plainResult? insn st' <;> rw [h, h'] at hres <;>
    cases hres
  case none.none => exact hle
  case some.some hv => exact hle.setReg _ hv

structure Step.Le (s s' : Step) : Prop where
  st : s.st.Le s'.st
  rejects : s.rejects = []
  pending : s.pending ≠ 0 → s'.pending ≠ 0

include hle hg hg' in
theorem const?_mono {r : Reg} {c : Scalar} (hinit : st.x r ≠ .uninit) (hc : (st'.x r).const? = some c) :
    ∃ s, (st.x r).const? = some s ∧ s.tn.value = c.tn.value ∧ s.smin = c.smin :=
  (hle r).const? hinit (hg r).1 (hg' r).1 hc

include hle hg hg' in
theorem loopBoundPending_mono {hid p p' : BitVec 32} (hp : p ≠ 0 → p' ≠ 0)
    (hinit : hid = helperLoopBound → st.x 10 ≠ .uninit) :
    loopBoundPending hid (st.x 10) p ≠ 0 → loopBoundPending hid (st'.x 10) p' ≠ 0 := by
  unfold loopBoundPending
  by_cases hid_eq : hid = helperLoopBound
  · rw [if_pos hid_eq, if_pos hid_eq]
    cases hc : (st'.x 10).const? with
    | none =>
      intro _
      decide
    | some c =>
      obtain ⟨s, hs, hval, -⟩ := const?_mono hle hg hg' (hinit hid_eq) hc
      rw [hs]
      simp only [hval]
      exact id
  · rw [if_neg hid_eq, if_neg hid_eq]
    exact hp

include hle hg hg' in
theorem stepKfuncResolve_mono {p p' : BitVec 32} (hp : p ≠ 0 → p' ≠ 0) (hinit : st.x 10 ≠ .uninit)
    (hz : (stepKfuncResolve cfg st' p').rejects = []) :
    (stepKfuncResolve cfg st p).Le (stepKfuncResolve cfg st' p') := by
  unfold stepKfuncResolve at hz ⊢
  cases hc : (st'.x 10).const? with
  | none => simp [hc] at hz
  | some c =>
    obtain ⟨s, hs, hval, -⟩ := const?_mono hle hg hg' hinit hc
    simp only [hc, hs, hval] at hz ⊢
    split
    · rename_i hno
      rw [if_pos hno] at hz
      cases hz
    · exact ⟨hle.clobber.set 10 (Rval.le_refl trivial), rfl, hp⟩

include hle hg hg' in
theorem stepLoopCb_mono {p p' : BitVec 32} (hinit : st.x 10 ≠ .uninit)
    (hinit₁ : st.x 11 ≠ .uninit) (hz : (stepLoopCb cfg st' p').rejects = []) :
    (stepLoopCb cfg st p).Le (stepLoopCb cfg st' p') := by
  have hst := hle.clobber.set 10 (Rval.le_scalarTop .scalarTop)
  unfold stepLoopCb at hz ⊢
  cases hc : (st'.x 10).const? with
  | none => simp [hc] at hz
  | some c =>
    obtain ⟨s, hs, hval, hmin⟩ := const?_mono hle hg hg' hinit hc
    cases hc₁ : (st'.x 11).const? with
    | none =>
      simp only [hc, hc₁] at hz
      split at hz <;> cases hz
    | some c₁ =>
      obtain ⟨s₁, hs₁, hval₁, -⟩ := const?_mono hle hg hg' hinit₁ hc₁
      simp only [hc, hs, hval, hmin, hc₁, hs₁, hval₁] at hz ⊢
      split
      · rename_i hneg
        rw [if_pos hneg] at hz
        cases hz
      · rename_i hneg
        rw [if_neg hneg] at hz
        split
        · rename_i hno
          rw [if_pos hno] at hz
          cases hz
        · exact ⟨hst, rfl, id⟩

include hle hg hg' in
theorem stepEcall_mono {p p' : BitVec 32} (hp : p ≠ 0 → p' ≠ 0) (hc : insn.cls = .ecall)
    (hs : OrderSafe insn st) (hz : (stepEcall cfg st' p').rejects = []) :
    (stepEcall cfg st p).Le (stepEcall cfg st' p') := by
  have hinit := hs.1
  simp only [consulted, hc] at hinit
  unfold stepEcall at hz ⊢
  cases h7' : (st'.x 17).const? with
  | none => simp [h7'] at hz
  | some c =>
    obtain ⟨s, h7, hval, -⟩ := const?_mono hle hg hg' (hinit 17 (by simp)) h7'
    simp only [h7', h7, hval] at hz hinit ⊢
    generalize BitVec.setWidth 32 c.tn.value = hid at hz hinit ⊢
    cases ha : helperAllowed cfg hid with
    | false => simp [ha] at hz
    | true =>
      simp only [ha, Bool.not_true, Bool.false_eq_true, if_false] at hz ⊢
      have hpend : loopBoundPending hid (st.x 10) p ≠ 0 → loopBoundPending hid (st'.x 10) p' ≠ 0 :=
        loopBoundPending_mono hle hg hg' hp fun h => hinit 10 (by simp [h])
      split
      · rename_i hk
        rw [if_pos hk] at hz
        exact stepKfuncResolve_mono hle hg hg' hpend (hinit 10 (by simp [hk])) hz
      · rename_i hk
        rw [if_neg hk] at hz
        split
        · rename_i hl
          have hmem : ∀ r : Reg, r = 10 ∨ r = 11 → st.x r ≠ .uninit := by
            intro r hr
            apply hinit r
            rw [hl]
            simpa [helperLoopCb, helperLoopBound, helperKfuncResolve] using .inr hr
          rw [if_pos hl] at hz
          exact stepLoopCb_mono hle hg hg' (hmem 10 (.inl rfl)) (hmem 11 (.inr rfl)) hz
        · exact ⟨hle.clobber.set 10 (Rval.le_refl trivial), rfl, hpend⟩

include hn himm hle hg hg' in
/-- A step that is accepted above is accepted below and leaves less there. -/
theorem stepInsn_mono {p p' : BitVec 32} (hp : p ≠ 0 → p' ≠ 0) (hs : OrderSafe insn st)
    (hz : (stepInsn D cfg insn st' p').rejects = []) :
    (stepInsn D cfg insn st p).Le (stepInsn D cfg insn st' p') := by
  unfold stepInsn at hz ⊢
  split
  · rename_i hperm
    rw [if_pos hperm] at hz
    cases hz
  · rename_i hperm
    rw [if_neg hperm] at hz
    split
    · rename_i hc
      rw [if_pos hc] at hz
      exact stepEcall_mono hle hg hg' hp hc hs hz
    · rename_i hc
      rw [if_neg hc] at hz
      exact ⟨stepPlain_mono hn himm hle hg hg' hs hz, stepPlain_rejects_mono hn himm hle hg hg' hs hz, hp⟩

end Step

section Block

variable (D : Decoder) (cfg : VerifierCfg) (text : Text) (textOffset : BitVec 32)

/-- Every instruction of a block is safe in the state the block brings to it. -/
def BlockSafe : List ℕ → VState → BitVec 32 → Prop
  | [], _, _ => True
  | off :: offs, st, p =>
    match verifyInsn D text textOffset off with
    | none => BlockSafe offs st p
    | some insn => OrderSafe insn st ∧
      BlockSafe offs (stepInsn D cfg insn st p).st (stepInsn D cfg insn st p).pending

instance decidableBlockSafe : (offs : List ℕ) → (st : VState) → (p : BitVec 32) →
    Decidable (BlockSafe D cfg text textOffset offs st p)
  | [], _, _ => inferInstanceAs (Decidable True)
  | off :: offs, st, p =>
    match h : verifyInsn D text textOffset off with
    | none =>
      have := decidableBlockSafe offs st p
      decidable_of_iff (BlockSafe D cfg text textOffset offs st p) (by simp only [BlockSafe, h])
    | some insn =>
      have := decidableBlockSafe offs (stepInsn D cfg insn st p).st (stepInsn D cfg insn st p).pending
      decidable_of_iff (OrderSafe insn st ∧ BlockSafe D cfg text textOffset offs
        (stepInsn D cfg insn st p).st (stepInsn D cfg insn st p).pending) (by simp only [BlockSafe, h])

variable {D cfg text textOffset}

/-- A block that raises nothing above raises nothing below, and leaves less there. -/
theorem blockOut_mono (offs : List ℕ) {st st' : VState} {p p' : BitVec 32} {n : ℕ}
    (hn : n + offs.length < stepLimit) (hle : st.Le st') (hg : ∀ r, (st.x r).Good n)
    (hg' : ∀ r, (st'.x r).Good n) (hp : p ≠ 0 → p' ≠ 0)
    (hs : BlockSafe merlinDecoder cfg text textOffset offs st p)
    (hz : (blockOut merlinDecoder cfg text textOffset offs st' p').rejects = 0) :
    (blockOut merlinDecoder cfg text textOffset offs st p).rejects = 0 ∧
      (blockOut merlinDecoder cfg text textOffset offs st p).st.Le
        (blockOut merlinDecoder cfg text textOffset offs st' p').st ∧
      ((blockOut merlinDecoder cfg text textOffset offs st p).pending ≠ 0 →
        (blockOut merlinDecoder cfg text textOffset offs st' p').pending ≠ 0) := by
  induction offs generalizing st st' p p' n with
  | nil => exact ⟨rfl, hle, hp⟩
  | cons off offs ih =>
    have hi : verifyInsn merlinDecoder text textOffset off =
      some (merlinDecode (textWord text off) (pcAt textOffset off)) := rfl
    have himm := merlinDecode_imm_le (textWord text off) (pcAt textOffset off)
    simp only [BlockSafe, hi] at hs
    simp only [blockOut, hi] at hz ⊢
    generalize merlinDecode (textWord text off) (pcAt textOffset off) = insn at himm hs hz ⊢
    rw [List.length_cons] at hn
    obtain ⟨hz₁, hz₂⟩ := Nat.add_eq_zero_iff.mp hz
    have hclosed : StepClosed insn.imm (Rval.Good n) (Rval.Good (n + 1)) :=
      (runClosed_good cfg).step (by omega) himm
    have hstep := stepInsn_mono (by omega) himm hle hg hg' hp hs.1 (List.length_eq_zero_iff.mp hz₁)
    obtain ⟨h₁, h₂, h₃⟩ := ih (by omega) hstep.st (stepInsn_values hclosed hg p)
      (stepInsn_values hclosed hg' p') hstep.pending hs.2 hz₂
    exact ⟨by rw [hstep.rejects, h₁]; rfl, h₂, h₃⟩

end Block

end MerlinV
