import MerlinV.Soundness.Helpers

/-! # Memory accesses

What the checks on loads, stores and the stack pointer give for the runs of an accepted
text: the provenance of the base register, the frame of the stack, and the missing window
of the context.
-/
namespace MerlinV

def accessWidth? (insn : Insn) : Option ℕ :=
  match insn.cls with
  | .load => some (loadBytes insn.ldKind)
  | .store => some (storeBytes insn.stKind)
  | _ => none

def accessAddr (insn : Insn) (s : MState) : Word := s.x insn.rs1 + insn.imm

section Access

variable {textOffset : BitVec 32} {E : Env} {cfg : VerifierCfg} {s s' : MState} {g : Shadow}
  {insn : Insn} {w : ℕ} {st : VState}

/-- An accepted load or store goes through a pointer, and through the stack only inside the frame. -/
theorem access_checked (hw : accessWidth? insn = some w)
    (hrej : (stepInsn merlinDecoder cfg insn st 0).rejects = []) :
    (st.x insn.rs1).isPtr = true ∧ ∀ lo hi, st.x insn.rs1 = .ptrStack lo hi →
      (lo + insn.imm).slt (-cfg.budget) = false ∧
        (0#64).slt (hi + insn.imm + BitVec.ofNat 64 w) = false := by
  unfold accessWidth? at hw
  cases hc : insn.cls <;> simp only [hc, reduceCtorEq, Option.some.injEq] at hw
  case load =>
    rw [stepInsn_plain 0 (by simp [merlinInsnPermittedDefault, InsnClass.permittedDefault, hc])
      (by simp [hc])] at hrej
    simp only [stepPlain, hc, stepLoad, List.append_eq_nil_iff] at hrej
    have h := accessRejects_eq_nil.mp hrej.1
    rwa [show ldWidth insn.ldKind = w by rw [← hw]; cases insn.ldKind <;> rfl] at h
  case store =>
    rw [stepInsn_plain 0 (by simp [merlinInsnPermittedDefault, InsnClass.permittedDefault, hc])
      (by simp [hc])] at hrej
    simp only [stepPlain, hc, stepStore] at hrej
    have h := accessRejects_eq_nil.mp hrej
    rwa [show stWidth insn.stKind = w by rw [← hw]; cases insn.stKind <;> rfl] at h

/-- In a run along the block graph, the base of an access that is neither stale nor minted is a
context, stack or helper pointer moved by integers. -/
theorem access_base_ptr (hacc : Accepted E.text textOffset cfg) (hfit : CounterFits E.text textOffset cfg)
    (h : ShadowRun textOffset E cfg.isCallbackBody s g) (hf : E.fetch s.pc = some insn)
    (hw : (accessWidth? insn).isSome = true) (hstale : (g.tags insn.rs1).stale = false)
    (hmint : (g.tags insn.rs1).prov ≠ .minted) : ∃ root, (g.tags insn.rs1).prov = .ptr root := by
  obtain ⟨w, hw⟩ := Option.isSome_iff_exists.mp hw
  obtain ⟨st, hcov, hrej, -⟩ := h.exists_state hacc hfit hf
  have hptr := (access_checked hw hrej).1
  have hbase := (hcov insn.rs1).resolve_left (by simp [hstale])
  cases hx : st.x insn.rs1 with
  | uninit => simp [hx, Rval.isPtr] at hptr
  | scalar c => simp [hx, Rval.isPtr] at hptr
  | ptrKfuncSlot id => simp [hx, Rval.isPtr] at hptr
  | ptrCtx lo hi =>
    rw [hx] at hbase
    exact ⟨.ctx, hbase.resolve_right hmint⟩
  | ptrHelperRet id =>
    rw [hx] at hbase
    exact ⟨.helper, hbase.resolve_right hmint⟩
  | ptrStack lo hi =>
    rw [hx] at hbase
    exact ⟨.stack, (hbase.resolve_left hmint).1⟩

/-- The base of every access is a pointer moved by integers. -/
def BaseProvenance (textOffset : BitVec 32) (E : Env) (cfg : VerifierCfg) : Prop :=
  ∀ s g, ShadowRun textOffset E cfg.isCallbackBody s g → ∀ insn, E.fetch s.pc = some insn →
    (accessWidth? insn).isSome = true → ∃ root, (g.tags insn.rs1).prov = .ptr root

/-- `li a7, 0x101; ecall; ld x5, 0(a0); ret`: look a map element up and read it. -/
def lookupText : Text := ofWords [0x10100893, 0x00000073, 0x00053283, 0x00008067]

theorem lookupText_access_base_ptr : ∃ s g insn,
    ShadowRun 0x40 (sampleEnv lookupText) false s g ∧ (sampleEnv lookupText).fetch s.pc = some insn ∧
      (accessWidth? insn).isSome = true ∧ ∃ root, (g.tags insn.rs1).prov = .ptr root := by
  have hacc : Accepted lookupText 0x40 merlinVerifierCfgInitForMvdp := ⟨10, by decide +kernel⟩
  obtain ⟨s, g, hrun, hP⟩ := exists_shadowRun 0x40 lookupText 5 0 [.insn, .helper 0x7000]
    (fun p => ((sampleEnv lookupText).fetch p.1.pc).any fun i => (accessWidth? i).isSome &&
      !(p.2.tags i.rs1).stale && decide ((p.2.tags i.rs1).prov ≠ .minted))
    (by decide) (by decide) (by decide +kernel)
  simp only [Bool.and_eq_true, Option.any_eq_true, Bool.not_eq_true', decide_eq_true_iff] at hP
  obtain ⟨insn, hf, ⟨hw, hstale⟩, hmint⟩ := hP
  exact ⟨s, g, insn, hrun, hf, hw, access_base_ptr (E := sampleEnv lookupText) hacc
    (counterFits_of_cap (by decide)) hrun hf hw hstale hmint⟩

/-- `li a7, 0x110; ecall; ld x5, 0(a0); ret`: read through the time. -/
def ktimeLoadText : Text := ofWords [0x11000893, 0x00000073, 0x00053283, 0x00008067]

theorem ktimeLoadText_not_baseProvenance :
    Accepted ktimeLoadText 0x40 merlinVerifierCfgInitForMvdp ∧
      ¬ BaseProvenance 0x40 (sampleEnv ktimeLoadText) merlinVerifierCfgInitForMvdp := by
  refine ⟨⟨10, by decide +kernel⟩, fun hlaw => ?_⟩
  obtain ⟨s, g, hrun, hP⟩ := exists_shadowRun 0x40 ktimeLoadText 5 0 [.insn, .helper 0x7000]
    (fun p => ((sampleEnv ktimeLoadText).fetch p.1.pc).any fun i => (accessWidth? i).isSome &&
      decide ((p.2.tags i.rs1).prov = .minted))
    (by decide) (by decide) (by decide +kernel)
  simp only [Bool.and_eq_true, Option.any_eq_true, decide_eq_true_iff] at hP
  obtain ⟨insn, hf, hw, hmint⟩ := hP
  obtain ⟨root, hroot⟩ := hlaw s g hrun insn hf hw
  rw [hmint] at hroot
  cases hroot

end Access

section Stack

variable {textOffset : BitVec 32} {E : Env} {cfg : VerifierCfg} {s s' : MState} {g : Shadow}
  {insn : Insn} {w : ℕ} {st : VState}

variable (E cfg) in
def InFrame (a : Word) : Prop :=
  -(cfg.maxStackBytes.toNat : ℤ) ≤ (a - E.sp0).toInt ∧ (a - E.sp0).toInt < 0

variable (E cfg) in
/-- The stack pointer is at most the budget below its entry value. -/
def SpOk (s : MState) : Prop :=
  -(cfg.maxStackBytes.toNat : ℤ) ≤ (s.x 2 - E.sp0).toInt ∧ (s.x 2 - E.sp0).toInt ≤ 0

def IsAddiSp (insn : Insn) : Prop :=
  insn.cls = .aluImm ∧ insn.aluOp = .add ∧ insn.rd = 2 ∧ insn.rs1 = 2

/-- The classes that reach the default clobber, and `jalr`, which no check keeps away from `sp`. -/
def uncheckedRd (cls : InsnClass) : Bool :=
  cls = .shiftImm || cls = .aluImmW || cls = .aluRegW || cls = .mul || cls = .div || cls = .jalr

variable (E) in
/-- No unchecked class writes `sp`, and `addi sp, sp, K` finds an `sp` that is not stale. -/
def SpGuard (s : MState) (g : Shadow) : Prop :=
  ∀ insn, E.fetch s.pc = some insn → insn.rd = 2 →
    uncheckedRd insn.cls = false ∧ (insn.cls = .aluImm → (g.tags 2).stale = false)

/-- An accepted write to `sp` by a checked class is `addi sp, sp, K` on a pointer, inside the frame
when it is a stack pointer. -/
theorem sp_write_checked (hrd : insn.rd = 2) (hun : uncheckedRd insn.cls = false)
    (hres : (result? insn s).isSome = true) (hp : merlinInsnPermittedDefault insn = true)
    (hne : insn.cls ≠ .ecall) (hrej : (stepInsn merlinDecoder cfg insn st 0).rejects = []) :
    IsAddiSp insn ∧ ((∃ lo hi, st.x 2 = .ptrCtx lo hi) ∨ ∃ lo hi, st.x 2 = .ptrStack lo hi ∧
      (lo + insn.imm).slt (-cfg.budget) = false ∧ (0#64).slt (hi + insn.imm) = false) := by
  rw [stepInsn_plain 0 hp hne] at hrej
  unfold stepPlain at hrej
  unfold result? at hres
  unfold uncheckedRd at hun
  unfold merlinInsnPermittedDefault at hp
  unfold IsAddiSp
  cases hc : insn.cls <;> simp only [hc, InsnClass.permittedDefault] at hp hun hres hrej
  case load => exact absurd (List.append_eq_nil_iff.mp hrej).2 (by simp [assign_eq_nil, hrd])
  case lui => exact absurd hrej (by simp [assign_eq_nil, hrd])
  case auipc => exact absurd hrej (by simp [assign_eq_nil, hrd])
  case jal => exact absurd hrej (by simp [assign_eq_nil, hrd])
  case aluReg => exact absurd (List.append_eq_nil_iff.mp hrej).2 (by simp [assign_eq_nil, hrd])
  case aluImm =>
    unfold stepAluImm at hrej
    split at hrej
    · rename_i hadd
      obtain ⟨hrs1, hsrc⟩ := stepAddi_eq_nil.mp hrej hrd
      exact ⟨⟨rfl, hadd, hrd, hrs1⟩, hsrc⟩
    · exact absurd hrej (by simp [assign_eq_nil, hrd])
  all_goals simp at hp hun hres

theorem permitted_of_rejects (hrej : (stepInsn merlinDecoder cfg insn st 0).rejects = []) :
    merlinInsnPermittedDefault insn = true := by
  by_contra hp
  rw [Bool.not_eq_true] at hp
  simp [stepInsn, merlinDecoder, hp] at hrej

theorem result?_ecall (hres : (result? insn s).isSome = true) : insn.cls ≠ .ecall := by
  intro hc
  simp [result?, hc] at hres

/-- Arriving behind a call changes no provenance. -/
theorem land_tag (E : Env) (g : Shadow) (s' : MState) (tags : Reg → Tag) (r : Reg) :
    ((g.land E s' tags).tags r).prov = (tags r).prov ∧
    ((g.land E s' tags).tags r).far = (tags r).far := by
  unfold Shadow.land
  split
  · simp only [returnTags]
    split <;> exact ⟨rfl, rfl⟩
  · exact ⟨rfl, rfl⟩

variable (E cfg) in
structure SpInv (s : MState) (g : Shadow) : Prop where
  range : SpOk E cfg s
  prov : (g.tags 2).prov = .ptr .stack
  near : (g.tags 2).far = false

theorem addiSp_range (h : SpInv E cfg s g) (hstale : (g.tags 2).stale = false)
    (hcov : Cover E st s.x g.tags) (hb : ∀ r, (st.x r).OffBound (2 ^ 63 - 2 ^ 32))
    (himm : |insn.imm.toInt| ≤ 2 ^ 31)
    (hsrc : (∃ lo hi, st.x 2 = .ptrCtx lo hi) ∨ ∃ lo hi, st.x 2 = .ptrStack lo hi ∧
      (lo + insn.imm).slt (-cfg.budget) = false ∧ (0#64).slt (hi + insn.imm) = false) :
    -(cfg.maxStackBytes.toNat : ℤ) ≤ (s.x 2 + insn.imm - E.sp0).toInt ∧
      (s.x 2 + insn.imm - E.sp0).toInt ≤ 0 := by
  have h2 := (hcov 2).resolve_left (by simp [hstale])
  have hb2 := hb 2
  rcases hsrc with ⟨lo, hi, hx⟩ | ⟨lo, hi, hx, hlo, hhi⟩
  · rw [hx] at h2
    rcases h2 with h2 | h2
    · rw [h.prov] at h2
      cases h2
    · rw [h.prov] at h2
      cases h2
  · rw [hx] at h2 hb2
    rcases covers_stack_add (by omega) hb2 himm h2 with h2 | ⟨-, h2 | h2⟩
    · rw [h.prov] at h2
      cases h2
    · rw [h.near] at h2
      cases h2
    · simp only [BitVec.slt_eq_decide, decide_eq_false_iff_not, not_lt, BitVec.toInt_zero,
        budget_toInt] at hlo hhi
      exact ⟨hlo.trans h2.1, h2.2.trans hhi⟩

theorem plain_sp (hacc : Accepted E.text textOffset cfg) (hfit : CounterFits E.text textOffset cfg)
    (hrun : ShadowRun textOffset E cfg.isCallbackBody s g) (h : SpInv E cfg s g) (hg : SpGuard E s g)
    (hf : E.fetch s.pc = some insn) (he : exec insn s = some s') :
    SpOk E cfg s' ∧ (plainTags E insn s g.tags 2).prov = .ptr .stack ∧
      (plainTags E insn s g.tags 2).far = false := by
  obtain ⟨st, hcov, hrej, hb⟩ := hrun.exists_state hacc hfit hf
  obtain ⟨hp, hne, -, hx⟩ := exec_eq_some he
  by_cases hw : insn.rd = 2 ∧ (result? insn s).isSome = true
  · obtain ⟨hun, hst⟩ := hg insn hf hw.1
    obtain ⟨⟨hc, hadd, hrd, hrs1⟩, hsrc⟩ := sp_write_checked hw.1 hun hw.2 hp hne hrej
    have hval : s'.x 2 = s.x 2 + insn.imm := by
      rw [hx 2]
      simp [result?, hc, hrd, hrs1, hadd, aluExec]
    have himm : |insn.imm.toInt| ≤ 2 ^ 31 := by
      rw [(Env.fetch_eq_some hf).2]
      exact merlinDecode_imm_le _ _
    have htag : plainTags E insn s g.tags 2 = g.tags 2 := by
      simp [plainTags, resultTag, hc, hadd, hrs1]
    rw [htag]
    refine ⟨?_, h.prov, h.near⟩
    unfold SpOk
    rw [hval]
    exact addiSp_range h (hst hc) hcov hb himm hsrc
  · have hval : s'.x 2 = s.x 2 := by
      rw [hx 2]
      cases hv : result? insn s with
      | none => rfl
      | some v =>
        dsimp only
        rw [if_neg fun h2 => hw ⟨h2.1.symm, by simp [hv]⟩]
    have htag : plainTags E insn s g.tags 2 = g.tags 2 := by
      unfold plainTags
      rw [if_neg fun h2 => hw ⟨h2.1.symm, h2.2.2⟩]
    rw [htag]
    refine ⟨?_, h.prov, h.near⟩
    unfold SpOk
    rw [hval]
    exact h.range

theorem SpInv.step (hacc : Accepted E.text textOffset cfg) (hfit : CounterFits E.text textOffset cfg)
    (hrun : ShadowRun textOffset E cfg.isCallbackBody s g) (h : SpInv E cfg s g) (hg : SpGuard E s g)
    (hs : MStep E s s') : SpInv E cfg s' (g.next E s s') := by
  have hkeep : s'.x 2 = s.x 2 → SpOk E cfg s' := by
    intro hval
    unfold SpOk
    rw [hval]
    exact h.range
  cases hs with
  | plain insn hf he =>
    obtain ⟨hok, hprov, hfar⟩ := plain_sp hacc hfit hrun h hg hf he
    unfold Shadow.next
    simp only [hf]
    cases hc : insn.cls
    case ecall => exact absurd hc (exec_eq_some he).2.1
    case jalr =>
      have hland := land_tag E g s' (plainTags E insn s g.tags) 2
      exact ⟨hok, hland.1.trans hprov, hland.2.trans hfar⟩
    case jal =>
      dsimp only
      split <;> exact ⟨hok, hprov, hfar⟩
    all_goals exact ⟨hok, hprov, hfar⟩
  | helper insn hf hc hret =>
    unfold Shadow.next
    simp only [hf, hc]
    exact ⟨hkeep (hret.saved 2 rfl), h.prov, h.near⟩
  | kfunc id hout _ hret =>
    have hf : E.fetch s.pc = none := by simp [Env.fetch, hout]
    unfold Shadow.next
    simp only [hf]
    have hland := land_tag E g s' (callTags g.tags) 2
    exact ⟨hkeep (hret.saved 2 rfl), hland.1.trans h.prov, hland.2.trans h.near⟩

theorem GuardedRun.spInv (hacc : Accepted E.text textOffset cfg) (hfit : CounterFits E.text textOffset cfg)
    (h : GuardedRun textOffset E cfg.isCallbackBody (SpGuard E) s g) : SpInv E cfg s g := by
  induction h with
  | entry start =>
    refine ⟨?_, rfl, rfl⟩
    have hself : E.sp0 - E.sp0 = 0 := BitVec.sub_self _
    unfold SpOk
    rw [start.sp, hself]
    simp
  | step run guard hs hf ih => exact ih.step hacc hfit run.shadowRun guard hs

theorem toInt_ofNat_small {n : ℕ} (h : n ≤ 8) : (BitVec.ofNat 64 n).toInt = n := by
  interval_cases n <;> rfl

theorem accessWidth?_le (hw : accessWidth? insn = some w) : w ≤ 8 := by
  unfold accessWidth? at hw
  split at hw
  · rw [← Option.some.inj hw]
    cases insn.ldKind <;> decide
  · rw [← Option.some.inj hw]
    cases insn.stKind <;> decide
  · cases hw

theorem inFrame_of_range {a lo hi : Word} {n j : ℕ} (hn : n ≤ 8) (hj : j < n)
    (hhi : |hi.toInt| ≤ 2 ^ 63 - 2 ^ 31) (hrange : lo.toInt ≤ (a - E.sp0).toInt ∧ (a - E.sp0).toInt ≤ hi.toInt)
    (hlow : lo.slt (-cfg.budget) = false) (hup : (0#64).slt (hi + BitVec.ofNat 64 n) = false) :
    InFrame E cfg (a + BitVec.ofNat 64 j) := by
  have hlt := cfg.maxStackBytes.isLt
  have hend := toInt_add_cases hi (BitVec.ofNat 64 n)
  have hbyte := toInt_add_cases (a - E.sp0) (BitVec.ofNat 64 j)
  rw [toInt_ofNat_small hn] at hend
  rw [toInt_ofNat_small (by omega)] at hbyte
  simp only [BitVec.slt_eq_decide, decide_eq_false_iff_not, not_lt, BitVec.toInt_zero,
    budget_toInt] at hlow hup
  rw [abs_le] at hhi
  unfold InFrame
  rw [add_sub_base]
  omega

theorem access_inFrame (hacc : Accepted E.text textOffset cfg) (hfit : CounterFits E.text textOffset cfg)
    (hrun : ShadowRun textOffset E cfg.isCallbackBody s g) (hf : E.fetch s.pc = some insn)
    (hw : accessWidth? insn = some w) (hstale : (g.tags insn.rs1).stale = false)
    (hprov : (g.tags insn.rs1).prov = .ptr .stack) (hfar : (g.tags insn.rs1).far = false) {j : ℕ}
    (hj : j < w) : InFrame E cfg (accessAddr insn s + BitVec.ofNat 64 j) := by
  obtain ⟨st, hcov, hrej, hb⟩ := hrun.exists_state hacc hfit hf
  obtain ⟨hptr, hstack⟩ := access_checked hw hrej
  have hbase := (hcov insn.rs1).resolve_left (by simp [hstale])
  have hb1 := hb insn.rs1
  have himm : |insn.imm.toInt| ≤ 2 ^ 31 := by
    rw [(Env.fetch_eq_some hf).2]
    exact merlinDecode_imm_le _ _
  cases hx : st.x insn.rs1 with
  | uninit => simp [hx, Rval.isPtr] at hptr
  | scalar c => simp [hx, Rval.isPtr] at hptr
  | ptrKfuncSlot id => simp [hx, Rval.isPtr] at hptr
  | ptrCtx lo hi => simp [hx, Covers, hprov] at hbase
  | ptrHelperRet id => simp [hx, Covers, hprov] at hbase
  | ptrStack lo hi =>
    rw [hx] at hbase hb1
    obtain ⟨hlow, hup⟩ := hstack lo hi hx
    rcases covers_stack_add (by omega) hb1 himm hbase with h | ⟨-, h | h⟩
    · simp [hprov] at h
    · simp [hfar] at h
    · refine inFrame_of_range (accessWidth?_le hw) hj ?_ h hlow hup
      have hsum := toInt_add_cases hi insn.imm
      have hhi := hb1.2
      rw [abs_le] at hhi himm ⊢
      omega

/-- In a run along the block graph that keeps unchecked classes away from `sp` and moves it only
while it is not stale, the stack pointer stays in range, is written by `addi sp, sp, K` only, and
an access through a value derived from it that is neither stale nor far stays in the frame. -/
theorem stack_safe (hacc : Accepted E.text textOffset cfg) (hfit : CounterFits E.text textOffset cfg)
    (h : GuardedRun textOffset E cfg.isCallbackBody (SpGuard E) s g) :
    SpOk E cfg s ∧ ∀ insn, E.fetch s.pc = some insn →
      (SpGuard E s g → insn.rd = 2 → (result? insn s).isSome = true → IsAddiSp insn) ∧
      ∀ w, accessWidth? insn = some w → (g.tags insn.rs1).stale = false →
        (g.tags insn.rs1).prov = .ptr .stack → (g.tags insn.rs1).far = false →
        ∀ j < w, InFrame E cfg (accessAddr insn s + BitVec.ofNat 64 j) := by
  refine ⟨(h.spInv hacc hfit).range, fun insn hf => ⟨fun hg hrd hres => ?_, ?_⟩⟩
  · obtain ⟨st, -, hrej, -⟩ := h.shadowRun.exists_state hacc hfit hf
    exact (sp_write_checked hrd (hg insn hf hrd).1 hres (permitted_of_rejects hrej)
      (result?_ecall hres) hrej).1
  · intro w hw hstale hprov hfar j hj
    exact access_inFrame hacc hfit h.shadowRun hf hw hstale hprov hfar hj

def frameText : Text := ofWords [0xff010113, 0x00a12423, 0x00008067]

theorem frameText_stack_safe : ∃ s g insn,
    GuardedRun 0x40 (sampleEnv frameText) false (SpGuard (sampleEnv frameText)) s g ∧
      (sampleEnv frameText).fetch s.pc = some insn ∧ accessWidth? insn = some 4 ∧
      SpOk (sampleEnv frameText) merlinVerifierCfgInitForMvdp s ∧
      ∀ j < 4, InFrame (sampleEnv frameText) merlinVerifierCfgInitForMvdp
        (accessAddr insn s + BitVec.ofNat 64 j) := by
  have hacc : Accepted frameText 0x40 merlinVerifierCfgInitForMvdp := ⟨10, by decide +kernel⟩
  have hentry : Entry (sampleEnv frameText) false (sampleEntry 5 0) :=
    sampleEntry_entry (by decide) 5 0 (by decide)
  have hguard : SpGuard (sampleEnv frameText) (sampleEntry 5 0) (Shadow.entry false) := by
    have hf : (sampleEnv frameText).fetch (sampleEntry 5 0).pc = some (merlinDecode 0xff010113 0) := by
      decide +kernel
    intro insn hf' _
    rw [← Option.some.inj (hf.symm.trans hf')]
    decide
  have htest : (advance (sampleEnv frameText) (sampleEntry 5 0) .insn).any (fun s =>
      decide (FlowOk 0x40 (sampleEnv frameText) (sampleEntry 5 0) (Shadow.entry false) s) &&
        ((sampleEnv frameText).fetch s.pc).any fun i => accessWidth? i = some 4 &&
          ((Shadow.entry false).next (sampleEnv frameText) (sampleEntry 5 0) s).tags i.rs1 =
            ⟨false, .ptr .stack, false⟩) = true := by decide +kernel
  simp only [Bool.and_eq_true, Option.any_eq_true, decide_eq_true_iff] at htest
  obtain ⟨s, hs, hflow, insn, hf, hw, htag⟩ := htest
  have hrun := (GuardedRun.entry hentry).step hguard (advance_mStep hs) hflow
  have hsafe := stack_safe (E := sampleEnv frameText) hacc (counterFits_of_cap (by decide)) hrun
  refine ⟨s, _, insn, hrun, hf, hw, hsafe.1, fun j hj => ?_⟩
  exact (hsafe.2 insn hf).2 4 hw (by rw [htag]) (by rw [htag]) (by rw [htag]) j hj

/-- The law without a guard: `sp` in range, written by `addi sp, sp, K` only, and every access
through a value derived from it in the frame. -/
def StackLaw (textOffset : BitVec 32) (E : Env) (cfg : VerifierCfg) : Prop :=
  ∀ s g, ShadowRun textOffset E cfg.isCallbackBody s g → SpOk E cfg s ∧
    ∀ insn, E.fetch s.pc = some insn →
      (insn.rd = 2 → (result? insn s).isSome = true → IsAddiSp insn) ∧
      ∀ w, accessWidth? insn = some w → (g.tags insn.rs1).prov = .ptr .stack →
        ∀ j < w, InFrame E cfg (accessAddr insn s + BitVec.ofNat 64 j)

def shiftSpText : Text := ofWords [0x00111113, 0x00008067]

theorem shiftSpText_not_stackLaw : Accepted shiftSpText 0x40 merlinVerifierCfgInitForMvdp ∧
    ¬ StackLaw 0x40 (sampleEnv shiftSpText) merlinVerifierCfgInitForMvdp := by
  refine ⟨⟨10, by decide +kernel⟩, fun hlaw => ?_⟩
  obtain ⟨s, g, hrun, hP⟩ := exists_shadowRun 0x40 shiftSpText 5 0 [.insn] (fun p => p.1.x 2 = 0x40000)
    (by decide) (by decide) (by decide +kernel)
  rw [decide_eq_true_iff] at hP
  have hP : s.x 2 = 0x40000 := hP
  have hle := (hlaw s g hrun).1.2
  rw [hP] at hle
  revert hle
  decide

end Stack

section Context

variable {cfg : VerifierCfg}

def InWindow (E : Env) (B : ℕ) (a : Word) : Prop :=
  E.ctx.toNat ≤ a.toNat ∧ a.toNat < E.ctx.toNat + B

/-- The accesses through the context of every run of every accepted text stay in its first `B`
bytes. -/
def CtxWindow (cfg : VerifierCfg) (B : ℕ) : Prop :=
  ∀ textOffset E, Accepted E.text textOffset cfg → ∀ s g,
    ShadowRun textOffset E cfg.isCallbackBody s g → ∀ insn, E.fetch s.pc = some insn →
      ∀ w, accessWidth? insn = some w → (g.tags insn.rs1).prov = .ptr .ctx →
        ∀ j < w, InWindow E B (accessAddr insn s + BitVec.ofNat 64 j)

/-- `ld x5, -8(ctx)`, the context being in `a1` for a callback body. -/
def beforeCtxWord (callback : Bool) : BitVec 32 := if callback then 0xff85b283 else 0xff853283

def beforeCtxText (callback : Bool) : Text := ofWords [beforeCtxWord callback]

theorem beforeCtxText_build (callback : Bool) : ∃ G,
    merlinCfgBuild merlinDecoder (beforeCtxText callback) 0x40 = .ok G ∧
      G.blocks = [⟨0x40, 0x40, 1, none, none, 0, 0, false⟩] ∧ G.backEdges = [] := by
  have htest : (match merlinCfgBuild merlinDecoder (beforeCtxText callback) 0x40 with
      | .ok G => decide (G.blocks = [⟨0x40, 0x40, 1, none, none, 0, 0, false⟩] ∧ G.backEdges = [])
      | .error _ => false) = true := by
    cases callback <;> decide +kernel
  cases hb : merlinCfgBuild merlinDecoder (beforeCtxText callback) 0x40 with
  | error e =>
    rw [hb] at htest
    cases htest
  | ok G =>
    rw [hb] at htest
    exact ⟨G, rfl, of_decide_eq_true htest⟩

theorem load_ctx_accepted {insn : Insn} {st : VState} (lo hi : Word) (p : BitVec 32)
    (hc : insn.cls = .load) (hrd : insn.rd = 5) (hx : st.x insn.rs1 = .ptrCtx lo hi) :
    (stepInsn merlinDecoder cfg insn st p).rejects = [] := by
  rw [stepInsn_plain p (by simp [merlinInsnPermittedDefault, InsnClass.permittedDefault, hc])
    (by simp [hc])]
  simp [stepPlain, hc, stepLoad, hx, hrd, accessRejects, assign, Rval.isPtr]

theorem beforeCtxWord_accepted (cfg : VerifierCfg) (pc p : BitVec 32) :
    (stepInsn merlinDecoder cfg (merlinDecode (beforeCtxWord cfg.isCallbackBody) pc)
      (vstateInitEntry cfg) p).rejects = [] := by
  rw [merlinDecode_pc _ pc 0]
  cases hcb : cfg.isCallbackBody with
  | false =>
    refine load_ctx_accepted 0 0 p rfl rfl ?_
    change (vstateInitEntry cfg).x 10 = _
    simp [vstateInitEntry, hcb]
  | true =>
    refine load_ctx_accepted 0 0 p rfl rfl ?_
    change (vstateInitEntry cfg).x 11 = _
    simp [vstateInitEntry, hcb]

theorem beforeCtxText_accepted (cfg : VerifierCfg) :
    Accepted (beforeCtxText cfg.isCallbackBody) 0x40 cfg := by
  obtain ⟨G, hG, hblocks, hback⟩ := beforeCtxText_build cfg.isCallbackBody
  have hcap : ¬ 1 % 2 ^ 32 > cfg.effectiveCap := by
    unfold VerifierCfg.effectiveCap
    split
    · rename_i h0
      have : cfg.stepCap.toNat ≠ 0 := fun h => h0 (BitVec.eq_of_toNat_eq h)
      omega
    · decide
  have hlen : (beforeCtxText cfg.isCallbackBody).length % 4 = 0 := by
    cases cfg.isCallbackBody <;> rfl
  have hoffs : blockOffsets (beforeCtxText cfg.isCallbackBody) 0x40
      ⟨0x40, 0x40, 1, none, none, 0, 0, false⟩ = [0] := by
    cases cfg.isCallbackBody <;> decide
  have hinsn : verifyInsn merlinDecoder (beforeCtxText cfg.isCallbackBody) 0x40 0 =
      some (merlinDecode (beforeCtxWord cfg.isCallbackBody) 0x40) := by
    cases cfg.isCallbackBody <;> decide
  have hrej := beforeCtxWord_accepted cfg 0x40 0
  have hvisit : ∃ A, visit merlinDecoder cfg (beforeCtxText cfg.isCallbackBody) 0x40 G.blocks
      { Analysis.init cfg with queue := [] } 0 = some A ∧ A.queue = [] ∧ A.rejected = 0 := by
    have hvalid : (vstateInitEntry cfg).valid = true := rfl
    simp only [visit, visitVia, hblocks, List.getElem?_cons_zero, Analysis.init, Function.update_self,
      hvalid, Bool.not_true, Bool.false_eq_true, if_false, hoffs, insnLoop, hinsn, Nat.zero_add, hrej,
      List.length_nil, succsOf]
    rw [if_neg hcap]
    exact ⟨_, rfl, rfl, rfl⟩
  obtain ⟨A, hA, hq, hr⟩ := hvisit
  have hloop : verifyLoop merlinDecoder cfg (beforeCtxText cfg.isCallbackBody) 0x40 G.blocks 2
      (Analysis.init cfg) = some (.fixpoint A) := by
    have hpop : wsPop (Analysis.init cfg).queue = some (0, []) := rfl
    simp only [verifyLoop, hpop, hA]
    simp [hq, wsPop]
  refine ⟨2, ?_⟩
  simp only [merlinVerifyText, hlen, hG, Cfg.nblocks, hblocks, ne_eq, not_true_eq_false, if_false]
  rw [← hblocks, hloop]
  simp [verdict, gateRejects, hr, hback, hblocks]

/-- A run of the text that is about to read in front of the context. -/
theorem exists_access_before_ctx (cfg : VerifierCfg) : ∃ E s g insn,
    Accepted E.text 0x40 cfg ∧ ShadowRun 0x40 E cfg.isCallbackBody s g ∧ E.fetch s.pc = some insn ∧
      accessWidth? insn = some 8 ∧ (g.tags insn.rs1).prov = .ptr .ctx ∧
      (accessAddr insn s).toNat < E.ctx.toNat := by
  have hacc := beforeCtxText_accepted cfg
  cases hcb : cfg.isCallbackBody with
  | false =>
    rw [hcb] at hacc
    exact ⟨sampleEnv (beforeCtxText false), sampleEntry 5 0, Shadow.entry false,
      merlinDecode 0xff853283 0, hacc, .entry (sampleEntry_entry (by decide) 5 0 (by decide)),
      by decide +kernel, by decide, rfl, by decide⟩
  | true =>
    rw [hcb] at hacc
    exact ⟨sampleEnv (beforeCtxText true), sampleEntry 11 0x1000, Shadow.entry true,
      merlinDecode 0xff85b283 0, hacc, .entry (sampleEntry_callback (by decide)), by decide +kernel,
      by decide, rfl, by decide⟩

theorem CtxWindow.false {B : ℕ} (hlaw : CtxWindow cfg B) : False := by
  obtain ⟨E, s, g, insn, hacc, hrun, hf, hw, hprov, hlt⟩ := exists_access_before_ctx cfg
  have hin := (hlaw 0x40 E hacc s g hrun insn hf 8 hw hprov 0 (by decide)).1
  rw [show BitVec.ofNat 64 0 = 0#64 from rfl, BitVec.add_zero] at hin
  omega

/-- No bound holds for the accesses through the context, whatever the configuration. -/
theorem not_exists_ctxWindow (cfg : VerifierCfg) : ¬ ∃ B, CtxWindow cfg B :=
  fun ⟨_, hlaw⟩ => hlaw.false

theorem mvdp_not_ctxWindow : ¬ ∃ B, CtxWindow merlinVerifierCfgInitForMvdp B :=
  fun ⟨_, hlaw⟩ => hlaw.false

end Context

end MerlinV
