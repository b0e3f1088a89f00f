import MerlinV.Verify.Worklist
import MerlinV.Cfg.Edges

/-! # The worklist invariant

The loop of `merlin_verify_text` under any order: a step takes any queued block and
visits its successors in any order, the loop as coded being one such order.  Every block
with a valid entry state is queued or stable, so that a run that empties its queue ends
in a state that no block can change and whose rejections cover those of every block.
-/
namespace MerlinV

section Step

variable {D : Decoder} {cfg : VerifierCfg} {insn : Insn} {st : VState}

theorem assign_valid (rd : Reg) (v : Rval) (why : Reject) :
    (assign st rd v why).1.valid = st.valid := by
  unfold assign
  split
  · rfl
  · split <;> rfl

@[simp] theorem clobber_valid : st.clobber.valid = st.valid := rfl

theorem stepEcall_valid (p : BitVec 32) : (stepEcall cfg st p).st.valid = st.valid := by
  unfold stepEcall
  split
  · rfl
  · simp only [stepKfuncResolve, stepLoopCb]
    repeat' split
    all_goals rfl

theorem stepPlain_valid : (stepPlain cfg insn st).1.valid = st.valid := by
  unfold stepPlain
  split
  · exact assign_valid _ _ _
  · rfl
  · unfold stepAluImm
    split
    · unfold stepAddi
      split
      · exact assign_valid _ _ _
      · split
        · rfl
        · split
          · exact assign_valid _ _ _
          · split <;> rfl
          · split <;> rfl
          · exact assign_valid _ _ _
    · exact assign_valid _ _ _
  · exact assign_valid _ _ _
  · exact assign_valid _ _ _
  · exact assign_valid _ _ _
  · rfl
  · exact assign_valid _ _ _
  · rfl
  · dsimp only
    split <;> rfl

theorem stepInsn_valid (p : BitVec 32) : (stepInsn D cfg insn st p).st.valid = st.valid := by
  unfold stepInsn
  split
  · rfl
  · split
    · exact stepEcall_valid p
    · exact stepPlain_valid

/-- The values a step can leave in a register, given what it found. -/
structure StepClosed (imm : Word) (P Q : Rval → Prop) : Prop where
  keep : ∀ v, P v → Q v
  uninit : Q .uninit
  top : Q .scalarTop
  const : ∀ v, Q (.const v)
  ret : ∀ id, Q (.ptrHelperRet id)
  slot : ∀ id, Q (.ptrKfuncSlot id)
  add : ∀ s, P (.scalar s) → Q (.scalar (s.add (Scalar.const imm)))
  ctx : ∀ lo hi, P (.ptrCtx lo hi) → Q (.ptrCtx (lo + imm) (hi + imm))
  stack : ∀ lo hi, P (.ptrStack lo hi) → Q (.ptrStack (lo + imm) (hi + imm))
  widen : ∀ v, P v → Q v.widenOff

variable {P Q : Rval → Prop}

theorem set_values (h : ∀ r, Q (st.x r)) (rd : Reg) {v : Rval} (hv : Q v) (r : Reg) :
    Q ((st.set rd v).x r) := by
  rw [VState.set_x]
  split
  · exact hv
  · exact h r

theorem assign_values (htop : Q .scalarTop) (h : ∀ r, Q (st.x r)) (rd : Reg) {v : Rval} (hv : Q v)
    (why : Reject) (r : Reg) : Q ((assign st rd v why).1.x r) := by
  unfold assign
  split
  · exact set_values h 2 htop r
  · split
    · exact set_values h rd hv r
    · exact h r

theorem clobber_values (huninit : Q .uninit) (h : ∀ r, Q (st.x r)) (r : Reg) :
    Q (st.clobber.x r) := by
  simp only [VState.clobber]
  split
  · exact huninit
  · exact h r

theorem stepEcall_values (hc : StepClosed insn.imm P Q) (h : ∀ r, P (st.x r)) (p : BitVec 32)
    (r : Reg) : Q ((stepEcall cfg st p).st.x r) := by
  have hq := fun r => hc.keep _ (h r)
  have hclob := fun r => clobber_values hc.uninit hq r
  unfold stepEcall
  split
  · exact set_values hq 10 hc.top r
  · simp only [stepKfuncResolve, stepLoopCb]
    repeat' split
    all_goals first
      | exact set_values hq 10 hc.top r
      | exact set_values hclob 10 hc.top r
      | exact set_values hclob 10 (hc.slot _) r
      | exact set_values hclob 10 (hc.ret _) r

theorem stepAddi_values (hc : StepClosed insn.imm P Q) (h : ∀ r, P (st.x r)) (r : Reg) :
    Q ((stepAddi cfg insn st).1.x r) := by
  have hq := fun r => hc.keep _ (h r)
  have hs := h insn.rs1
  unfold stepAddi
  split
  · exact assign_values hc.top hq _ (hc.const _) _ r
  · split
    · exact set_values hq 2 hc.top r
    · split
      · rename_i s heq
        rw [heq] at hs
        exact assign_values hc.top hq _ (hc.add s hs) _ r
      · rename_i lo hi heq
        rw [heq] at hs
        split
        · exact set_values hq _ (hc.ctx lo hi hs) r
        · exact hq r
      · rename_i lo hi heq
        rw [heq] at hs
        split
        · exact set_values hq _ (hc.stack lo hi hs) r
        · exact hq r
      · exact assign_values hc.top hq _ hc.top _ r

theorem stepPlain_values (hc : StepClosed insn.imm P Q) (h : ∀ r, P (st.x r)) (r : Reg) :
    Q ((stepPlain cfg insn st).1.x r) := by
  have hq := fun r => hc.keep _ (h r)
  unfold stepPlain
  split
  · exact assign_values hc.top hq _ hc.top _ r
  · exact hq r
  · unfold stepAluImm
    split
    · exact stepAddi_values hc h r
    · exact assign_values hc.top hq _ hc.top _ r
  · exact assign_values hc.top hq _ (hc.const _) _ r
  · exact assign_values hc.top hq _ hc.top _ r
  · refine assign_values hc.top hq _ ?_ _ r
    unfold aluRegResult
    split
    · split
      · exact hc.widen _ (h _)
      · exact hc.widen _ (h _)
    · exact hc.top
  · exact hq r
  · exact assign_values hc.top hq _ hc.top _ r
  · exact hq r
  · dsimp only
    split
    · exact set_values hq _ hc.top r
    · exact hq r

/-- One case analysis for every property of single register values. -/
theorem stepInsn_values (hc : StepClosed insn.imm P Q) (h : ∀ r, P (st.x r)) (p : BitVec 32)
    (r : Reg) : Q ((stepInsn D cfg insn st p).st.x r) := by
  unfold stepInsn
  split
  · exact hc.keep _ (h r)
  · split
    · exact stepEcall_values hc h p r
    · exact stepPlain_values hc h r

theorem stepClosed_canonical (imm : Word) : StepClosed imm Rval.Canonical Rval.Canonical where
  keep _ h := h
  uninit := trivial
  top := Rval.canonical_scalarTop
  const v := Rval.canonical_const v
  ret _ := trivial
  slot _ := trivial
  add _ _ := Tnum.canonical_add _ _
  ctx _ _ _ := trivial
  stack _ _ _ := trivial
  widen v h := by cases v <;> exact h

theorem stepInsn_canonical (h : st.Canonical) (p : BitVec 32) :
    (stepInsn D cfg insn st p).st.Canonical :=
  stepInsn_values (stepClosed_canonical insn.imm) h p

end Step

section Block

variable (D : Decoder) (cfg : VerifierCfg) (text : Text) (textOffset : BitVec 32)

structure BlockOut where
  st : VState
  pending : BitVec 32
  steps : ℕ
  rejects : ℕ

/-- The instruction loop without the step cap. -/
def blockOut : List ℕ → VState → BitVec 32 → BlockOut
  | [], st, p => ⟨st, p, 0, 0⟩
  | off :: offs, st, p =>
    match verifyInsn D text textOffset off with
    | none =>
      let out := blockOut offs st p
      { out with rejects := out.rejects + 1 }
    | some insn =>
      let step := stepInsn D cfg insn st p
      let out := blockOut offs step.st step.pending
      { out with steps := out.steps + 1, rejects := step.rejects.length + out.rejects }

variable {D cfg text textOffset}

/-- Below the cap the instruction loop is `blockOut` with its counters added. -/
theorem insnLoop_eq_some {offs : List ℕ} {r r' : BlockRun}
    (h : insnLoop D cfg text textOffset offs r = some r') :
    r' = ⟨(blockOut D cfg text textOffset offs r.st r.pending).st,
      (blockOut D cfg text textOffset offs r.st r.pending).pending,
      r.steps + (blockOut D cfg text textOffset offs r.st r.pending).steps,
      r.rejected + (blockOut D cfg text textOffset offs r.st r.pending).rejects⟩ := by
  induction offs generalizing r with
  | nil => exact (Option.some.inj h).symm
  | cons off offs ih =>
    rw [insnLoop] at h
    cases hi : verifyInsn D text textOffset off with
    | none =>
      simp only [hi] at h
      rw [ih h]
      simp only [blockOut, hi]
      rw [BlockRun.mk.injEq]
      exact ⟨rfl, rfl, rfl, by omega⟩
    | some insn =>
      simp only [hi] at h
      split at h
      · cases h
      · rw [ih h]
        simp only [blockOut, hi]
        rw [BlockRun.mk.injEq]
        exact ⟨rfl, rfl, by omega, by omega⟩

theorem insnLoop_steps_le {offs : List ℕ} {r r' : BlockRun}
    (hcap : cfg.effectiveCap < 2 ^ 32 - 1) (hr : r.steps ≤ cfg.effectiveCap)
    (h : insnLoop D cfg text textOffset offs r = some r') : r'.steps ≤ cfg.effectiveCap := by
  induction offs generalizing r with
  | nil =>
    rw [← Option.some.inj h]
    exact hr
  | cons off offs ih =>
    rw [insnLoop] at h
    cases hi : verifyInsn D text textOffset off with
    | none =>
      simp only [hi] at h
      exact ih (r := { r with rejected := r.rejected + 1 }) hr h
    | some insn =>
      simp only [hi] at h
      split at h
      · cases h
      · rename_i hle
        exact ih (by dsimp only; omega) h

theorem blockOut_canonical {offs : List ℕ} {st : VState} (h : st.Canonical) (p : BitVec 32) :
    (blockOut D cfg text textOffset offs st p).st.Canonical := by
  induction offs generalizing st p with
  | nil => exact h
  | cons off offs ih =>
    rw [blockOut]
    cases verifyInsn D text textOffset off with
    | none => exact ih h p
    | some insn => exact ih (stepInsn_canonical h p) _

theorem blockOut_valid (offs : List ℕ) (st : VState) (p : BitVec 32) :
    (blockOut D cfg text textOffset offs st p).st.valid = st.valid := by
  induction offs generalizing st p with
  | nil => rfl
  | cons off offs ih =>
    rw [blockOut]
    cases verifyInsn D text textOffset off with
    | none => exact ih st p
    | some insn => exact (ih _ _).trans (stepInsn_valid p)

theorem blockOut_append (l₁ l₂ : List ℕ) (st : VState) (p : BitVec 32) :
    blockOut D cfg text textOffset (l₁ ++ l₂) st p =
      let out₁ := blockOut D cfg text textOffset l₁ st p
      let out₂ := blockOut D cfg text textOffset l₂ out₁.st out₁.pending
      ⟨out₂.st, out₂.pending, out₁.steps + out₂.steps, out₁.rejects + out₂.rejects⟩ := by
  induction l₁ generalizing st p with
  | nil => simp [blockOut]
  | cons off l₁ ih =>
    rw [List.cons_append, blockOut, blockOut]
    cases verifyInsn D text textOffset off with
    | none =>
      simp only [ih, BlockOut.mk.injEq, true_and]
      omega
    | some insn =>
      simp only [ih, BlockOut.mk.injEq, true_and]
      omega

end Block

section Push

variable {st : VState} {A : Analysis}

theorem mem_wsPush {q : List ℕ} {a b : ℕ} : a ∈ wsPush q b ↔ a ∈ q ∨ a = b := by
  unfold wsPush
  split
  · rename_i hb
    exact ⟨.inl, fun h => h.elim id fun hab => hab ▸ hb⟩
  · simp

theorem nodup_wsPush {q : List ℕ} (h : q.Nodup) (b : ℕ) : (wsPush q b).Nodup := by
  unfold wsPush
  split
  · exact h
  · rename_i hb
    refine h.append (List.nodup_singleton b) ?_
    simpa using hb

theorem pushSuccs_frame (st : VState) (A : Analysis) (succs : List ℕ) :
    (succs.foldl (pushSucc st) A).steps = A.steps ∧
      (succs.foldl (pushSucc st) A).rejected = A.rejected ∧
      (succs.foldl (pushSucc st) A).loopHeaderOk = A.loopHeaderOk := by
  induction succs generalizing A with
  | nil => exact ⟨rfl, rfl, rfl⟩
  | cons n succs ih => exact ih _

theorem pushSuccs_entry (hst : st.Canonical) (succs : List ℕ) (n : ℕ) :
    (succs.foldl (pushSucc st) A).entryState n =
      if n ∈ succs then (A.entryState n).join st else A.entryState n := by
  induction succs generalizing A with
  | nil => rfl
  | cons m succs ih =>
    rw [List.foldl_cons, ih]
    by_cases hnm : n = m
    · subst hnm
      simp only [pushSucc, Function.update_self, List.mem_cons, true_or, if_true]
      split
      · exact VState.join_join_self hst
      · rfl
    · simp [pushSucc, hnm]

/-- A block is queued by the successor loop exactly when its entry state changed. -/
theorem pushSuccs_mem_queue (hst : st.Canonical) (succs : List ℕ) (n : ℕ) :
    n ∈ (succs.foldl (pushSucc st) A).queue ↔
      n ∈ A.queue ∨ n ∈ succs ∧ (A.entryState n).join st ≠ A.entryState n := by
  induction succs generalizing A with
  | nil => simp
  | cons m succs ih =>
    rw [List.foldl_cons, ih]
    by_cases hnm : n = m
    · subst hnm
      have hsame := VState.join_join_self (a := A.entryState n) hst
      simp only [pushSucc, Function.update_self, List.mem_cons, true_or, true_and, hsame, ne_eq,
        not_true_eq_false, and_false, or_false]
      cases hc : (A.entryState n).joinChanged st with
      | true =>
        have hne : (A.entryState n).join st ≠ A.entryState n := by
          intro heq
          rw [VState.joinChanged_eq_false.mpr heq] at hc
          cases hc
        simp [mem_wsPush, hne]
      | false =>
        simp [VState.joinChanged_eq_false.mp hc]
    · have hq : n ∈ (pushSucc st A m).queue ↔ n ∈ A.queue := by
        simp only [pushSucc]
        split
        · simp [mem_wsPush, hnm]
        · rfl
      have he : (pushSucc st A m).entryState n = A.entryState n := by simp [pushSucc, hnm]
      rw [hq, he]
      simp [hnm]

theorem pushSuccs_nodup (h : A.queue.Nodup) (succs : List ℕ) :
    (succs.foldl (pushSucc st) A).queue.Nodup := by
  induction succs generalizing A with
  | nil => exact h
  | cons m succs ih =>
    rw [List.foldl_cons]
    apply ih
    simp only [pushSucc]
    split
    · exact nodup_wsPush h m
    · exact h

end Push

section Run

variable (D : Decoder) (cfg : VerifierCfg) (text : Text) (textOffset : BitVec 32)
  (blocks : List Block)

/-- What running block `b` from its current entry state gives. -/
def visitOut (A : Analysis) (b : Block) (i : ℕ) : BlockOut :=
  blockOut D cfg text textOffset (blockOffsets text textOffset b) (A.entryState i) 0

/-- One iteration under any policy: any queued block, its successors in any order. -/
inductive AnyStep (A A' : Analysis) : Prop where
  | visit (i : ℕ) (succs : List ℕ) (mem : i ∈ A.queue) (perm : succs.Perm (succsOf blocks i))
      (run : visitVia D cfg text textOffset blocks succs { A with queue := A.queue.erase i } i =
        some A')

/-- The states of the loop under any policy. -/
def AnyRun (A : Analysis) : Prop :=
  Relation.ReflTransGen (AnyStep D cfg text textOffset blocks) (Analysis.init cfg) A

variable {D cfg text textOffset blocks}

structure Visited (D : Decoder) (cfg : VerifierCfg) (text : Text) (textOffset : BitVec 32)
    (succs : List ℕ) (A A' : Analysis) (b : Block) (i : ℕ) : Prop where
  steps : A'.steps = A.steps + (visitOut D cfg text textOffset A b i).steps
  rejected : A'.rejected = A.rejected + (visitOut D cfg text textOffset A b i).rejects
  loopHeaderOk : A'.loopHeaderOk =
    applyPending b (visitOut D cfg text textOffset A b i).pending A.loopHeaderOk
  entry : ∀ n, A'.entryState n = if n ∈ succs then
    (A.entryState n).join (visitOut D cfg text textOffset A b i).st else A.entryState n
  queue : ∀ n, n ∈ A'.queue ↔ n ∈ A.queue ∨ n ∈ succs ∧ A'.entryState n ≠ A.entryState n
  nodup : A.queue.Nodup → A'.queue.Nodup
  cap : cfg.effectiveCap < 2 ^ 32 - 1 → A.steps ≤ cfg.effectiveCap → A'.steps ≤ cfg.effectiveCap

/-- The analysis between the instructions of a block and its successors. -/
def Analysis.after (A : Analysis) (b : Block) (out : BlockOut) : Analysis :=
  { A with
    steps := A.steps + out.steps
    rejected := A.rejected + out.rejects
    loopHeaderOk := applyPending b out.pending A.loopHeaderOk }

theorem visitVia_cases {succs : List ℕ} {A A' : Analysis} {i : ℕ}
    (hcan : ∀ n, (A.entryState n).Canonical)
    (h : visitVia D cfg text textOffset blocks succs A i = some A') :
    (A' = A ∧ ∀ b, blocks[i]? = some b → (A.entryState i).valid = false) ∨
      ∃ b, blocks[i]? = some b ∧ (A.entryState i).valid = true ∧
        Visited D cfg text textOffset succs A A' b i := by
  unfold visitVia at h
  split at h
  · rename_i hb
    exact .inl ⟨(Option.some.inj h).symm, fun b hb' => by simp [hb] at hb'⟩
  rename_i b hb
  split at h
  · rename_i hv
    exact .inl ⟨(Option.some.inj h).symm, fun _ _ => by simpa using hv⟩
  rename_i hv
  obtain ⟨r, hr, hA'⟩ := Option.bind_eq_some_iff.mp h
  have hcap : cfg.effectiveCap < 2 ^ 32 - 1 → A.steps ≤ cfg.effectiveCap →
      r.steps ≤ cfg.effectiveCap := fun hc hs => insnLoop_steps_le hc hs hr
  have hst : (visitOut D cfg text textOffset A b i).st.Canonical := blockOut_canonical (hcan i) 0
  have hA' : A' = succs.foldl (pushSucc (visitOut D cfg text textOffset A b i).st)
      (A.after b (visitOut D cfg text textOffset A b i)) := by
    rw [insnLoop_eq_some hr] at hA'
    exact (Option.some.inj hA').symm
  rw [insnLoop_eq_some hr] at hcap
  generalize hout : visitOut D cfg text textOffset A b i = out at hst hA'
  obtain ⟨f₁, f₂, f₃⟩ := pushSuccs_frame out.st (A.after b out) succs
  have hentry := fun n => pushSuccs_entry (A := A.after b out) hst succs n
  have hqueue := fun n => pushSuccs_mem_queue (A := A.after b out) hst succs n
  rw [← hA'] at f₁ f₂ f₃ hentry hqueue
  refine .inr ⟨b, hb, by simpa using hv, ?_⟩
  refine ⟨hout ▸ f₁, hout ▸ f₂, hout ▸ f₃, hout ▸ hentry, fun n => ?_, fun hn => ?_,
    fun hc hs => ?_⟩
  · rw [hqueue n]
    refine or_congr_right (and_congr_right fun hn => ?_)
    rw [hentry n, if_pos hn]
    rfl
  · rw [hA']
    exact pushSuccs_nodup (A := A.after b out) hn succs
  · rw [f₁, ← hout]
    exact hcap hc hs

/-- Running the block changes no successor, and its rejections and marks are recorded. -/
structure Stable (D : Decoder) (cfg : VerifierCfg) (text : Text) (textOffset : BitVec 32)
    (blocks : List Block) (A : Analysis) (b : Block) (i : ℕ) : Prop where
  absorbed : ∀ n ∈ succsOf blocks i,
    (A.entryState n).join (visitOut D cfg text textOffset A b i).st = A.entryState n
  counted : (visitOut D cfg text textOffset A b i).rejects ≤ A.rejected
  marked : (visitOut D cfg text textOffset A b i).pending ≠ 0 → ∀ h, b.succ0 = some h →
    A.loopHeaderOk h = true

structure WorkInv (D : Decoder) (cfg : VerifierCfg) (text : Text) (textOffset : BitVec 32)
    (blocks : List Block) (A : Analysis) : Prop where
  canonical : ∀ n, (A.entryState n).Canonical
  nodup : A.queue.Nodup
  queued_valid : ∀ i ∈ A.queue, (A.entryState i).valid = true
  entry : (A.entryState 0).join (vstateInitEntry cfg) = A.entryState 0
  reach : ∀ i, (A.entryState i).valid = true → Lib.Reachable (Edge blocks) 0 i
  stable : ∀ i b, blocks[i]? = some b → (A.entryState i).valid = true →
    i ∈ A.queue ∨ Stable D cfg text textOffset blocks A b i

theorem vstateInitEntry_canonical (cfg : VerifierCfg) : (vstateInitEntry cfg).Canonical := by
  intro r
  simp only [vstateInitEntry]
  repeat' split
  all_goals first
    | exact Rval.canonical_const _
    | exact Tnum.canonical_top
    | trivial

theorem workInv_init : WorkInv D cfg text textOffset blocks (Analysis.init cfg) := by
  have hcan := vstateInitEntry_canonical cfg
  have hvalid : ∀ i, ((Analysis.init cfg).entryState i).valid = true → i = 0 := by
    intro i hi
    by_contra h0
    simp [Analysis.init, h0, VState.bottom] at hi
  have h0 : (Analysis.init cfg).entryState 0 = vstateInitEntry cfg := by simp [Analysis.init]
  refine ⟨fun n => ?_, by simp [Analysis.init, wsPush], fun i hi => ?_, ?_, fun i hi => ?_,
    fun i b _ hi => .inl ?_⟩
  · by_cases hn : n = 0
    · rw [hn, h0]
      exact hcan
    · simp only [Analysis.init, Function.update_of_ne hn]
      exact VState.canonical_bottom
  · obtain rfl : i = 0 := by simpa [Analysis.init, wsPush] using hi
    rw [h0]
    rfl
  · have hself := VState.join_join_self (a := VState.bottom) hcan
    have hbot : VState.bottom.join (vstateInitEntry cfg) = vstateInitEntry cfg := rfl
    rw [h0]
    rwa [hbot] at hself
  · rw [hvalid i hi]
    exact Lib.reachable_root
  · rw [hvalid i hi]
    simp [Analysis.init, wsPush]

theorem applyPending_mono {b : Block} {p : BitVec 32} {ok : ℕ → Bool} {h : ℕ}
    (hok : ok h = true) : applyPending b p ok h = true := by
  cases hb : b.succ0 with
  | none => simpa only [applyPending, hb] using hok
  | some m =>
    simp only [applyPending, hb]
    split
    · by_cases hh : h = m
      · rw [hh, Function.update_self]
      · rw [Function.update_of_ne hh]
        exact hok
    · exact hok

theorem applyPending_self {b : Block} {p : BitVec 32} {ok : ℕ → Bool} {h : ℕ} (hp : p ≠ 0)
    (hb : b.succ0 = some h) : applyPending b p ok h = true := by
  simp only [applyPending, hb, if_pos hp, Function.update_self]

/-- A visit of block `j` keeps another block stable while its own entry state is unchanged. -/
theorem Stable.visited {succs : List ℕ} {A A' : Analysis} {b c : Block} {i j : ℕ}
    (h : Stable D cfg text textOffset blocks A b i)
    (hv : Visited D cfg text textOffset succs A A' c j) (he : A'.entryState i = A.entryState i) :
    Stable D cfg text textOffset blocks A' b i := by
  have hout : visitOut D cfg text textOffset A' b i = visitOut D cfg text textOffset A b i := by
    simp only [visitOut, he]
  refine ⟨fun n hn => ?_, ?_, fun hp m hm => ?_⟩
  · rw [hout, hv.entry n]
    split
    · exact VState.join_absorb _ (h.absorbed n hn)
    · exact h.absorbed n hn
  · rw [hout, hv.rejected]
    exact h.counted.trans (Nat.le_add_right _ _)
  · rw [hout] at hp
    rw [hv.loopHeaderOk]
    exact applyPending_mono (h.marked hp m hm)

/-- The visited block is stable unless the visit changed its own entry state. -/
theorem Visited.stable {succs : List ℕ} {A A' : Analysis} {b : Block} {i : ℕ}
    (hcan : ∀ n, (A.entryState n).Canonical) (hperm : succs.Perm (succsOf blocks i))
    (hv : Visited D cfg text textOffset succs A A' b i) (he : A'.entryState i = A.entryState i) :
    Stable D cfg text textOffset blocks A' b i := by
  have hout : visitOut D cfg text textOffset A' b i = visitOut D cfg text textOffset A b i := by
    simp only [visitOut, he]
  have hst : (visitOut D cfg text textOffset A b i).st.Canonical := blockOut_canonical (hcan i) 0
  refine ⟨fun n hn => ?_, ?_, fun hp m hm => ?_⟩
  · rw [hout, hv.entry n, if_pos (hperm.mem_iff.mpr hn)]
    exact VState.join_join_self hst
  · rw [hout, hv.rejected]
    exact Nat.le_add_left _ _
  · rw [hout] at hp
    rw [hv.loopHeaderOk]
    exact applyPending_self hp hm

theorem WorkInv.step {A A' : Analysis} (h : WorkInv D cfg text textOffset blocks A)
    (hs : AnyStep D cfg text textOffset blocks A A') : WorkInv D cfg text textOffset blocks A' := by
  obtain ⟨i, succs, hmem, hperm, hrun⟩ := hs
  have hvalid := h.queued_valid i hmem
  have herase : ∀ j, j ∈ A.queue.erase i ↔ j ≠ i ∧ j ∈ A.queue := fun j => h.nodup.mem_erase_iff
  rcases visitVia_cases (A := { A with queue := A.queue.erase i }) h.canonical hrun with
    ⟨rfl, hinv⟩ | ⟨b, hb, -, hv⟩
  · -- a queued block outside the table: nothing happens
    refine ⟨h.canonical, h.nodup.erase i, fun j hj => h.queued_valid j ((herase j).mp hj).2, h.entry,
      h.reach, fun j c hc hj => ?_⟩
    have hji : j ≠ i := by
      rintro rfl
      have := hinv c hc
      rw [hj] at this
      cases this
    rcases h.stable j c hc hj with hq | hst
    · exact .inl ((herase j).mpr ⟨hji, hq⟩)
    · exact .inr ⟨hst.absorbed, hst.counted, hst.marked⟩
  · have hst : (visitOut D cfg text textOffset A b i).st.Canonical :=
      blockOut_canonical (h.canonical i) 0
    have hstv : (visitOut D cfg text textOffset A b i).st.valid = true := by
      rw [visitOut, blockOut_valid]
      exact hvalid
    have hentry : ∀ n, A'.entryState n = if n ∈ succs then
        (A.entryState n).join (visitOut D cfg text textOffset A b i).st else A.entryState n := hv.entry
    have hqueue : ∀ n, n ∈ A'.queue ↔ (n ≠ i ∧ n ∈ A.queue) ∨
        n ∈ succs ∧ A'.entryState n ≠ A.entryState n := fun n => by
      rw [hv.queue n, ← herase n]
    have hchanged : ∀ n, A'.entryState n ≠ A.entryState n → n ∈ A'.queue := by
      intro n hne
      refine (hqueue n).mpr (.inr ⟨?_, hne⟩)
      by_contra hn
      rw [hentry n, if_neg hn] at hne
      exact hne rfl
    have hvalid' : ∀ n, (A.entryState n).valid = true → (A'.entryState n).valid = true := by
      intro n hn
      rw [hentry n]
      split
      · rw [VState.join_valid, hn, Bool.true_or]
      · exact hn
    refine ⟨fun n => ?_, hv.nodup (h.nodup.erase i), fun n hn => ?_, ?_, fun n hn => ?_,
      fun j c hc hj => ?_⟩
    · rw [hentry n]
      split
      · exact (h.canonical n).join hst
      · exact h.canonical n
    · rcases (hqueue n).mp hn with ⟨-, hq⟩ | ⟨hns, -⟩
      · exact hvalid' n (h.queued_valid n hq)
      · rw [hentry n, if_pos hns, VState.join_valid, hstv, Bool.or_true]
    · rw [hentry 0]
      split
      · exact VState.join_absorb _ h.entry
      · exact h.entry
    · rw [hentry n] at hn
      split at hn
      · rename_i hns
        exact (h.reach i hvalid).step (hperm.mem_iff.mp hns)
      · exact h.reach n hn
    · by_cases he : A'.entryState j = A.entryState j
      · by_cases hji : j = i
        · subst hji
          obtain rfl : b = c := by simpa [hb] using hc
          exact .inr (hv.stable (A := { A with queue := A.queue.erase j }) h.canonical hperm he)
        · rw [he] at hj
          rcases h.stable j c hc hj with hq | hs
          · exact .inl ((hqueue j).mpr (.inl ⟨hji, hq⟩))
          · refine .inr (Stable.visited (A := { A with queue := A.queue.erase i }) ?_ hv he)
            exact ⟨hs.absorbed, hs.counted, hs.marked⟩
      · exact .inl (hchanged j he)

theorem AnyRun.workInv {A : Analysis} (h : AnyRun D cfg text textOffset blocks A) :
    WorkInv D cfg text textOffset blocks A := by
  induction h with
  | refl => exact workInv_init
  | tail _ hs ih => exact ih.step hs

/-- Popping the block queued last is one way to take a queued block. -/
theorem wsPop_eq_some {q q' : List ℕ} {i : ℕ} (hn : q.Nodup) (h : wsPop q = some (i, q')) :
    i ∈ q ∧ q' = q.erase i := by
  unfold wsPop at h
  obtain ⟨j, hlast, heq⟩ := Option.map_eq_some_iff.mp h
  obtain ⟨rfl, rfl⟩ := Prod.mk.inj heq
  obtain ⟨l, rfl⟩ := List.getLast?_eq_some_iff.mp hlast
  have hj : j ∉ l := fun hj => (List.disjoint_of_nodup_append hn) hj (by simp)
  refine ⟨by simp, ?_⟩
  rw [List.dropLast_concat, List.erase_append_right _ hj, List.erase_cons_head, List.append_nil]

variable (D cfg text textOffset blocks) in
/-- One iteration of the loop as coded. -/
inductive CodedStep (A A' : Analysis) : Prop where
  | pop (i : ℕ) (q : List ℕ) (pop : wsPop A.queue = some (i, q))
      (run : visit D cfg text textOffset blocks { A with queue := q } i = some A')

variable (D cfg text textOffset blocks) in
def CodedRun (A : Analysis) : Prop :=
  Relation.ReflTransGen (CodedStep D cfg text textOffset blocks) (Analysis.init cfg) A

theorem CodedStep.anyStep {A A' : Analysis} (hn : A.queue.Nodup)
    (h : CodedStep D cfg text textOffset blocks A A') : AnyStep D cfg text textOffset blocks A A' := by
  obtain ⟨i, q, hp, hv⟩ := h
  obtain ⟨hi, rfl⟩ := wsPop_eq_some hn hp
  exact ⟨i, _, hi, .refl _, hv⟩

theorem CodedRun.anyRun {A : Analysis} (h : CodedRun D cfg text textOffset blocks A) :
    AnyRun D cfg text textOffset blocks A := by
  induction h with
  | refl => exact .refl
  | tail _ hs ih => exact ih.tail (hs.anyStep ih.workInv.nodup)

theorem verifyLoop_codedRun {fuel : ℕ} {A A' : Analysis}
    (h : CodedRun D cfg text textOffset blocks A)
    (hl : verifyLoop D cfg text textOffset blocks fuel A = some (.fixpoint A')) :
    CodedRun D cfg text textOffset blocks A' ∧ A'.queue = [] := by
  induction fuel generalizing A with
  | zero => cases hl
  | succ fuel ih =>
    rw [verifyLoop] at hl
    cases hp : wsPop A.queue with
    | none =>
      simp only [hp] at hl
      obtain rfl : A = A' := by simpa using hl
      refine ⟨h, ?_⟩
      simpa [wsPop] using hp
    | some iq =>
      obtain ⟨i, q⟩ := iq
      simp only [hp] at hl
      cases hv : visit D cfg text textOffset blocks { A with queue := q } i with
      | none => simp [hv] at hl
      | some A₁ =>
        simp only [hv] at hl
        exact ih (h.tail ⟨i, q, hp, hv⟩) hl

end Run

section Counters

variable {D : Decoder} {cfg : VerifierCfg} {text : Text} {textOffset : BitVec 32}
  {blocks : List Block}

theorem assign_rejects_le (st : VState) (rd : Reg) (v : Rval) (why : Reject) :
    (assign st rd v why).2.length ≤ 1 := by
  unfold assign
  split
  · simp
  · split <;> simp

theorem accessRejects_le (cfg : VerifierCfg) (base : Rval) (imm : Word) (width : ℕ) (r r' : Reject) :
    (accessRejects cfg base imm width r r').length ≤ 1 := by
  unfold accessRejects
  split
  · simp
  · split
    · dsimp only
      split <;> simp
    · simp

theorem stepEcall_rejects_le (st : VState) (p : BitVec 32) :
    (stepEcall cfg st p).rejects.length ≤ 1 := by
  unfold stepEcall
  split
  · simp
  · simp only [stepKfuncResolve, stepLoopCb]
    repeat' split
    all_goals simp

theorem stepAddi_rejects_le (insn : Insn) (st : VState) :
    (stepAddi cfg insn st).2.length ≤ 2 := by
  unfold stepAddi
  split
  · exact (assign_rejects_le _ _ _ _).trans (by omega)
  · split
    · simp
    · split
      · exact (assign_rejects_le _ _ _ _).trans (by omega)
      · split <;> simp
      · split
        · dsimp only
          split
          · unfold spRejects
            split <;> split <;> simp
          · simp
        · simp
      · exact (assign_rejects_le _ _ _ _).trans (by omega)

theorem jalrRejects_le (insn : Insn) (st : VState) : (jalrRejects cfg insn st).length ≤ 1 := by
  unfold jalrRejects
  dsimp only
  repeat' split
  all_goals simp

theorem stepPlain_rejects_le (insn : Insn) (st : VState) :
    (stepPlain cfg insn st).2.length ≤ 2 := by
  unfold stepPlain
  split
  · have h₁ := accessRejects_le cfg (st.x insn.rs1) insn.imm (ldWidth insn.ldKind)
      .loadNonPointer .stackLoadOutOfFrame
    have h₂ := assign_rejects_le st insn.rd .scalarTop .loadIntoSp
    simp only [stepLoad, List.length_append]
    omega
  · exact (accessRejects_le _ _ _ _ _ _).trans (by omega)
  · unfold stepAluImm
    split
    · exact stepAddi_rejects_le insn st
    · exact (assign_rejects_le _ _ _ _).trans (by omega)
  · exact (assign_rejects_le _ _ _ _).trans (by omega)
  · exact (assign_rejects_le _ _ _ _).trans (by omega)
  · have h := assign_rejects_le st insn.rd (aluRegResult (st.x insn.rs1) (st.x insn.rs2)) .aluRegSp
    simp only [stepAluReg, List.length_append]
    split
    · rw [List.length_singleton]
      omega
    · rw [List.length_nil]
      omega
  · simp
  · exact (assign_rejects_le _ _ _ _).trans (by omega)
  · exact (jalrRejects_le insn st).trans (by omega)
  · simp

theorem stepInsn_rejects_le (D : Decoder) (cfg : VerifierCfg) (insn : Insn) (st : VState) (p : BitVec 32) :
    (stepInsn D cfg insn st p).rejects.length ≤ 2 := by
  unfold stepInsn
  split
  · simp
  · split
    · exact (stepEcall_rejects_le st p).trans (by omega)
    · exact stepPlain_rejects_le insn st

theorem blockOut_rejects_le (hD : ∀ w pc, (D.decode w pc).isSome = true) (offs : List ℕ)
    (st : VState) (p : BitVec 32) :
    (blockOut D cfg text textOffset offs st p).rejects ≤
      2 * (blockOut D cfg text textOffset offs st p).steps := by
  induction offs generalizing st p with
  | nil => simp [blockOut]
  | cons off offs ih =>
    obtain ⟨insn, hi⟩ := Option.isSome_iff_exists.mp (hD (textWord text off) (pcAt textOffset off))
    have hi : verifyInsn D text textOffset off = some insn := hi
    simp only [blockOut, hi]
    have h₁ := stepInsn_rejects_le D cfg insn st p
    have h₂ := ih (stepInsn D cfg insn st p).st (stepInsn D cfg insn st p).pending
    omega

/-- Below the largest step cap the step counter stays at most the cap. -/
theorem AnyRun.steps_le (hcap : cfg.effectiveCap < 2 ^ 32 - 1) {A : Analysis}
    (h : AnyRun D cfg text textOffset blocks A) : A.steps ≤ cfg.effectiveCap := by
  induction h with
  | refl => simp [Analysis.init]
  | @tail A A' hrun hs ih =>
    obtain ⟨i, succs, -, -, hv⟩ := hs
    rcases visitVia_cases (A := { A with queue := A.queue.erase i }) (AnyRun.workInv hrun).canonical hv
      with ⟨rfl, -⟩ | ⟨b, -, -, hv⟩
    · exact ih
    · exact hv.cap hcap ih

theorem AnyStep.steps_le {A A' : Analysis} (hs : AnyStep D cfg text textOffset blocks A A')
    (hrun : AnyRun D cfg text textOffset blocks A) : A.steps ≤ A'.steps := by
  obtain ⟨i, succs, -, -, hv⟩ := hs
  rcases visitVia_cases (A := { A with queue := A.queue.erase i }) (AnyRun.workInv hrun).canonical hv
    with ⟨rfl, -⟩ | ⟨b, -, -, hv⟩
  · exact le_rfl
  · rw [hv.steps]
    exact Nat.le_add_right _ _

theorem AnyRun.rejected_le (hD : ∀ w pc, (D.decode w pc).isSome = true) {A : Analysis}
    (h : AnyRun D cfg text textOffset blocks A) : A.rejected ≤ 2 * A.steps := by
  induction h with
  | refl => simp [Analysis.init]
  | @tail A A' hrun hs ih =>
    obtain ⟨i, succs, -, -, hv⟩ := hs
    rcases visitVia_cases (A := { A with queue := A.queue.erase i }) (AnyRun.workInv hrun).canonical hv
      with ⟨rfl, -⟩ | ⟨b, -, -, hv⟩
    · exact ih
    · rw [hv.rejected, hv.steps]
      have hout : (visitOut D cfg text textOffset A b i).rejects ≤
          2 * (visitOut D cfg text textOffset A b i).steps := blockOut_rejects_le hD _ _ _
      simp only [visitOut] at hout ⊢
      omega

end Counters

end MerlinV
