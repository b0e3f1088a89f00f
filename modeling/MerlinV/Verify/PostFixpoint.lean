import MerlinV.Verify.Accept

/-! # The fixpoint the worklist computes

When the loop of `merlin_verify_text` ends below the step cap, its entry states form a
post-fixpoint of the transfer function on the reachable blocks.  Every iteration runs at
least one instruction, so the step counter bounds the number of iterations.
-/
namespace MerlinV

section Graph

variable {text : Text} {textOffset : BitVec 32} {G : Cfg} {leader : LeaderMap} {raw : List Block}
  {bound : ℕ → ℕ}

theorem Built.lt_of_reachable {D : Decoder} (h : Built D text textOffset G leader raw bound)
    (hne : text ≠ []) {i : ℕ} (hi : Lib.Reachable (Edge G.blocks) 0 i) : i < G.nblocks := by
  have hpos := h.nblocks_pos hne
  unfold Cfg.nblocks at hpos ⊢
  rw [h.length_eq] at hpos ⊢
  obtain ⟨l, hw⟩ := hi
  induction hw with
  | start => exact hpos
  | snoc _ he ih => exact ((h.mem_succs ih).mp he).1

end Graph

section Progress

variable {cfg : VerifierCfg} {text : Text} {textOffset : BitVec 32} {G : Cfg} {A A' : Analysis}

theorem blockOut_steps_eq (offs : List ℕ) (st : VState) (p : BitVec 32) :
    (blockOut merlinDecoder cfg text textOffset offs st p).steps = offs.length := by
  induction offs generalizing st p with
  | nil => rfl
  | cons off offs ih =>
    have hi : verifyInsn merlinDecoder text textOffset off =
      some (merlinDecode (textWord text off) (pcAt textOffset off)) := rfl
    simp only [blockOut, hi, ih, List.length_cons]

theorem AnyRun.queued {D : Decoder} (hb : merlinCfgBuild D text textOffset = .ok G) (hne : text ≠ [])
    (h : AnyRun D cfg text textOffset G.blocks A) {i : ℕ} (hi : i ∈ A.queue) :
    i < G.nblocks ∧ (A.entryState i).valid = true := by
  obtain ⟨leader, raw, bound, hbuilt⟩ := merlinCfgBuild_built hb
  have hv := h.workInv.queued_valid i hi
  exact ⟨hbuilt.lt_of_reachable hne (h.workInv.reach i hv), hv⟩

theorem AnyRun.queue_length_le {D : Decoder} (hb : merlinCfgBuild D text textOffset = .ok G)
    (hne : text ≠ []) (h : AnyRun D cfg text textOffset G.blocks A) : A.queue.length ≤ G.nblocks := by
  have hsub : A.queue ⊆ List.range G.nblocks := by
    intro i hi
    exact List.mem_range.mpr (h.queued hb hne hi).1
  have hle := (h.workInv.nodup.subperm hsub).length_le
  rwa [List.length_range] at hle

/-- An iteration that stays below the cap counts at least one step. -/
theorem CodedStep.steps_lt (hb : merlinCfgBuild merlinDecoder text textOffset = .ok G) (hne : text ≠ [])
    (h : CodedRun merlinDecoder cfg text textOffset G.blocks A)
    (hs : CodedStep merlinDecoder cfg text textOffset G.blocks A A') : A.steps < A'.steps := by
  obtain ⟨leader, raw, bound, hbuilt⟩ := merlinCfgBuild_built hb
  have hinv := h.anyRun.workInv
  obtain ⟨i, q, hpop, hrun⟩ := hs
  obtain ⟨hlt, hv⟩ := h.anyRun.queued hb hne (wsPop_eq_some hinv.nodup hpop).1
  unfold Cfg.nblocks at hlt
  rcases visitVia_cases (A := { A with queue := q }) hinv.canonical hrun with
    ⟨-, hinvalid⟩ | ⟨b, hget, -, hvis⟩
  · have := hinvalid _ (List.getElem?_eq_getElem hlt)
    rw [hv] at this
    cases this
  · have hlen : (visitOut merlinDecoder cfg text textOffset { A with queue := q } b i).steps =
        bound (i + 1) - bound i := by
      rw [visitOut, blockOut_steps_eq, hbuilt.blockOffsets_eq hget, List.length_map, List.length_range']
    have hpos := hbuilt.layout.lt i (hbuilt.lt_of_get hget)
    rw [hvis.steps, hlen]
    dsimp only
    omega

/-- The loop ends within as many iterations as the cap has steps left. -/
theorem exists_verifyLoop (hb : merlinCfgBuild merlinDecoder text textOffset = .ok G) (hne : text ≠ [])
    (hcap : cfg.effectiveCap < 2 ^ 32 - 1) (fuel : ℕ)
    (h : CodedRun merlinDecoder cfg text textOffset G.blocks A)
    (hfuel : cfg.effectiveCap + 1 < A.steps + fuel) :
    ∃ r, verifyLoop merlinDecoder cfg text textOffset G.blocks fuel A = some r := by
  have hsteps := h.anyRun.steps_le hcap
  induction fuel generalizing A with
  | zero => omega
  | succ fuel ih =>
    rw [verifyLoop]
    cases hpop : wsPop A.queue with
    | none => exact ⟨_, rfl⟩
    | some iq =>
      obtain ⟨i, q⟩ := iq
      cases hvis : visit merlinDecoder cfg text textOffset G.blocks { A with queue := q } i with
      | none => exact ⟨.capExceeded, by simp only [hvis]⟩
      | some A' =>
        have hstep : CodedStep merlinDecoder cfg text textOffset G.blocks A A' := ⟨i, q, hpop, hvis⟩
        have hlt := hstep.steps_lt hb hne h
        have hrun : CodedRun merlinDecoder cfg text textOffset G.blocks A' := h.tail hstep
        simp only [hvis]
        exact ih hrun (by omega) (hrun.anyRun.steps_le hcap)

end Progress

section PostFixpoint

variable (cfg : VerifierCfg) (text : Text) (textOffset : BitVec 32) (G : Cfg)

/-- The entry states are above the initial state and closed under every block that is reachable,
and no other block has one. -/
structure PostFixpoint (A : Analysis) : Prop where
  entry : (A.entryState 0).joinChanged (vstateInitEntry cfg) = false
  valid_iff : ∀ i < G.nblocks, (A.entryState i).valid = true ↔ Lib.Reachable (Edge G.blocks) 0 i
  closed : ∀ i b, G.blocks[i]? = some b → (A.entryState i).valid = true → ∀ n ∈ succsOf G.blocks i,
    (A.entryState n).joinChanged (visitOut merlinDecoder cfg text textOffset A b i).st = false

variable {cfg text textOffset G} {A : Analysis}

theorem CodedRun.postFixpoint (hb : merlinCfgBuild merlinDecoder text textOffset = .ok G)
    (hne : text ≠ []) (h : CodedRun merlinDecoder cfg text textOffset G.blocks A) (hq : A.queue = []) :
    PostFixpoint cfg text textOffset G A := by
  obtain ⟨leader, raw, bound, hbuilt⟩ := merlinCfgBuild_built hb
  have hinv := h.anyRun.workInv
  have hstable : ∀ i b, G.blocks[i]? = some b → (A.entryState i).valid = true →
      Stable merlinDecoder cfg text textOffset G.blocks A b i := by
    intro i b hget hv
    rcases hinv.stable i b hget hv with hmem | hst
    · rw [hq] at hmem
      cases hmem
    · exact hst
  have hclosed : ∀ i b, G.blocks[i]? = some b → (A.entryState i).valid = true → ∀ n ∈ succsOf G.blocks i,
      (A.entryState n).join (visitOut merlinDecoder cfg text textOffset A b i).st = A.entryState n :=
    fun i b hget hv => (hstable i b hget hv).absorbed
  -- validity spreads along the edges because an absorbed valid state makes its target valid
  have hvalid : ∀ i, Lib.Reachable (Edge G.blocks) 0 i → (A.entryState i).valid = true := by
    rintro i ⟨l, hw⟩
    induction hw with
    | start =>
      rw [← hinv.entry, VState.join_valid]
      exact Bool.or_true _
    | @snoc a b l hwalk he ih =>
      have hlt := hbuilt.lt_of_reachable hne ⟨l, hwalk⟩
      unfold Cfg.nblocks at hlt
      have habs := hclosed a _ (List.getElem?_eq_getElem hlt) ih b he
      rw [← habs, VState.join_valid, visitOut, blockOut_valid, ih, Bool.or_true]
  exact {
    entry := VState.joinChanged_eq_false.mpr hinv.entry
    valid_iff := fun i _ => ⟨hinv.reach i, hvalid i⟩
    closed := fun i b hget hv n hn => VState.joinChanged_eq_false.mpr (hclosed i b hget hv n hn) }

/-- The loop of `merlin_verify_text` computes a post-fixpoint, queues no block twice, and ends
for every step cap below `2^32 - 1`. -/
theorem verifyLoop_postFixpoint (cfg : VerifierCfg) (text : Text) (textOffset : BitVec 32) (G : Cfg)
    (hb : merlinCfgBuild merlinDecoder text textOffset = .ok G) (hne : text ≠ []) :
    (∀ fuel A, verifyLoop merlinDecoder cfg text textOffset G.blocks fuel (Analysis.init cfg) =
        some (.fixpoint A) → PostFixpoint cfg text textOffset G A) ∧
      (∀ A, CodedRun merlinDecoder cfg text textOffset G.blocks A →
        A.queue.Nodup ∧ A.queue.length ≤ G.nblocks) ∧
      (cfg.stepCap.toNat < 2 ^ 32 - 1 → ∃ fuel r,
        verifyLoop merlinDecoder cfg text textOffset G.blocks fuel (Analysis.init cfg) = some r) := by
  refine ⟨fun fuel A hl => ?_, fun A h => ?_, fun hcap => ?_⟩
  · obtain ⟨hrun, hq⟩ := verifyLoop_codedRun .refl hl
    exact hrun.postFixpoint hb hne hq
  · exact ⟨h.anyRun.workInv.nodup, h.anyRun.queue_length_le hb hne⟩
  · have heff : cfg.effectiveCap < 2 ^ 32 - 1 := by
      unfold VerifierCfg.effectiveCap
      split
      · exact hcap
      · decide
    refine ⟨cfg.effectiveCap + 2, exists_verifyLoop hb hne heff _ .refl ?_⟩
    simp [Analysis.init]

def LoopEnd.isFixpoint : LoopEnd → Bool
  | fixpoint _ => true
  | capExceeded => false

/-- `1: li x5, 1; bnez a0, 1b; ret`: a block that is its own successor. -/
def selfLoopText : Text := ofWords [0x00100293, 0xfe051ee3, 0x00008067]

theorem selfLoopText_postFixpoint : ∃ G A, merlinCfgBuild merlinDecoder selfLoopText 0x40 = .ok G ∧
    selfLoopText ≠ [] ∧ 0 ∈ succsOf G.blocks 0 ∧
    verifyLoop merlinDecoder merlinVerifierCfgInitForMvdp selfLoopText 0x40 G.blocks 5
      (Analysis.init merlinVerifierCfgInitForMvdp) = some (.fixpoint A) ∧
    PostFixpoint merlinVerifierCfgInitForMvdp selfLoopText 0x40 G A := by
  obtain ⟨G, hb, hP⟩ : ∃ G, merlinCfgBuild merlinDecoder selfLoopText 0x40 = .ok G ∧ (_ : Bool) = true :=
    exists_of_buildsWith (P := fun G => decide (0 ∈ succsOf G.blocks 0) &&
      (verifyLoop merlinDecoder merlinVerifierCfgInitForMvdp selfLoopText 0x40 G.blocks 5
        (Analysis.init merlinVerifierCfgInitForMvdp)).any LoopEnd.isFixpoint) (by decide +kernel)
  simp only [Bool.and_eq_true, decide_eq_true_iff] at hP
  obtain ⟨hself, hloop⟩ := hP
  have hne : selfLoopText ≠ [] := by decide
  obtain ⟨r, hl, hr⟩ := (Option.any_eq_true _ _).mp hloop
  cases r with
  | capExceeded => cases hr
  | fixpoint A =>
    exact ⟨G, A, hb, hne, hself, hl,
      (verifyLoop_postFixpoint merlinVerifierCfgInitForMvdp selfLoopText 0x40 G hb hne).1 5 A hl⟩

end PostFixpoint

end MerlinV
