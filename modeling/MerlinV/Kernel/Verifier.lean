import MerlinV.Kernel.Cfg
import MerlinV.Kernel.Transfer
import MerlinV.Verify.Accept

/-! # The kernel verifier refines the userland verifier

`merlin_verify_text` of `kernel/merlin/verifier.c` over any decoder.  Its worklist has
room for `nblocks` entries and drops what does not fit, and the step cap leaves through
`finalize`, where the verdict is read off the reject counter.
-/
namespace MerlinV.Kernel

/-- `ws_push`: the block is dropped when the table is full. -/
def wsPush (cap : ℕ) (q : List ℕ) (b : ℕ) : List ℕ :=
  if b ∈ q then q else if q.length < cap then q ++ [b] else q

/-- How the worklist loop is left: with an empty list or by `goto finalize`. -/
inductive LoopEnd where
  | fixpoint (A : Analysis)
  | finalize (rejected : ℕ)

section Driver

variable (D : Decoder) (cfg : VerifierCfg) (text : Text) (textOffset : BitVec 32)

/-- The instruction loop; an error carries the counter to `finalize`. -/
def insnLoop : List ℕ → BlockRun → Except ℕ BlockRun
  | [], r => .ok r
  | off :: offs, r =>
    match verifyInsn D text textOffset off with
    | none => insnLoop offs { r with rejected := r.rejected + 1 }
    | some insn =>
      if (r.steps + 1) % 2 ^ 32 > cfg.effectiveCap then .error (r.rejected + 1)
      else
        let out := stepInsn D cfg insn r.st r.rejected r.pending
        insnLoop offs ⟨out.st, out.pending, r.steps + 1, out.rejected⟩

def pushSucc (cap : ℕ) (st : VState) (A : Analysis) (n : ℕ) : Analysis :=
  { A with
    entryState := Function.update A.entryState n (vstateJoin (A.entryState n) st)
    queue := if vstateJoinChanged (A.entryState n) st then wsPush cap A.queue n else A.queue }

def visit (blocks : List Block) (A : Analysis) (i : ℕ) : Except ℕ Analysis :=
  match blocks[i]? with
  | none => .ok A
  | some b =>
    if !(A.entryState i).valid then .ok A
    else do
      let r ← insnLoop D cfg text textOffset (blockOffsets text textOffset b)
        ⟨A.entryState i, 0, A.steps, A.rejected⟩
      let A' := { A with
        steps := r.steps
        rejected := r.rejected
        loopHeaderOk := applyPending b r.pending A.loopHeaderOk }
      return (succsOf blocks i).foldl (pushSucc blocks.length r.st) A'

def verifyLoop (blocks : List Block) : ℕ → Analysis → Option LoopEnd
  | 0, _ => none
  | fuel + 1, A =>
    match wsPop A.queue with
    | none => some (.fixpoint A)
    | some (i, q) =>
      match visit D cfg text textOffset blocks { A with queue := q } i with
      | .error rejected => some (.finalize rejected)
      | .ok A' => verifyLoop blocks fuel A'

def Analysis.init (nblocks : ℕ) : Analysis where
  entryState := Function.update (fun _ => VState.bottom) 0 (vstateInitEntry cfg)
  loopHeaderOk _ := false
  queue := wsPush nblocks [] 0
  steps := 0
  rejected := 0

def finalize (rejected : ℕ) : VerifyResult := if rejected % 2 ^ 32 ≠ 0 then .reject else .ok

def merlinVerifyText (fuel : ℕ) : Option VerifyResult :=
  if text.length % 4 ≠ 0 then some .reject
  else match merlinCfgBuild D text textOffset with
    | .error _ => some .reject
    | .ok G =>
      if G.nblocks = 0 then none
      else match verifyLoop D cfg text textOffset G.blocks fuel (Analysis.init cfg G.nblocks) with
        | none => none
        | some (.finalize rejected) => some (finalize rejected)
        | some (.fixpoint A) => some (finalize (A.rejected + gateRejects G A))

/-- The counter that the step cap carries to `finalize` has not wrapped. -/
def CounterFits : Prop :=
  ∀ G fuel rejected, merlinCfgBuild D text textOffset = .ok G →
    verifyLoop D cfg text textOffset G.blocks fuel (Analysis.init cfg G.nblocks) =
      some (.finalize rejected) → rejected < 2 ^ 32

end Driver

section Refines

variable {D : Decoder} {cfg : VerifierCfg} {text : Text} {textOffset : BitVec 32}

/-- The worklist holds distinct blocks of the table, which is what makes room for every push. -/
structure QueueFits (cap : ℕ) (q : List ℕ) : Prop where
  nodup : q.Nodup
  lt : ∀ i ∈ q, i < cap

theorem QueueFits.length_lt {cap n : ℕ} {q : List ℕ} (h : QueueFits cap q) (hn : n < cap)
    (hnot : n ∉ q) : q.length < cap := by
  have hnodup : (n :: q).Nodup := List.nodup_cons.mpr ⟨hnot, h.nodup⟩
  have hsub : n :: q ⊆ List.range cap := by
    intro i hi
    rcases List.mem_cons.mp hi with rfl | hi
    · exact List.mem_range.mpr hn
    · exact List.mem_range.mpr (h.lt i hi)
  have hle := (hnodup.subperm hsub).length_le
  rw [List.length_range, List.length_cons] at hle
  exact hle

/-- A push never meets a full table. -/
theorem QueueFits.wsPush_eq {cap n : ℕ} {q : List ℕ} (h : QueueFits cap q) (hn : n < cap) :
    wsPush cap q n = MerlinV.wsPush q n := by
  unfold wsPush MerlinV.wsPush
  by_cases hmem : n ∈ q
  · rw [if_pos hmem, if_pos hmem]
  · rw [if_neg hmem, if_neg hmem, if_pos (h.length_lt hn hmem)]

theorem QueueFits.wsPush {cap n : ℕ} {q : List ℕ} (h : QueueFits cap q) (hn : n < cap) :
    QueueFits cap (MerlinV.wsPush q n) := by
  unfold MerlinV.wsPush
  split
  · exact h
  · rename_i hmem
    constructor
    · exact List.nodup_append.mpr ⟨h.nodup, List.nodup_singleton n, by
        intro a ha b hb hab
        rw [List.mem_singleton.mp hb] at hab
        exact hmem (hab ▸ ha)⟩
    · intro i hi
      rcases List.mem_append.mp hi with hi | hi
      · exact h.lt i hi
      · rw [List.mem_singleton.mp hi]
        exact hn

theorem QueueFits.wsPop {cap i : ℕ} {q q' : List ℕ} (h : QueueFits cap q)
    (hpop : wsPop q = some (i, q')) : QueueFits cap q' := by
  obtain ⟨-, rfl⟩ := wsPop_eq_some h.nodup hpop
  exact ⟨h.nodup.erase i, fun j hj => h.lt j (List.mem_of_mem_erase hj)⟩

theorem insnLoop_toOption (offs : List ℕ) (r : BlockRun) :
    (insnLoop D cfg text textOffset offs r).toOption =
      MerlinV.insnLoop D cfg text textOffset offs r := by
  induction offs generalizing r with
  | nil => rfl
  | cons off offs ih =>
    unfold insnLoop MerlinV.insnLoop
    cases verifyInsn D text textOffset off with
    | none => exact ih _
    | some insn =>
      dsimp only
      split
      · rfl
      · rw [stepInsn_eq, ih]
        rfl

/-- The counter at `finalize` includes the rejection for the cap itself. -/
theorem insnLoop_error_pos {offs : List ℕ} {r : BlockRun} {rejected : ℕ}
    (h : insnLoop D cfg text textOffset offs r = .error rejected) : 0 < rejected := by
  induction offs generalizing r with
  | nil => cases h
  | cons off offs ih =>
    unfold insnLoop at h
    cases hi : verifyInsn D text textOffset off with
    | none =>
      rw [hi] at h
      exact ih h
    | some insn =>
      rw [hi] at h
      dsimp only at h
      split at h
      · cases h
        exact Nat.succ_pos _
      · exact ih h

theorem pushSucc_eq {cap n : ℕ} {A : Analysis} (st : VState) (h : QueueFits cap A.queue)
    (hn : n < cap) :
    pushSucc cap st A n = MerlinV.pushSucc st A n ∧ QueueFits cap (MerlinV.pushSucc st A n).queue := by
  unfold pushSucc MerlinV.pushSucc
  rw [vstateJoin_eq, vstateJoinChanged_eq, h.wsPush_eq hn]
  refine ⟨rfl, ?_⟩
  dsimp only
  split
  · exact h.wsPush hn
  · exact h

theorem foldl_pushSucc_eq {cap : ℕ} {succs : List ℕ} {A : Analysis} (st : VState)
    (h : QueueFits cap A.queue) (hsucc : ∀ n ∈ succs, n < cap) :
    succs.foldl (pushSucc cap st) A = succs.foldl (MerlinV.pushSucc st) A ∧
      QueueFits cap (succs.foldl (MerlinV.pushSucc st) A).queue := by
  induction succs generalizing A with
  | nil => exact ⟨rfl, h⟩
  | cons n succs ih =>
    obtain ⟨heq, hfits⟩ := pushSucc_eq st h (hsucc n List.mem_cons_self)
    rw [List.foldl_cons, List.foldl_cons, heq]
    exact ih hfits fun m hm => hsucc m (List.mem_cons_of_mem n hm)

theorem foldl_pushSucc_counters (cap : ℕ) (st : VState) (succs : List ℕ) (A : Analysis) :
    (succs.foldl (pushSucc cap st) A).steps = A.steps ∧
      (succs.foldl (pushSucc cap st) A).rejected = A.rejected := by
  induction succs generalizing A with
  | nil => exact ⟨rfl, rfl⟩
  | cons n succs ih => exact ih _

def SuccsFit (blocks : List Block) : Prop := ∀ i, ∀ n ∈ succsOf blocks i, n < blocks.length

variable {blocks : List Block}

theorem visit_toOption (hsucc : SuccsFit blocks) {A : Analysis} (i : ℕ)
    (h : QueueFits blocks.length A.queue) :
    (visit D cfg text textOffset blocks A i).toOption =
      MerlinV.visit D cfg text textOffset blocks A i := by
  unfold visit MerlinV.visit visitVia
  cases blocks[i]? with
  | none => rfl
  | some b =>
    dsimp only
    split
    · rfl
    · rw [← insnLoop_toOption]
      cases insnLoop D cfg text textOffset (blockOffsets text textOffset b)
        ⟨A.entryState i, 0, A.steps, A.rejected⟩ with
      | error rejected => rfl
      | ok r => exact congrArg some (foldl_pushSucc_eq r.st (by exact h) (hsucc i)).1

theorem visit_queueFits (hsucc : SuccsFit blocks) {A A' : Analysis} {i : ℕ}
    (h : QueueFits blocks.length A.queue)
    (hv : MerlinV.visit D cfg text textOffset blocks A i = some A') :
    QueueFits blocks.length A'.queue := by
  unfold MerlinV.visit visitVia at hv
  cases hb : blocks[i]? with
  | none =>
    rw [hb] at hv
    cases hv
    exact h
  | some b =>
    rw [hb] at hv
    dsimp only at hv
    split at hv
    · cases hv
      exact h
    · obtain ⟨r, -, hr⟩ := Option.bind_eq_some_iff.mp hv
      cases hr
      exact (foldl_pushSucc_eq r.st (by exact h) (hsucc i)).2

theorem visit_error_pos {A : Analysis} {i rejected : ℕ}
    (h : visit D cfg text textOffset blocks A i = .error rejected) : 0 < rejected := by
  unfold visit at h
  cases hb : blocks[i]? with
  | none =>
    rw [hb] at h
    cases h
  | some b =>
    rw [hb] at h
    dsimp only at h
    split at h
    · cases h
    · cases hl : insnLoop D cfg text textOffset (blockOffsets text textOffset b)
        ⟨A.entryState i, 0, A.steps, A.rejected⟩ with
      | error rejected' =>
        rw [hl] at h
        cases h
        exact insnLoop_error_pos hl
      | ok r =>
        rw [hl] at h
        cases h

inductive SameEnd : Option LoopEnd → Option MerlinV.LoopEnd → Prop where
  | fuel : SameEnd none none
  | fixpoint (A : Analysis) : SameEnd (some (.fixpoint A)) (some (.fixpoint A))
  | cap (rejected : ℕ) (pos : 0 < rejected) : SameEnd (some (.finalize rejected)) (some .capExceeded)

theorem verifyLoop_sameEnd (hsucc : SuccsFit blocks) (fuel : ℕ) {A : Analysis}
    (h : QueueFits blocks.length A.queue) :
    SameEnd (verifyLoop D cfg text textOffset blocks fuel A)
      (MerlinV.verifyLoop D cfg text textOffset blocks fuel A) := by
  induction fuel generalizing A with
  | zero => exact .fuel
  | succ fuel ih =>
    unfold verifyLoop MerlinV.verifyLoop
    cases hpop : MerlinV.wsPop A.queue with
    | none => exact .fixpoint A
    | some p =>
      obtain ⟨i, q⟩ := p
      have hq : QueueFits blocks.length q := h.wsPop hpop
      dsimp only
      have hvisit : (visit D cfg text textOffset blocks { A with queue := q } i).toOption = _ :=
        visit_toOption hsucc i hq
      cases hk : visit D cfg text textOffset blocks { A with queue := q } i with
      | error rejected =>
        rw [hk] at hvisit
        rw [← hvisit]
        exact .cap rejected (visit_error_pos hk)
      | ok A' =>
        rw [hk] at hvisit
        rw [← hvisit]
        exact ih (visit_queueFits hsucc (by exact hq) hvisit.symm)

theorem succsFit_of_build {G : Cfg} (hb : MerlinV.merlinCfgBuild D text textOffset = .ok G) :
    SuccsFit G.blocks := by
  obtain ⟨leader, raw, bound, hbuilt⟩ := merlinCfgBuild_built hb
  intro i n hn
  rw [hbuilt.length_eq]
  by_cases hi : i < raw.length
  · exact ((hbuilt.mem_succs hi).mp hn).1
  · have hnone : G.blocks[i]? = none := by
      rw [List.getElem?_eq_none_iff, hbuilt.length_eq]
      exact not_lt.mp hi
    rw [succsOf, hnone] at hn
    cases hn

theorem Analysis.init_eq {nblocks : ℕ} (h : 0 < nblocks) :
    Analysis.init cfg nblocks = MerlinV.Analysis.init cfg := by
  have hpush : wsPush nblocks [] 0 = [0] := by simp [wsPush, h]
  unfold Analysis.init MerlinV.Analysis.init
  rw [hpush]
  rfl

theorem queueFits_init {nblocks : ℕ} (h : 0 < nblocks) :
    QueueFits nblocks (MerlinV.Analysis.init cfg).queue := by
  constructor
  · exact List.nodup_singleton 0
  · intro i hi
    rw [List.mem_singleton.mp hi]
    exact h

theorem finalize_eq_reject {rejected : ℕ} (hpos : 0 < rejected) (hlt : rejected < 2 ^ 32) :
    finalize rejected = .reject := by
  unfold finalize
  rw [Nat.mod_eq_of_lt hlt, if_pos hpos.ne']

/-- The two verifiers give one verdict after the same number of iterations. -/
theorem merlinVerifyText_eq (hne : text ≠ []) (hfit : CounterFits D cfg text textOffset) (fuel : ℕ) :
    merlinVerifyText D cfg text textOffset fuel =
      MerlinV.merlinVerifyText D cfg text textOffset fuel := by
  unfold merlinVerifyText MerlinV.merlinVerifyText
  split
  · rfl
  have hbuild := @merlinCfgBuild_toOption D text textOffset hne
  cases hk : merlinCfgBuild D text textOffset with
  | error e =>
    cases hu : MerlinV.merlinCfgBuild D text textOffset with
    | error e' => rfl
    | ok G =>
      rw [hk, hu] at hbuild
      cases hbuild
  | ok G =>
    cases hu : MerlinV.merlinCfgBuild D text textOffset with
    | error e' =>
      rw [hk, hu] at hbuild
      cases hbuild
    | ok G' =>
      rw [hk, hu] at hbuild
      obtain rfl : G = G' := Option.some.inj hbuild
      dsimp only
      split
      · rfl
      · rename_i hn
        have hpos : 0 < G.blocks.length := Nat.pos_of_ne_zero hn
        have hend : SameEnd (verifyLoop D cfg text textOffset G.blocks fuel _) _ :=
          verifyLoop_sameEnd (succsFit_of_build hu) fuel (@queueFits_init cfg _ hpos)
        have hcounter := hfit G fuel
        rw [Analysis.init_eq (Nat.pos_of_ne_zero hn)] at hcounter ⊢
        generalize verifyLoop D cfg text textOffset G.blocks fuel _ = k at hend hcounter ⊢
        generalize MerlinV.verifyLoop D cfg text textOffset G.blocks fuel _ = u at hend ⊢
        cases hend with
        | fuel => rfl
        | fixpoint A => rfl
        | cap rejected pos =>
          exact congrArg some (finalize_eq_reject pos (hcounter rejected hk rfl))

def Counted (cfg : VerifierCfg) (steps rejected : ℕ) : Prop :=
  steps ≤ cfg.effectiveCap ∧ rejected ≤ 2 * steps

/-- The counters stay in bounds through a block, and one rejection more leaves at the cap. -/
theorem insnLoop_counted (hD : ∀ w pc, (D.decode w pc).isSome = true)
    (hcap : cfg.effectiveCap < 2 ^ 32 - 1) (offs : List ℕ) {r : BlockRun}
    (hr : Counted cfg r.steps r.rejected) :
    (∀ r', insnLoop D cfg text textOffset offs r = .ok r' → Counted cfg r'.steps r'.rejected) ∧
      ∀ rejected, insnLoop D cfg text textOffset offs r = .error rejected →
        rejected ≤ 2 * cfg.effectiveCap + 1 := by
  induction offs generalizing r with
  | nil =>
    constructor
    · intro r' h
      cases h
      exact hr
    · intro rejected h
      cases h
  | cons off offs ih =>
    obtain ⟨insn, hi⟩ := Option.isSome_iff_exists.mp (hD (textWord text off) (pcAt textOffset off))
    have hi : verifyInsn D text textOffset off = some insn := hi
    obtain ⟨hsteps, hrej⟩ := hr
    unfold insnLoop
    rw [hi]
    dsimp only
    split
    · constructor
      · intro r' h
        cases h
      · intro rejected h
        cases h
        omega
    · rename_i hle
      rw [Nat.mod_eq_of_lt (by omega)] at hle
      have htwo := stepInsn_rejects_le D cfg insn r.st r.pending
      apply ih
      constructor
      · dsimp only
        omega
      · rw [stepInsn_eq]
        dsimp only [Step.of]
        omega

theorem visit_counted (hD : ∀ w pc, (D.decode w pc).isSome = true)
    (hcap : cfg.effectiveCap < 2 ^ 32 - 1) {A : Analysis} (i : ℕ)
    (hA : Counted cfg A.steps A.rejected) :
    (∀ A', visit D cfg text textOffset blocks A i = .ok A' → Counted cfg A'.steps A'.rejected) ∧
      ∀ rejected, visit D cfg text textOffset blocks A i = .error rejected →
        rejected ≤ 2 * cfg.effectiveCap + 1 := by
  unfold visit
  cases blocks[i]? with
  | none =>
    constructor
    · intro A' h
      cases h
      exact hA
    · intro rejected h
      cases h
  | some b =>
    dsimp only
    split
    · constructor
      · intro A' h
        cases h
        exact hA
      · intro rejected h
        cases h
    · have hloop := @insnLoop_counted D cfg text textOffset hD hcap (blockOffsets text textOffset b)
        ⟨A.entryState i, 0, A.steps, A.rejected⟩ hA
      cases hr : insnLoop D cfg text textOffset (blockOffsets text textOffset b)
        ⟨A.entryState i, 0, A.steps, A.rejected⟩ with
      | error rejected =>
        constructor
        · intro A' h
          cases h
        · intro rejected' h
          cases h
          exact hloop.2 rejected hr
      | ok r =>
        constructor
        · intro A' h
          cases h
          rw [(foldl_pushSucc_counters blocks.length r.st _ _).1,
            (foldl_pushSucc_counters blocks.length r.st _ _).2]
          exact hloop.1 r hr
        · intro rejected h
          cases h

/-- A step cap that leaves room for two rejections a step keeps the counter from wrapping. -/
theorem counterFits_of_total (hD : ∀ w pc, (D.decode w pc).isSome = true)
    (hroom : 2 * cfg.effectiveCap + 1 < 2 ^ 32) : CounterFits D cfg text textOffset := by
  intro G fuel rejected _
  suffices hrun : ∀ A : Analysis, Counted cfg A.steps A.rejected →
      verifyLoop D cfg text textOffset G.blocks fuel A = some (.finalize rejected) →
        rejected < 2 ^ 32 from hrun _ ⟨Nat.zero_le _, Nat.zero_le _⟩
  induction fuel with
  | zero =>
    intro A _ h
    cases h
  | succ fuel ih =>
    intro A hA h
    unfold verifyLoop at h
    cases hpop : MerlinV.wsPop A.queue with
    | none =>
      rw [hpop] at h
      cases h
    | some p =>
      obtain ⟨i, q⟩ := p
      rw [hpop] at h
      dsimp only at h
      have hvisit := @visit_counted D cfg text textOffset G.blocks hD (by omega)
        { A with queue := q } i hA
      cases hv : visit D cfg text textOffset G.blocks { A with queue := q } i with
      | error rejected' =>
        rw [hv] at h
        cases h
        have := hvisit.2 rejected hv
        omega
      | ok A' =>
        rw [hv] at h
        exact ih A' (hvisit.1 A' hv) h

/-- For every decoder the kernel builds the graph the userland verifier builds and accepts the
texts it accepts. -/
theorem kernel_refines_userland (D : Decoder) (cfg : VerifierCfg) (text : Text)
    (textOffset : BitVec 32) (hne : text ≠ []) (hfit : CounterFits D cfg text textOffset) :
    (∀ G, merlinCfgBuild D text textOffset = .ok G ↔
        MerlinV.merlinCfgBuild D text textOffset = .ok G) ∧
      ((∃ fuel, merlinVerifyText D cfg text textOffset fuel = some .ok) ↔
        ∃ fuel, MerlinV.merlinVerifyText D cfg text textOffset fuel = some .ok) := by
  constructor
  · intro G
    have hbuild := @merlinCfgBuild_toOption D text textOffset hne
    rw [← Lib.toOption_eq_some, hbuild, Lib.toOption_eq_some]
  · simp only [merlinVerifyText_eq hne hfit]

/-- The guarded loop `li a7, 0x142; ecall; 1: bnez a0, 1b; ret`. -/
def guardedLoopText : Text := ofWords [0x14200893, 0x00000073, 0x00051063, 0x00008067]

theorem guardedLoopText_refines : guardedLoopText ≠ [] ∧
    CounterFits MerlinV.merlinDecoder merlinVerifierCfgInitForMvdp guardedLoopText 0x40 ∧
    (∀ G, merlinCfgBuild MerlinV.merlinDecoder guardedLoopText 0x40 = .ok G ↔
        MerlinV.merlinCfgBuild MerlinV.merlinDecoder guardedLoopText 0x40 = .ok G) ∧
      ∃ fuel, merlinVerifyText MerlinV.merlinDecoder merlinVerifierCfgInitForMvdp guardedLoopText 0x40 fuel =
        some .ok := by
  have hne : guardedLoopText ≠ [] := by decide
  have hfit : CounterFits MerlinV.merlinDecoder merlinVerifierCfgInitForMvdp guardedLoopText 0x40 :=
    counterFits_of_total merlinDecoder_total (by decide)
  obtain ⟨hbuild, hverdict⟩ :=
    kernel_refines_userland MerlinV.merlinDecoder merlinVerifierCfgInitForMvdp guardedLoopText 0x40 hne hfit
  exact ⟨hne, hfit, hbuild, hverdict.mpr ⟨5, by decide +kernel⟩⟩

end Refines

end MerlinV.Kernel
