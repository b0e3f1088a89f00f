import MerlinV.Cfg.Bounds
import MerlinV.Isa.KernelDecode
import MerlinV.Kernel.Verifier

/-! # The array accesses of the two verifiers

`merlin_verify_text` of `tools/merlin-verifier/verify.c` and of `kernel/merlin/verifier.c`, with
the kernel's graph builder.  The worklist driver is one text in both; a `Driver` holds what differs.
An allocation of no elements succeeds in both (`calloc`, `kcalloc`), and its first element is then
out of range.
-/
namespace MerlinV

open Kernel (QueueFits SuccsFit)

/-- What the worklist loop is made of: the number of entries in `items[]`, the instruction loop,
the join with its test, the push of a successor and the whole iteration. -/
structure Driver where
  items : ℕ
  insnLoop : List ℕ → BlockRun → Option BlockRun
  joinChanged : VState → VState → Bool
  pushSucc : VState → Analysis → ℕ → Analysis
  visit : Analysis → ℕ → Option Analysis
  wsPushTouch : List ℕ → ℕ → List Access

section Traces

variable (M : Driver) (text : Text) (textOffset : BitVec 32) (blocks : List Block)

/-- The entries that `ws_push` compares with `b`. -/
def wsScan (len : ℕ) (q : List ℕ) (b : ℕ) : List Access :=
  (List.range (min (q.idxOf b + 1) q.length)).map fun i : ℕ => ⟨.items, i, len⟩

def applyPendingTouch (b : Block) (pending : BitVec 32) : List Access :=
  match b.succ0 with
  | some h => if pending ≠ 0 then [⟨.loopHeaderOk, h, blocks.length⟩] else []
  | none => []

def pushSuccTouch (st : VState) (A : Analysis) (n : ℕ) : List Access :=
  ⟨.entryState, n, blocks.length⟩ ::
    if M.joinChanged (A.entryState n) st then M.wsPushTouch A.queue n else []

def insnLoopTrace (r : BlockRun) (offs : List ℕ) : List Access :=
  Lib.foldTrace
    (fun r off => match M.insnLoop [off] r with
      | none => .error ()
      | some r' => .ok r')
    (fun _ => wordReads text) r offs

def visitTrace (A : Analysis) (i : ℕ) : List Access :=
  blockTouch i :: ⟨.entryState, i, blocks.length⟩ :: match blocks[i]? with
    | none => []
    | some b =>
      if !(A.entryState i).valid then []
      else
        insnLoopTrace M text ⟨A.entryState i, 0, A.steps, A.rejected⟩ (blockOffsets text textOffset b) ++
          match M.insnLoop (blockOffsets text textOffset b) ⟨A.entryState i, 0, A.steps, A.rejected⟩ with
          | none => []
          | some r => applyPendingTouch blocks b r.pending ++
            Lib.loopTrace (M.pushSucc r.st) (pushSuccTouch M blocks r.st)
              { A with
                steps := r.steps
                rejected := r.rejected
                loopHeaderOk := applyPending b r.pending A.loopHeaderOk } (succsOf blocks i)

def verifyLoopTrace : ℕ → Analysis → List Access
  | 0, _ => []
  | fuel + 1, A =>
    match wsPop A.queue with
    | none => []
    | some (i, q) =>
      ⟨.items, q.length, M.items⟩ :: visitTrace M text textOffset blocks { A with queue := q } i ++
        match M.visit { A with queue := q } i with
        | none => []
        | some A' => verifyLoopTrace fuel A'

end Traces

def gateTrace (G : Cfg) : List Access :=
  (List.range G.backEdges.length).map (fun i : ℕ => ⟨.backEdges, i, cfgMaxEdges⟩) ++
    G.backEdges.map fun e : ℕ × ℕ => ⟨.loopHeaderOk, e.2, G.nblocks⟩

section Userland

variable (D : Decoder) (cfg : VerifierCfg) (text : Text) (textOffset : BitVec 32)

def wsPushTouch (q : List ℕ) (b : ℕ) : List Access :=
  wsScan cfgMaxBlocks q b ++ if b ∈ q then [] else [⟨.items, q.length, cfgMaxBlocks⟩]

def driver (blocks : List Block) : Driver where
  items := cfgMaxBlocks
  insnLoop := insnLoop D cfg text textOffset
  joinChanged := VState.joinChanged
  pushSucc := pushSucc
  visit := visit D cfg text textOffset blocks
  wsPushTouch := wsPushTouch

def verifyTextTrace (mem : Bool) (fuel : ℕ) : List Access :=
  if text.length % 4 ≠ 0 then []
  else cfgBuildTrace D text textOffset fuel ++ match merlinCfgBuild D text textOffset with
    | .error _ => []
    | .ok G =>
      if !mem then []
      else ⟨.entryState, 0, G.nblocks⟩ :: wsPushTouch [] 0 ++
        verifyLoopTrace (driver D cfg text textOffset G.blocks) text textOffset G.blocks fuel
          (Analysis.init cfg) ++
        match verifyLoop D cfg text textOffset G.blocks fuel (Analysis.init cfg) with
        | some (.fixpoint _) => gateTrace G
        | _ => []

end Userland

namespace Kernel

/-- Which allocations succeed: the graph with the scratch state, the leader bitmap, the arrays of
the search and the arrays of the driver. -/
structure Allocs where
  graph : Bool
  leaderBm : Bool
  rpo : Bool
  states : Bool
  deriving DecidableEq, Repr

section Traces

variable (D : Decoder) (cfg : VerifierCfg) (text : Text) (textOffset : BitVec 32)

/-- An iteration of the search on the stack; `state[]` is what `visited[]` is in userland. -/
def stackStepTouch (blocks : List Block) : List ℕ × List ℕ × List ℕ → List Access
  | ([], _) => []
  | (b :: rest, visited, post) =>
    let visited := if b ∈ visited then visited else b :: visited
    ⟨.stack, rest.length, cfgMaxBlocks⟩ :: ⟨.visited, b, cfgMaxBlocks⟩ :: blockTouch b ::
      ((tableSuccs blocks b).take ((tableSuccs blocks b).findIdx (· ∉ visited) + 1)).map
        (fun n : ℕ => ⟨.visited, n, cfgMaxBlocks⟩) ++
      match (tableSuccs blocks b).find? (· ∉ visited) with
      | some _ => [⟨.stack, (rest.length + 1 : ℕ), cfgMaxBlocks⟩]
      | none => [⟨.post, post.length, cfgMaxBlocks⟩]

def stackTrace (blocks : List Block) : ℕ → List ℕ × List ℕ × List ℕ → List Access
  | 0, _ => []
  | fuel + 1, s => stackStepTouch blocks s ++ stackTrace blocks fuel (Lib.stackStep (tableSuccs blocks) s)

def computeRpoTrace (blocks : List Block) (fuel : ℕ) : List Access :=
  ⟨.stack, 0, cfgMaxBlocks⟩ :: stackTrace blocks fuel ([0], [], []) ++
    rpoFillTrace (cfgComputeRpo blocks).length

/-- `merlin_cfg_build`.  Without memory for the search the builder goes on with an empty order and
refuses the text at its end. -/
def cfgBuildTrace (m : Allocs) (fuel : ℕ) : List Access :=
  if text.length % 4 ≠ 0 then []
  else if text.length / 4 > cfgMaxInsns then []
  else if !m.leaderBm then []
  else findLeadersTrace D text (leaderStep D text) ++ match cfgFindLeaders D text with
    | .error _ => []
    | .ok leader => buildBlocksTrace D text textOffset leader ++
      match cfgBuildBlocks D text textOffset leader with
      | .error _ => []
      | .ok blocks =>
        if m.rpo then computeRpoTrace blocks fuel ++ finishTrace blocks (cfgComputeRpo blocks) fuel
        else finishTrace blocks [] fuel

/-- `ws_push`: a full table takes nothing more. -/
def wsPushTouch (cap : ℕ) (q : List ℕ) (b : ℕ) : List Access :=
  wsScan cap q b ++ if b ∈ q then [] else if q.length < cap then [⟨.items, q.length, cap⟩] else []

def driver (blocks : List Block) : Driver where
  items := blocks.length
  insnLoop offs r := (insnLoop D cfg text textOffset offs r).toOption
  joinChanged := vstateJoinChanged
  pushSucc := pushSucc blocks.length
  visit A i := (visit D cfg text textOffset blocks A i).toOption
  wsPushTouch := wsPushTouch blocks.length

def verifyTextTrace (m : Allocs) (fuel : ℕ) : List Access :=
  if text.length % 4 ≠ 0 then []
  else if !m.graph then []
  else cfgBuildTrace D text textOffset m fuel ++
    if !m.leaderBm || !m.rpo then []
    else match merlinCfgBuild D text textOffset with
      | .error _ => []
      | .ok G =>
        if !m.states then []
        else ⟨.entryState, 0, G.nblocks⟩ :: wsPushTouch G.nblocks [] 0 ++
          verifyLoopTrace (driver D cfg text textOffset G.blocks) text textOffset G.blocks fuel
            (Analysis.init cfg G.nblocks) ++
          match verifyLoop D cfg text textOffset G.blocks fuel (Analysis.init cfg G.nblocks) with
          | some (.fixpoint _) => gateTrace G
          | _ => []

end Traces

end Kernel

section Driver

variable {D : Decoder} {text : Text} {textOffset : BitVec 32} {G : Cfg} {leader : LeaderMap}
  {raw : List Block} {bound : ℕ → ℕ} {M : Driver}

theorem Kernel.QueueFits.length_le {cap : ℕ} {q : List ℕ} (h : QueueFits cap q) : q.length ≤ cap := by
  have hsub : q ⊆ List.range cap := fun i hi => List.mem_range.mpr (h.lt i hi)
  have hle := (h.nodup.subperm hsub).length_le
  rwa [List.length_range] at hle

theorem wsScan_inRange {cap len : ℕ} {q : List ℕ} (h : QueueFits cap q) (hle : cap ≤ len) (b : ℕ) :
    AllInRange (wsScan len q b) := by
  apply allInRange_map_range
  have := h.length_le
  omega

structure Driver.Fits (M : Driver) (nblocks : ℕ) : Prop where
  items : nblocks ≤ M.items
  push : ∀ st A n, QueueFits nblocks A.queue → n < nblocks → QueueFits nblocks (M.pushSucc st A n).queue
  visit : ∀ A i A', QueueFits nblocks A.queue → M.visit A i = some A' → QueueFits nblocks A'.queue
  touch : ∀ q b, QueueFits nblocks q → b < nblocks → AllInRange (M.wsPushTouch q b)

theorem Built.blockOffsets_lt (h : Built D text textOffset G leader raw bound) {i : ℕ} {b : Block}
    (hb : G.blocks[i]? = some b) {off : ℕ} (hoff : off ∈ blockOffsets text textOffset b) :
    off + 4 ≤ text.length := by
  obtain ⟨hpos, hle, -⟩ := h.last_lt (h.lt_of_get hb)
  rw [h.blockOffsets_eq hb] at hoff
  obtain ⟨k, hk, rfl⟩ := List.mem_map.mp hoff
  have hk := List.mem_range'_1.mp hk
  omega

theorem insnLoopTrace_inRange {offs : List ℕ} (h : ∀ off ∈ offs, off + 4 ≤ text.length) (r : BlockRun) :
    AllInRange (insnLoopTrace M text r offs) := by
  apply allInRange_foldTrace fun l _ => ∀ off ∈ l, off + 4 ≤ text.length
  · exact h
  · exact fun off l _ _ hl _ o ho => hl o (List.mem_cons_of_mem off ho)
  · exact fun off l _ hl => wordReads_inRange (hl off List.mem_cons_self)

theorem mem_succsOf_of_succ0 {blocks : List Block} {i n : ℕ} {b : Block} (hb : blocks[i]? = some b)
    (hn : b.succ0 = some n) : n ∈ succsOf blocks i := by
  simp [succsOf, hb, hn]

theorem applyPendingTouch_inRange {blocks : List Block} (hsucc : SuccsFit blocks) {i : ℕ} {b : Block}
    (hb : blocks[i]? = some b) (pending : BitVec 32) :
    AllInRange (applyPendingTouch blocks b pending) := by
  unfold applyPendingTouch
  split
  · rename_i n hn
    split
    · rw [allInRange_cons]
      exact ⟨inRange_natCast.mpr (hsucc i n (mem_succsOf_of_succ0 hb hn)), allInRange_nil⟩
    · exact allInRange_nil
  · exact allInRange_nil

theorem pushSuccTouch_inRange {blocks : List Block} (hM : M.Fits blocks.length) (st : VState)
    {A : Analysis} (hq : QueueFits blocks.length A.queue) {n : ℕ} (hn : n < blocks.length) :
    AllInRange (pushSuccTouch M blocks st A n) := by
  unfold pushSuccTouch
  rw [allInRange_cons]
  refine ⟨inRange_natCast.mpr hn, ?_⟩
  split
  · exact hM.touch _ _ hq hn
  · exact allInRange_nil

theorem visitTrace_inRange (hM : M.Fits G.blocks.length) (hbuilt : Built D text textOffset G leader raw bound)
    (hfits : G.blocks.length ≤ cfgMaxBlocks) (hsucc : SuccsFit G.blocks) {A : Analysis} {i : ℕ}
    (hq : QueueFits G.blocks.length A.queue) (hi : i < G.blocks.length) :
    AllInRange (visitTrace M text textOffset G.blocks A i) := by
  unfold visitTrace
  rw [allInRange_cons, allInRange_cons]
  refine ⟨blockTouch_inRange (hi.trans_le hfits), inRange_natCast.mpr hi, ?_⟩
  cases hb : G.blocks[i]? with
  | none => exact allInRange_nil
  | some b =>
    dsimp only
    split
    · exact allInRange_nil
    rw [allInRange_append]
    refine ⟨insnLoopTrace_inRange (fun off hoff => hbuilt.blockOffsets_lt hb hoff) _, ?_⟩
    split
    · exact allInRange_nil
    rename_i r _
    rw [allInRange_append]
    refine ⟨applyPendingTouch_inRange hsucc hb _, ?_⟩
    apply allInRange_loopTrace fun l (A : Analysis) =>
      QueueFits G.blocks.length A.queue ∧ ∀ n ∈ l, n < G.blocks.length
    · exact ⟨hq, hsucc i⟩
    · rintro n l A ⟨hq, hl⟩
      exact ⟨hM.push _ _ _ hq (hl n List.mem_cons_self), fun m hm => hl m (List.mem_cons_of_mem n hm)⟩
    · rintro n l A ⟨hq, hl⟩
      exact pushSuccTouch_inRange hM _ hq (hl n List.mem_cons_self)

theorem verifyLoopTrace_inRange (hM : M.Fits G.blocks.length)
    (hbuilt : Built D text textOffset G leader raw bound) (hfits : G.blocks.length ≤ cfgMaxBlocks)
    (hsucc : SuccsFit G.blocks) (fuel : ℕ) {A : Analysis} (hq : QueueFits G.blocks.length A.queue) :
    AllInRange (verifyLoopTrace M text textOffset G.blocks fuel A) := by
  induction fuel generalizing A with
  | zero => exact allInRange_nil
  | succ fuel ih =>
    unfold verifyLoopTrace
    cases hpop : wsPop A.queue with
    | none => exact allInRange_nil
    | some p =>
      obtain ⟨i, q⟩ := p
      have hq' : QueueFits G.blocks.length q := hq.wsPop hpop
      obtain ⟨hi, rfl⟩ := wsPop_eq_some hq.nodup hpop
      have hlen : (A.queue.erase i).length < M.items := by
        have hle := hq.length_le
        have hpos : 0 < A.queue.length := List.length_pos_of_mem hi
        rw [List.length_erase_of_mem hi]
        have := hM.items
        omega
      dsimp only
      rw [allInRange_append, allInRange_cons]
      refine ⟨⟨inRange_natCast.mpr hlen, visitTrace_inRange hM hbuilt hfits hsucc hq' (hq.lt i hi)⟩, ?_⟩
      cases hv : M.visit { A with queue := A.queue.erase i } i with
      | none => exact allInRange_nil
      | some A' => exact ih (hM.visit _ i A' hq' hv)

theorem gateTrace_inRange (hcount : G.backEdges.length ≤ cfgMaxEdges)
    (hdst : ∀ e ∈ G.backEdges, e.2 < G.nblocks) : AllInRange (gateTrace G) := by
  unfold gateTrace
  rw [allInRange_append]
  refine ⟨allInRange_map_range hcount, ?_⟩
  intro a ha
  obtain ⟨e, he, rfl⟩ := List.mem_map.mp ha
  exact inRange_natCast.mpr (hdst e he)

theorem Built.backEdges_lt (h : Built D text textOffset G leader raw bound) (hsucc : SuccsFit G.blocks)
    {e : ℕ × ℕ} (he : e ∈ G.backEdges) : e.2 < G.nblocks := by
  rw [h.backEdges, cfgFindBackEdges] at he
  obtain ⟨i, -, he⟩ := List.mem_flatMap.mp he
  obtain ⟨t, ht, rfl⟩ := List.mem_map.mp he
  exact hsucc i t (List.mem_of_mem_filter ht)

theorem analysisTrace_inRange (hne : text ≠ []) (hb : merlinCfgBuild D text textOffset = .ok G)
    (hM : M.Fits G.blocks.length) {A : Analysis} (hq : QueueFits G.blocks.length A.queue) (fuel : ℕ) :
    (⟨.entryState, 0, G.nblocks⟩ : Access).InRange ∧
      AllInRange (verifyLoopTrace M text textOffset G.blocks fuel A) ∧ AllInRange (gateTrace G) := by
  obtain ⟨leader, raw, bound, hbuilt⟩ := merlinCfgBuild_built hb
  have hsucc := Kernel.succsFit_of_build hb
  have hfits := merlinCfgBuild_fits hb
  refine ⟨inRange_natCast.mpr (hbuilt.nblocks_pos hne), ?_, ?_⟩
  · exact verifyLoopTrace_inRange hM hbuilt hfits hsucc fuel hq
  · exact gateTrace_inRange (merlinCfgBuild_backEdges_le hb) fun e he => hbuilt.backEdges_lt hsucc he

end Driver

section Userland

variable {D : Decoder} {cfg : VerifierCfg} {text : Text} {textOffset : BitVec 32}

theorem wsPushTouch_inRange {cap : ℕ} (hcap : cap ≤ cfgMaxBlocks) {q : List ℕ} {b : ℕ}
    (hq : QueueFits cap q) (hb : b < cap) : AllInRange (wsPushTouch q b) := by
  unfold wsPushTouch
  rw [allInRange_append]
  refine ⟨wsScan_inRange hq hcap b, ?_⟩
  split
  · exact allInRange_nil
  · rename_i hnot
    rw [allInRange_cons]
    exact ⟨inRange_natCast.mpr ((hq.length_lt hb hnot).trans_le hcap), allInRange_nil⟩

theorem driver_fits {blocks : List Block} (hsucc : SuccsFit blocks) (hcap : blocks.length ≤ cfgMaxBlocks) :
    (driver D cfg text textOffset blocks).Fits blocks.length where
  items := hcap
  push st _ _ hq hn := (Kernel.pushSucc_eq st hq hn).2
  visit _ _ _ hq hv := Kernel.visit_queueFits hsucc hq hv
  touch _ _ hq hb := wsPushTouch_inRange hcap hq hb

theorem verifyTextTrace_inRange (hne : text ≠ []) (mem : Bool) (fuel : ℕ) :
    AllInRange (verifyTextTrace D cfg text textOffset mem fuel) := by
  unfold verifyTextTrace
  split
  · exact allInRange_nil
  rw [allInRange_append]
  refine ⟨cfgBuildTrace_inRange hne fuel, ?_⟩
  cases hb : merlinCfgBuild D text textOffset with
  | error e => exact allInRange_nil
  | ok G =>
    dsimp only
    split
    · exact allInRange_nil
    have hpos : 0 < G.blocks.length := merlinCfgBuild_pos hne hb
    have hM := @driver_fits D cfg text textOffset _ (Kernel.succsFit_of_build hb) (merlinCfgBuild_fits hb)
    obtain ⟨hentry, hloop, hgate⟩ :=
      analysisTrace_inRange hne hb hM (@Kernel.queueFits_init cfg _ hpos) fuel
    rw [allInRange_append, allInRange_append, allInRange_cons]
    refine ⟨⟨⟨hentry, ?_⟩, hloop⟩, ?_⟩
    · exact wsPushTouch_inRange (merlinCfgBuild_fits hb) ⟨List.nodup_nil, nofun⟩ hpos
    · split
      · exact hgate
      · exact allInRange_nil

end Userland

namespace Kernel

variable {D : Decoder} {cfg : VerifierCfg} {text : Text} {textOffset : BitVec 32}

theorem stackStepTouch_inRange {blocks : List Block} (hw : Wired blocks) {s : List ℕ × List ℕ × List ℕ}
    (h : Lib.StackState (List.range blocks.length) s) : AllInRange (stackStepTouch blocks s) := by
  have hnext := (h.step hw.tableSuccs_closed).lengths
  rw [List.length_range] at hnext
  have hfits := hw.fits
  obtain ⟨stack, visited, post⟩ := s
  cases stack with
  | nil => exact allInRange_nil
  | cons b rest =>
    have hb := h.stack_mem List.mem_cons_self
    have hlt : b < blocks.length := List.mem_range.mp hb
    have hlen : rest.length < blocks.length := by
      have hle := h.lengths.1
      rw [List.length_range, List.length_cons] at hle
      exact hle
    unfold stackStepTouch
    unfold Lib.stackStep at hnext
    dsimp only at hnext ⊢
    generalize (if b ∈ visited then visited else b :: visited) = visited' at hnext ⊢
    rw [allInRange_append, allInRange_cons, allInRange_cons, allInRange_cons]
    refine ⟨⟨inRange_natCast.mpr (by omega), inRange_natCast.mpr (by omega),
      blockTouch_inRange (by omega), ?_⟩, ?_⟩
    · intro a ha
      obtain ⟨n, hn, rfl⟩ := List.mem_map.mp ha
      have hmem := List.mem_range.mp (hw.tableSuccs_closed b hb n (List.mem_of_mem_take hn))
      exact inRange_natCast.mpr (by omega)
    · cases hfind : (tableSuccs blocks b).find? (· ∉ visited') with
      | some n =>
        rw [hfind] at hnext
        have hpush := hnext.1
        simp only [List.length_cons] at hpush
        rw [allInRange_cons]
        exact ⟨inRange_natCast.mpr (by omega), allInRange_nil⟩
      | none =>
        rw [hfind] at hnext
        have hpop := hnext.2
        simp only [List.length_cons] at hpop
        rw [allInRange_cons]
        exact ⟨inRange_natCast.mpr (by omega), allInRange_nil⟩

theorem stackTrace_inRange {blocks : List Block} (hw : Wired blocks) (fuel : ℕ)
    {s : List ℕ × List ℕ × List ℕ} (h : Lib.StackState (List.range blocks.length) s) :
    AllInRange (stackTrace blocks fuel s) := by
  induction fuel generalizing s with
  | zero => exact allInRange_nil
  | succ fuel ih =>
    rw [stackTrace, allInRange_append]
    exact ⟨stackStepTouch_inRange hw h, ih (h.step hw.tableSuccs_closed)⟩

theorem computeRpoTrace_inRange {blocks : List Block} (hw : Wired blocks) (fuel : ℕ) :
    AllInRange (computeRpoTrace blocks fuel) := by
  have hfacts := rpoFacts_of_closed hw.pos hw.closed
  have hroot : Lib.StackState (List.range blocks.length) ([0], [], []) := {
    stack_nodup := List.nodup_singleton 0
    stack_mem := by
      intro v hv
      rw [List.mem_singleton.mp hv]
      exact List.mem_range.mpr hw.pos
    stack_visited := List.nil_subset _
    post_nodup := List.nodup_nil
    post_mem := List.nil_subset _
    post_visited := List.nil_subset _
    unfinished := by simp }
  unfold computeRpoTrace
  rw [allInRange_append, allInRange_cons, cfgComputeRpo_eq hw.pos hw.closed]
  refine ⟨⟨by decide, stackTrace_inRange hw fuel hroot⟩, ?_⟩
  exact rpoFillTrace_inRange (hfacts.length_le.trans hw.fits)

theorem cfgBuildTrace_inRange (hne : text ≠ []) (m : Allocs) (fuel : ℕ) :
    AllInRange (cfgBuildTrace D text textOffset m fuel) := by
  unfold cfgBuildTrace
  split
  · exact allInRange_nil
  rename_i hsize
  rw [not_not] at hsize
  split
  · exact allInRange_nil
  rename_i hcap
  rw [not_lt] at hcap
  split
  · exact allInRange_nil
  rw [allInRange_append]
  refine ⟨findLeadersTrace_inRange hcap _, ?_⟩
  cases hk : cfgFindLeaders D text with
  | error e => exact allInRange_nil
  | ok leader =>
    have hleader : MerlinV.cfgFindLeaders D text = .ok leader := by
      rw [← Lib.toOption_eq_some, ← cfgFindLeaders_toOption, hk]
      rfl
    dsimp only
    rw [allInRange_append]
    refine ⟨buildBlocksTrace_inRange hsize hcap hleader, ?_⟩
    cases hb : cfgBuildBlocks D text textOffset leader with
    | error e => exact allInRange_nil
    | ok blocks =>
      have hw := wired_cfgBuildBlocks hne hsize hcap hleader hb
      have hfacts := rpoFacts_of_closed hw.pos hw.closed
      dsimp only
      split
      · rw [allInRange_append, cfgComputeRpo_eq hw.pos hw.closed]
        refine ⟨computeRpoTrace_inRange hw fuel, finishTrace_inRange hw ?_ ?_ fuel⟩
        · exact hfacts.length_le.trans hw.fits
        · exact fun b hb => hfacts.lt b ((hfacts.mem_iff b).mp hb)
      · exact finishTrace_inRange hw (Nat.zero_le _) (fun _ hb => (List.not_mem_nil hb).elim) fuel

theorem wsPushTouch_inRange {cap : ℕ} {q : List ℕ} (hq : QueueFits cap q) (b : ℕ) :
    AllInRange (wsPushTouch cap q b) := by
  unfold wsPushTouch
  rw [allInRange_append]
  refine ⟨wsScan_inRange hq le_rfl b, ?_⟩
  split
  · exact allInRange_nil
  split
  · rename_i hroom
    rw [allInRange_cons]
    exact ⟨inRange_natCast.mpr hroom, allInRange_nil⟩
  · exact allInRange_nil

theorem driver_fits {blocks : List Block} (hsucc : SuccsFit blocks) :
    (driver D cfg text textOffset blocks).Fits blocks.length where
  items := le_rfl
  push st A n hq hn := by
    obtain ⟨heq, hfits⟩ := pushSucc_eq st hq hn
    change QueueFits blocks.length (pushSucc blocks.length st A n).queue
    rw [heq]
    exact hfits
  visit A i A' hq hv := by
    change (visit D cfg text textOffset blocks A i).toOption = some A' at hv
    rw [visit_toOption hsucc i hq] at hv
    exact visit_queueFits hsucc hq hv
  touch _ b hq _ := wsPushTouch_inRange hq b

theorem verifyTextTrace_inRange (hne : text ≠ []) (m : Allocs) (fuel : ℕ) :
    AllInRange (verifyTextTrace D cfg text textOffset m fuel) := by
  unfold verifyTextTrace
  split
  · exact allInRange_nil
  split
  · exact allInRange_nil
  rw [allInRange_append]
  refine ⟨cfgBuildTrace_inRange hne m fuel, ?_⟩
  split
  · exact allInRange_nil
  cases hk : merlinCfgBuild D text textOffset with
  | error e => exact allInRange_nil
  | ok G =>
    have hb : MerlinV.merlinCfgBuild D text textOffset = .ok G := by
      rw [← Lib.toOption_eq_some, ← merlinCfgBuild_toOption hne, hk]
      rfl
    dsimp only
    split
    · exact allInRange_nil
    have hpos : 0 < G.blocks.length := merlinCfgBuild_pos hne hb
    have hq : QueueFits G.blocks.length (Analysis.init cfg G.nblocks).queue := by
      rw [Analysis.init_eq (by exact hpos)]
      exact queueFits_init hpos
    have hM := @driver_fits D cfg text textOffset _ (succsFit_of_build hb)
    obtain ⟨hentry, hloop, hgate⟩ := analysisTrace_inRange hne hb hM hq fuel
    rw [allInRange_append, allInRange_append, allInRange_cons]
    refine ⟨⟨⟨hentry, ?_⟩, hloop⟩, ?_⟩
    · exact wsPushTouch_inRange ⟨List.nodup_nil, nofun⟩ 0
    · split
      · exact hgate
      · exact allInRange_nil

end Kernel

section Safe

variable (D : Decoder) (cfg : VerifierCfg) (text : Text) (textOffset : BitVec 32)

/-- Every access that the userland verifier can make to its arrays is in range, with or without
memory for the analysis. -/
def IndexSafe : Prop := ∀ mem fuel, AllInRange (verifyTextTrace D cfg text textOffset mem fuel)

/-- Every access that the kernel verifier can make to its arrays is in range, whichever of its
allocations fail. -/
def Kernel.IndexSafe : Prop := ∀ m fuel, AllInRange (Kernel.verifyTextTrace D cfg text textOffset m fuel)

theorem merlinCfgBuild_nil : ∃ G, merlinCfgBuild D [] textOffset = .ok G ∧ G.nblocks = 0 :=
  ⟨_, rfl, rfl⟩

theorem Kernel.merlinCfgBuild_nil : ∃ G, Kernel.merlinCfgBuild D [] textOffset = .ok G ∧ G.nblocks = 0 :=
  ⟨_, rfl, rfl⟩

/-- Without a block, `entry_state[0]` lies behind the end of the array. -/
theorem entryState_mem_verifyTextTrace :
    (⟨.entryState, 0, 0⟩ : Access) ∈ verifyTextTrace D cfg [] textOffset true 0 := by
  obtain ⟨G, hG, hn⟩ := MerlinV.merlinCfgBuild_nil D textOffset
  simp [verifyTextTrace, hG, hn]

theorem Kernel.entryState_mem_verifyTextTrace : (⟨.entryState, 0, 0⟩ : Access) ∈
    Kernel.verifyTextTrace D cfg [] textOffset ⟨true, true, true, true⟩ 0 := by
  obtain ⟨G, hG, hn⟩ := Kernel.merlinCfgBuild_nil D textOffset
  simp [Kernel.verifyTextTrace, hG, hn]

theorem not_inRange_entryState : ¬ (⟨.entryState, 0, 0⟩ : Access).InRange := by decide

/-- Both verifiers stay inside their arrays on the texts that are not empty, and on no others.  The
bound on the length is where `text_size / 4` no longer fits a `uint32_t`. -/
theorem indexSafe_iff_ne_nil (h : text.length < 2 ^ 34) :
    (IndexSafe D cfg text textOffset ↔ text ≠ []) ∧
      (Kernel.IndexSafe D cfg text textOffset ↔ text ≠ []) := by
  refine ⟨⟨?_, verifyTextTrace_inRange⟩, ⟨?_, Kernel.verifyTextTrace_inRange⟩⟩
  · rintro hsafe rfl
    exact not_inRange_entryState (hsafe true 0 _ (entryState_mem_verifyTextTrace D cfg textOffset))
  · rintro hsafe rfl
    exact not_inRange_entryState (hsafe ⟨true, true, true, true⟩ 0 _
      (Kernel.entryState_mem_verifyTextTrace D cfg textOffset))

end Safe

theorem guardedLoopText_indexSafe : Kernel.guardedLoopText.length < 2 ^ 34 ∧
    IndexSafe merlinDecoder merlinVerifierCfgInitForMvdp Kernel.guardedLoopText 0 ∧
      Kernel.IndexSafe Kernel.merlinDecoder merlinVerifierCfgInitForMvdp Kernel.guardedLoopText 0 := by
  have hlen : Kernel.guardedLoopText.length < 2 ^ 34 := by decide
  have hne : Kernel.guardedLoopText ≠ [] := by decide
  have huser := indexSafe_iff_ne_nil merlinDecoder merlinVerifierCfgInitForMvdp Kernel.guardedLoopText 0 hlen
  have hkernel :=
    indexSafe_iff_ne_nil Kernel.merlinDecoder merlinVerifierCfgInitForMvdp Kernel.guardedLoopText 0 hlen
  exact ⟨hlen, huser.1.mpr hne, hkernel.2.mpr hne⟩

/-- The text of no bytes takes both verifiers out of range. -/
theorem emptyText_not_indexSafe :
    ¬ IndexSafe merlinDecoder merlinVerifierCfgInitForMvdp [] 0 ∧
      ¬ Kernel.IndexSafe Kernel.merlinDecoder merlinVerifierCfgInitForMvdp [] 0 := by
  constructor
  · exact fun hsafe => not_inRange_entryState (hsafe true 0 _ (entryState_mem_verifyTextTrace _ _ _))
  · exact fun hsafe => not_inRange_entryState (hsafe ⟨true, true, true, true⟩ 0 _
      (Kernel.entryState_mem_verifyTextTrace _ _ _))

end MerlinV
