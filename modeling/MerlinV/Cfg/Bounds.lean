import MerlinV.Cfg.Dominators
import MerlinV.Lib.Trace

/-! # The array accesses of the graph builder

Every access of `tools/merlin-verifier/cfg.c` to the text and to its tables, with the index as
the C code computes it (`-1` where it would follow a missing link) and the length of the array.
The loops that C runs to completion are cut off by `fuel`; what is proved holds for every fuel.
-/
namespace MerlinV

inductive Arr where
  | text | leaderBm | blocks | visited | stack | post | rpo | rpoOf | backEdges | entryState
  | loopHeaderOk | items
  deriving DecidableEq, Repr

structure Access where
  arr : Arr
  idx : ℤ
  len : ℕ
  deriving DecidableEq, Repr

def Access.InRange (a : Access) : Prop := 0 ≤ a.idx ∧ a.idx < a.len

instance (a : Access) : Decidable a.InRange := inferInstanceAs (Decidable (_ ∧ _))

def AllInRange (l : List Access) : Prop := ∀ a ∈ l, a.InRange

@[simp] theorem allInRange_nil : AllInRange [] := by simp [AllInRange]

@[simp] theorem allInRange_cons {a : Access} {l : List Access} :
    AllInRange (a :: l) ↔ a.InRange ∧ AllInRange l := by
  simp [AllInRange]

@[simp] theorem allInRange_append {l l' : List Access} :
    AllInRange (l ++ l') ↔ AllInRange l ∧ AllInRange l' := by
  simp [AllInRange, or_imp, forall_and]

theorem inRange_natCast {arr : Arr} {i len : ℕ} : (⟨arr, i, len⟩ : Access).InRange ↔ i < len := by
  simp [Access.InRange]

theorem allInRange_map_range {arr : Arr} {n len : ℕ} (h : n ≤ len) :
    AllInRange ((List.range n).map fun i : ℕ => ⟨arr, i, len⟩) := by
  intro a ha
  obtain ⟨i, hi, rfl⟩ := List.mem_map.mp ha
  exact inRange_natCast.mpr ((List.mem_range.mp hi).trans_le h)

section Loops

variable {σ α ε : Type*}

theorem allInRange_foldTrace {step : σ → α → Except ε σ} {touch : σ → α → List Access} {l : List α}
    {s : σ} (Inv : List α → σ → Prop) (h : Inv l s)
    (hstep : ∀ a l s s', Inv (a :: l) s → step s a = .ok s' → Inv l s')
    (htouch : ∀ a l s, Inv (a :: l) s → AllInRange (touch s a)) :
    AllInRange (Lib.foldTrace step touch s l) :=
  Lib.foldTrace_forall Inv hstep htouch h

theorem allInRange_loopTrace {step : σ → α → σ} {touch : σ → α → List Access} {l : List α} {s : σ}
    (Inv : List α → σ → Prop) (h : Inv l s) (hstep : ∀ a l s, Inv (a :: l) s → Inv l (step s a))
    (htouch : ∀ a l s, Inv (a :: l) s → AllInRange (touch s a)) :
    AllInRange (Lib.loopTrace step touch s l) :=
  Lib.loopTrace_forall Inv hstep htouch h

end Loops

section Traces

variable (D : Decoder) (text : Text) (textOffset : BitVec 32)

def wordReads (off : ℕ) : List Access :=
  (List.range 4).map fun k => ⟨.text, (off + k : ℕ), text.length⟩

/-- `leader_set` and `leader_get`: the byte of the bitmap that holds bit `idx`. -/
def leaderTouch (idx : ℕ) : Access := ⟨.leaderBm, (idx / 8 : ℕ), cfgMaxInsns / 8 + 1⟩

def blockTouch (i : ℕ) : Access := ⟨.blocks, i, cfgMaxBlocks⟩

def leaderNextTouch (off : ℕ) : List Access :=
  if off + 4 < text.length then [leaderTouch ((off + 4) / 4)] else []

def leaderJumpTouch (off : ℕ) (insn : Insn) : List Access :=
  let tgt := jumpTarget off insn
  if tgt < 0 ∨ tgt.toNat ≥ text.length then []
  else leaderTouch (tgt.toNat / 4) :: leaderNextTouch text off

def leaderStepTouch (i : ℕ) : List Access :=
  wordReads text (4 * i) ++ match cfgInsn D text (4 * i) with
    | none => []
    | some insn =>
      match insn.cls with
      | .branch => leaderJumpTouch text (4 * i) insn
      | .jal => leaderJumpTouch text (4 * i) insn
      | .jalr => leaderNextTouch text (4 * i)
      | _ => []

def findLeadersTrace (step : LeaderMap → ℕ → Except String LeaderMap) : List Access :=
  leaderTouch 0 :: Lib.foldTrace step (fun _ => leaderStepTouch D text)
    (leaderSet (fun _ => false) 0) (List.range (text.length / 4))

/-- The first loop of `cfg_build_blocks` for instruction `i`: a leader opens `blocks[nblocks]`,
and the current block is the one opened last. -/
def blockStepTouch (leader : LeaderMap) (blocks : List Block) (i : ℕ) : List Access :=
  wordReads text (4 * i) ++ leaderTouch i ::
    if leader i then
      if blocks.length ≥ cfgMaxBlocks then [] else [blockTouch blocks.length]
    else if blocks = [] then []
    else [blockTouch (blocks.length - 1)]

/-- `merlin_cfg_block_at`: the blocks up to the one that is found. -/
def blockAtTouch (blocks : List Block) (pc : BitVec 32) : List Access :=
  (List.range (((cfgBlockAt blocks pc).map (· + 1)).getD blocks.length)).map fun i : ℕ => blockTouch i

def fillTouch (blocks : List Block) (i : ℕ) (b : Block) : List Access :=
  blockTouch i :: wordReads text (b.endPc - textOffset).toNat ++
    if b.isReturn then []
    else if (terminator D text textOffset b).any Insn.isCtrl then
      (if b.succPc0 ≠ 0 then blockAtTouch blocks b.succPc0 else []) ++
        if b.succPc1 ≠ 0 then blockAtTouch blocks b.succPc1 else []
    else if i + 1 < blocks.length then [blockTouch (i + 1)]
    else []

def buildBlocksTrace (leader : LeaderMap) : List Access :=
  Lib.foldTrace (blockStep D text textOffset leader) (blockStepTouch text leader) []
      (List.range (text.length / 4)) ++
    match (List.range (text.length / 4)).foldlM (blockStep D text textOffset leader) [] with
    | .error _ => []
    | .ok rev => (rev.reverse.mapIdx (fillTouch D text textOffset rev.reverse)).flatten

/-- The successors of entry `b` of the table: those of a block, and block 0 twice in the zeroed
entries behind `nblocks`. -/
def tableSuccs (blocks : List Block) (b : ℕ) : List ℕ :=
  if b < blocks.length then succsOf blocks b else [0, 0]

def rpoVisitTrace (blocks : List Block) : ℕ → ℕ → List ℕ × List ℕ → List Access
  | 0, _, _ => []
  | fuel + 1, b, s =>
    ⟨.visited, b, cfgMaxBlocks⟩ ::
      if b ∈ s.1 then []
      else blockTouch b ::
        Lib.loopTrace (fun s n => Lib.dfsVisit (tableSuccs blocks) fuel n s)
            (fun s n => rpoVisitTrace blocks fuel n s) (b :: s.1, s.2) (tableSuccs blocks b) ++
          [⟨.post, ((tableSuccs blocks b).foldl (fun s n => Lib.dfsVisit (tableSuccs blocks) fuel n s)
            (b :: s.1, s.2)).2.length, cfgMaxBlocks⟩]

/-- The loop that copies `post` into `rpo` from behind. -/
def rpoFillTrace (count : ℕ) : List Access :=
  (List.range count).map (fun i : ℕ => ⟨.rpo, i, cfgMaxBlocks⟩) ++
    (List.range count).map fun i : ℕ => ⟨.post, i, cfgMaxBlocks⟩

def computeRpoTrace (blocks : List Block) : List Access :=
  rpoVisitTrace blocks (blocks.length + 2) 0 ([], []) ++ rpoFillTrace (cfgComputeRpo blocks).length

/-- The three loop heads of `cfg_intersect`. -/
inductive Climbing where
  | outer | left | right
  deriving DecidableEq, Repr

def idomAt (idom : ℕ → Option ℕ) (b : ℤ) : ℤ :=
  match idom b.toNat with
  | none => -1
  | some d => d

def intersectTrace (rpoOf : ℕ → ℕ) (idom : ℕ → Option ℕ) : ℕ → Climbing → ℤ → ℤ → List Access
  | 0, _, _, _ => []
  | fuel + 1, .outer, b1, b2 => if b1 = b2 then [] else intersectTrace rpoOf idom fuel .left b1 b2
  | fuel + 1, .left, b1, b2 =>
    ⟨.rpoOf, b1, cfgMaxBlocks⟩ :: ⟨.rpoOf, b2, cfgMaxBlocks⟩ ::
      if rpoOf b1.toNat > rpoOf b2.toNat then
        ⟨.blocks, b1, cfgMaxBlocks⟩ :: intersectTrace rpoOf idom fuel .left (idomAt idom b1) b2
      else intersectTrace rpoOf idom fuel .right b1 b2
  | fuel + 1, .right, b1, b2 =>
    ⟨.rpoOf, b2, cfgMaxBlocks⟩ :: ⟨.rpoOf, b1, cfgMaxBlocks⟩ ::
      if rpoOf b2.toNat > rpoOf b1.toNat then
        ⟨.blocks, b2, cfgMaxBlocks⟩ :: intersectTrace rpoOf idom fuel .right b1 (idomAt idom b2)
      else intersectTrace rpoOf idom fuel .outer b1 b2

/-- What the loop over the predecessors of `b` does with the edge from `j` to `s`. -/
def meetStep (blocks : List Block) (rpoOf : ℕ → ℕ) (idom : ℕ → Option ℕ) (b j : ℕ)
    (acc : Option ℕ) (s : ℕ) : Option ℕ :=
  if s ≠ b then acc
  else if idom j = none then acc
  else match acc with
    | none => some j
    | some d => some (cfgIntersect rpoOf idom (2 * blocks.length) j d)

def meetTouch (rpoOf : ℕ → ℕ) (idom : ℕ → Option ℕ) (fuel b j : ℕ) (acc : Option ℕ) (s : ℕ) :
    List Access :=
  if s ≠ b then []
  else if idom j = none then []
  else match acc with
    | none => []
    | some d => intersectTrace rpoOf idom fuel .outer j d

def newIdomTrace (blocks : List Block) (rpoOf : ℕ → ℕ) (idom : ℕ → Option ℕ) (fuel b : ℕ) :
    List Access :=
  Lib.loopTrace (fun acc j => (succsOf blocks j).foldl (meetStep blocks rpoOf idom b j) acc)
    (fun acc j => blockTouch j :: Lib.loopTrace (meetStep blocks rpoOf idom b j)
      (meetTouch rpoOf idom fuel b j) acc (succsOf blocks j)) none (List.range blocks.length)

def idomUpdateTouch (blocks : List Block) (rpoOf : ℕ → ℕ) (fuel : ℕ) (idom : ℕ → Option ℕ) (b : ℕ) :
    List Access :=
  newIdomTrace blocks rpoOf idom fuel b ++
    if newIdom blocks rpoOf idom b = none then [] else [blockTouch b]

def idomPassTrace (blocks : List Block) (rpo : List ℕ) (fuel : ℕ) (idom : ℕ → Option ℕ) : List Access :=
  (List.range rpo.length).map (fun i : ℕ => ⟨.rpo, i, cfgMaxBlocks⟩) ++
    Lib.loopTrace (idomUpdate blocks rpo.idxOf) (idomUpdateTouch blocks rpo.idxOf fuel) idom rpo.tail

def idomLoopTrace (blocks : List Block) (rpo : List ℕ) : ℕ → (ℕ → Option ℕ) → List Access
  | 0, _ => []
  | fuel + 1, idom =>
    idomPassTrace blocks rpo fuel idom ++
      if rpo.all fun b => idomPass blocks rpo idom b = idom b then []
      else idomLoopTrace blocks rpo fuel (idomPass blocks rpo idom)

def computeDominatorsTrace (blocks : List Block) (rpo : List ℕ) (fuel : ℕ) : List Access :=
  (List.range blocks.length).map (fun i : ℕ => blockTouch i) ++
    (List.range rpo.length).map (fun i : ℕ => ⟨.rpo, i, cfgMaxBlocks⟩) ++
    rpo.map (fun b : ℕ => ⟨.rpoOf, b, cfgMaxBlocks⟩) ++ blockTouch 0 ::
    idomLoopTrace blocks rpo fuel (Function.update (fun _ => none) 0 (some 0))

def dominatesTrace (idom : ℕ → Option ℕ) (dom : ℕ) : ℕ → ℕ → List Access
  | 0, _ => []
  | fuel + 1, b =>
    if b = dom then []
    else blockTouch b :: match idom b with
      | none => []
      | some d => if d = b then [] else dominatesTrace idom dom fuel d

/-- `cfg_find_back_edges` for the edge from `i` to `t`, after `count` back edges. -/
def backEdgeStep (blocks : List Block) (idom : ℕ → Option ℕ) (i count t : ℕ) : Except String ℕ :=
  if cfgDominates idom t (blocks.length + 1) i then
    if count ≥ cfgMaxEdges then .error "too many back edges" else .ok (count + 1)
  else .ok count

def backEdgeTouch (blocks : List Block) (idom : ℕ → Option ℕ) (fuel i count t : ℕ) : List Access :=
  dominatesTrace idom t fuel i ++
    if cfgDominates idom t (blocks.length + 1) i ∧ count < cfgMaxEdges then
      [⟨.backEdges, count, cfgMaxEdges⟩]
    else []

def findBackEdgesTrace (blocks : List Block) (idom : ℕ → Option ℕ) (fuel : ℕ) : List Access :=
  Lib.foldTrace (fun count i => (succsOf blocks i).foldlM (backEdgeStep blocks idom i) count)
    (fun count i => blockTouch i :: Lib.foldTrace (backEdgeStep blocks idom i)
      (backEdgeTouch blocks idom fuel i) count (succsOf blocks i)) 0 (List.range blocks.length)

def finishTrace (blocks : List Block) (rpo : List ℕ) (fuel : ℕ) : List Access :=
  computeDominatorsTrace blocks rpo fuel ++
    findBackEdgesTrace blocks (cfgComputeDominators blocks rpo) fuel

def cfgBuildTrace (fuel : ℕ) : List Access :=
  if text.length % 4 ≠ 0 then []
  else if text.length / 4 > cfgMaxInsns then []
  else findLeadersTrace D text (leaderStep D text) ++ match cfgFindLeaders D text with
    | .error _ => []
    | .ok leader => buildBlocksTrace D text textOffset leader ++
      match cfgBuildBlocks D text textOffset leader with
      | .error _ => []
      | .ok blocks => computeRpoTrace blocks ++ finishTrace blocks (cfgComputeRpo blocks) fuel

end Traces

section Leaders

variable {D : Decoder} {text : Text} {textOffset : BitVec 32}

theorem wordReads_inRange {off : ℕ} (h : off + 4 ≤ text.length) : AllInRange (wordReads text off) := by
  intro a ha
  obtain ⟨k, hk, rfl⟩ := List.mem_map.mp ha
  rw [List.mem_range] at hk
  exact inRange_natCast.mpr (by omega)

theorem leaderTouch_inRange {idx : ℕ} (h : idx ≤ cfgMaxInsns) : (leaderTouch idx).InRange := by
  apply inRange_natCast.mpr
  have := Nat.div_le_div_right (c := 8) h
  omega

theorem blockTouch_inRange {i : ℕ} (h : i < cfgMaxBlocks) : (blockTouch i).InRange :=
  inRange_natCast.mpr h

theorem leaderNextTouch_inRange (hcap : text.length / 4 ≤ cfgMaxInsns) (off : ℕ) :
    AllInRange (leaderNextTouch text off) := by
  unfold leaderNextTouch
  split
  · rw [allInRange_cons]
    exact ⟨leaderTouch_inRange (by omega), allInRange_nil⟩
  · exact allInRange_nil

theorem leaderJumpTouch_inRange (hcap : text.length / 4 ≤ cfgMaxInsns) (off : ℕ) (insn : Insn) :
    AllInRange (leaderJumpTouch text off insn) := by
  simp only [leaderJumpTouch]
  split
  · exact allInRange_nil
  · rw [allInRange_cons]
    exact ⟨leaderTouch_inRange (by omega), leaderNextTouch_inRange hcap off⟩

theorem leaderStepTouch_inRange (hcap : text.length / 4 ≤ cfgMaxInsns) {i : ℕ}
    (hi : i < text.length / 4) : AllInRange (leaderStepTouch D text i) := by
  unfold leaderStepTouch
  rw [allInRange_append]
  refine ⟨wordReads_inRange (by omega), ?_⟩
  split
  · exact allInRange_nil
  · split
    · exact leaderJumpTouch_inRange hcap _ _
    · exact leaderJumpTouch_inRange hcap _ _
    · exact leaderNextTouch_inRange hcap _
    · exact allInRange_nil

theorem findLeadersTrace_inRange (hcap : text.length / 4 ≤ cfgMaxInsns)
    (step : LeaderMap → ℕ → Except String LeaderMap) : AllInRange (findLeadersTrace D text step) := by
  unfold findLeadersTrace
  rw [allInRange_cons]
  refine ⟨leaderTouch_inRange (Nat.zero_le _), ?_⟩
  apply allInRange_foldTrace fun l _ => ∀ i ∈ l, i < text.length / 4
  · exact fun i hi => List.mem_range.mp hi
  · exact fun i l _ _ h _ j hj => h j (List.mem_cons_of_mem i hj)
  · exact fun i l _ h => leaderStepTouch_inRange hcap (h i List.mem_cons_self)

end Leaders

section Blocks

variable {D : Decoder} {text : Text} {textOffset : BitVec 32} {leader : LeaderMap}

theorem blockStep_length_le {blocks blocks' : List Block} {i : ℕ} (h : blocks.length ≤ cfgMaxBlocks)
    (hs : blockStep D text textOffset leader blocks i = .ok blocks') : blocks'.length ≤ cfgMaxBlocks := by
  cases hl : leader i with
  | false =>
    obtain ⟨b, rest, rfl, rfl⟩ := blockStep_inner hl hs
    exact h
  | true =>
    have hroom : ¬ blocks.length ≥ cfgMaxBlocks := by
      intro hfull
      rw [blockStep, if_pos ⟨hl, hfull⟩] at hs
      cases hs
    rw [blockStep_leader hl hs, List.length_cons]
    omega

theorem blockStepTouch_inRange (hcap : text.length / 4 ≤ cfgMaxInsns) {blocks : List Block} {i : ℕ}
    (hlen : blocks.length ≤ cfgMaxBlocks) (hi : i < text.length / 4) :
    AllInRange (blockStepTouch text leader blocks i) := by
  unfold blockStepTouch
  rw [allInRange_append, allInRange_cons]
  refine ⟨wordReads_inRange (by omega), leaderTouch_inRange (by omega), ?_⟩
  split
  · split
    · exact allInRange_nil
    · rw [allInRange_cons]
      exact ⟨blockTouch_inRange (by omega), allInRange_nil⟩
  · split
    · exact allInRange_nil
    · rename_i hne
      have hpos := List.length_pos_iff.mpr hne
      rw [allInRange_cons]
      exact ⟨blockTouch_inRange (by omega), allInRange_nil⟩

theorem blockAtTouch_inRange {blocks : List Block} (hlen : blocks.length ≤ cfgMaxBlocks)
    (pc : BitVec 32) : AllInRange (blockAtTouch blocks pc) := by
  apply allInRange_map_range
  cases h : cfgBlockAt blocks pc with
  | none => exact hlen
  | some i =>
    have hi := (List.findIdx?_eq_some_iff_getElem.mp h).1
    change i + 1 ≤ cfgMaxBlocks
    omega

theorem fillTouch_inRange {blocks : List Block} (hlen : blocks.length ≤ cfgMaxBlocks) {i : ℕ}
    {b : Block} (hi : i < blocks.length) (hend : (b.endPc - textOffset).toNat + 4 ≤ text.length) :
    AllInRange (fillTouch D text textOffset blocks i b) := by
  unfold fillTouch
  rw [allInRange_append, allInRange_cons]
  refine ⟨⟨blockTouch_inRange (by omega), wordReads_inRange hend⟩, ?_⟩
  split
  · exact allInRange_nil
  split
  · rw [allInRange_append]
    constructor
    · split
      · exact blockAtTouch_inRange hlen _
      · exact allInRange_nil
    · split
      · exact blockAtTouch_inRange hlen _
      · exact allInRange_nil
  split
  · rw [allInRange_cons]
    exact ⟨blockTouch_inRange (by omega), allInRange_nil⟩
  · exact allInRange_nil

theorem blockPass_length_le {rev : List Block}
    (h : (List.range (text.length / 4)).foldlM (blockStep D text textOffset leader) [] = .ok rev) :
    rev.length ≤ cfgMaxBlocks := by
  refine Lib.foldlM_range_inv (fun _ rev => rev.length ≤ cfgMaxBlocks) (Nat.zero_le _) ?_ h
  exact fun _ _ _ _ hlen hs => blockStep_length_le hlen hs

theorem buildBlocksTrace_inRange (hsize : text.length % 4 = 0)
    (hcap : text.length / 4 ≤ cfgMaxInsns) (hleader : cfgFindLeaders D text = .ok leader) :
    AllInRange (buildBlocksTrace D text textOffset leader) := by
  unfold buildBlocksTrace
  rw [allInRange_append]
  constructor
  · apply allInRange_foldTrace fun l (blocks : List Block) =>
      blocks.length ≤ cfgMaxBlocks ∧ ∀ i ∈ l, i < text.length / 4
    · exact ⟨Nat.zero_le _, fun i hi => List.mem_range.mp hi⟩
    · rintro i l blocks blocks' ⟨hlen, hl⟩ hs
      exact ⟨blockStep_length_le hlen hs, fun j hj => hl j (List.mem_cons_of_mem i hj)⟩
    · rintro i l blocks ⟨hlen, hl⟩
      exact blockStepTouch_inRange hcap hlen (hl i List.mem_cons_self)
  · cases hrev : (List.range (text.length / 4)).foldlM (blockStep D text textOffset leader) [] with
    | error e => exact allInRange_nil
    | ok rev =>
      obtain ⟨bound, hbuilt⟩ := blockPass_built hsize hcap hleader hrev
      intro a ha
      obtain ⟨l, hl, ha⟩ := List.mem_flatten.mp ha
      obtain ⟨i, hi, rfl⟩ := List.mem_mapIdx.mp hl
      obtain ⟨hpos, hle, -⟩ := hbuilt.last_lt hi
      have hget := hbuilt.layout.get i hi
      rw [List.getElem?_eq_getElem hi, Option.some.injEq] at hget
      have h32 : 4 * (bound (i + 1) - 1) < 2 ^ 32 := hbuilt.four_mul_lt (by omega)
      have hend : (rev.reverse[i].endPc - textOffset).toNat + 4 ≤ text.length := by
        rw [hget, segBlock_endPc, pcAt_sub, BitVec.toNat_ofNat, Nat.mod_eq_of_lt h32]
        omega
      have hlen : rev.reverse.length ≤ cfgMaxBlocks := by
        rw [List.length_reverse]
        exact blockPass_length_le hrev
      exact fillTouch_inRange hlen hi hend a ha

end Blocks

/-- What the passes over finished blocks rely on: the table is not empty, fits its array, and
its successors lie in it. -/
structure Wired (blocks : List Block) : Prop where
  pos : 0 < blocks.length
  fits : blocks.length ≤ cfgMaxBlocks
  closed : ∀ a < blocks.length, ∀ b ∈ succsOf blocks a, b < blocks.length

section Order

variable {blocks : List Block}

theorem Wired.tableSuccs_closed (h : Wired blocks) :
    ∀ a ∈ List.range blocks.length, ∀ b ∈ tableSuccs blocks a, b ∈ List.range blocks.length := by
  intro a ha b hb
  rw [List.mem_range] at ha ⊢
  rw [tableSuccs, if_pos ha] at hb
  exact h.closed a ha b hb

/-- In the middle of the successors of `b`: `b` has been visited and not finished. -/
structure Visiting (blocks : List Block) (fuel b : ℕ) (l : List ℕ) (s : List ℕ × List ℕ) : Prop where
  state : Lib.DfsState (List.range blocks.length) s
  fuel : Lib.unvisited (List.range blocks.length) s < fuel
  succs : ∀ n ∈ l, n ∈ List.range blocks.length
  visited : b ∈ s.1
  unfinished : b ∉ s.2

theorem Visiting.step (hw : Wired blocks) {fuel b n : ℕ} {l : List ℕ} {s : List ℕ × List ℕ}
    (h : Visiting blocks fuel b (n :: l) s) :
    Visiting blocks fuel b l (Lib.dfsVisit (tableSuccs blocks) fuel n s) := by
  obtain ⟨hstate, hmono, hfresh⟩ :=
    h.state.dfsVisit hw.tableSuccs_closed (h.succs n List.mem_cons_self) h.fuel
  exact ⟨hstate, (Lib.unvisited_le _ hmono).trans_lt h.fuel,
    fun m hm => h.succs m (List.mem_cons_of_mem n hm), hmono b h.visited,
    hfresh b h.visited h.unfinished⟩

theorem rpoVisitTrace_inRange (hw : Wired blocks) (fuel : ℕ) {b : ℕ} {s : List ℕ × List ℕ}
    (hs : Lib.DfsState (List.range blocks.length) s) (hb : b ∈ List.range blocks.length)
    (hfuel : Lib.unvisited (List.range blocks.length) s < fuel) :
    AllInRange (rpoVisitTrace blocks fuel b s) := by
  induction fuel generalizing b s with
  | zero => exact allInRange_nil
  | succ fuel ih =>
    have hlt : b < cfgMaxBlocks := (List.mem_range.mp hb).trans_le hw.fits
    rw [rpoVisitTrace, allInRange_cons]
    refine ⟨inRange_natCast.mpr hlt, ?_⟩
    split
    · exact allInRange_nil
    rename_i hfresh
    have hstart : Visiting blocks fuel b (tableSuccs blocks b) (b :: s.1, s.2) := by
      have hless := Lib.unvisited_lt hb hfresh s.2
      exact ⟨⟨hs.nodup, fun v hv => List.mem_cons_of_mem b (hs.visited hv),
        List.cons_subset.mpr ⟨hb, hs.mem⟩⟩, by omega, hw.tableSuccs_closed b hb,
        List.mem_cons_self, fun hmem => hfresh (hs.visited hmem)⟩
    rw [allInRange_append, allInRange_cons, allInRange_cons]
    refine ⟨⟨blockTouch_inRange hlt, ?_⟩, inRange_natCast.mpr ?_, allInRange_nil⟩
    · apply allInRange_loopTrace (Visiting blocks fuel b) hstart
      · exact fun n l s h => h.step hw
      · exact fun n l s h => ih h.state (h.succs n List.mem_cons_self) h.fuel
    · have hend := Lib.foldl_inv (Visiting blocks fuel b) (fun n l s h => h.step hw) hstart
      have hroom := hend.state.length_lt hend.visited hend.unfinished
      rw [List.length_range] at hroom
      exact hroom.trans_le hw.fits

theorem rpoFillTrace_inRange {count : ℕ} (h : count ≤ cfgMaxBlocks) : AllInRange (rpoFillTrace count) := by
  unfold rpoFillTrace
  rw [allInRange_append]
  exact ⟨allInRange_map_range h, allInRange_map_range h⟩

theorem RpoFacts.length_le {rpo : List ℕ} (h : RpoFacts blocks rpo) : rpo.length ≤ blocks.length := by
  have hsub : rpo ⊆ List.range blocks.length := fun v hv =>
    List.mem_range.mpr (h.lt v ((h.mem_iff v).mp hv))
  have hlen := (h.nodup.subperm hsub).length_le
  rwa [List.length_range] at hlen

theorem computeRpoTrace_inRange (hw : Wired blocks) : AllInRange (computeRpoTrace blocks) := by
  have hfacts := rpoFacts_of_closed hw.pos hw.closed
  unfold computeRpoTrace
  rw [allInRange_append]
  constructor
  · apply rpoVisitTrace_inRange hw
    · exact ⟨List.nodup_nil, List.nil_subset _, List.nil_subset _⟩
    · exact List.mem_range.mpr hw.pos
    · have hle : Lib.unvisited (List.range blocks.length) ([], []) ≤ (List.range blocks.length).length :=
        List.length_filter_le _ _
      rw [List.length_range] at hle
      omega
  · exact rpoFillTrace_inRange (hfacts.length_le.trans hw.fits)

end Order

section Links

variable {blocks : List Block} {rpoOf : ℕ → ℕ} {idom : ℕ → Option ℕ}

/-- The links of `idom` join blocks of the table that have a link themselves. -/
structure Linked (n : ℕ) (idom : ℕ → Option ℕ) : Prop where
  lt : ∀ v d, idom v = some d → v < n
  next : ∀ v d, idom v = some d → ∃ d', idom d = some d'

theorem linked_init {n : ℕ} (hn : 0 < n) : Linked n (Function.update (fun _ => none) 0 (some 0)) := by
  have hcase : ∀ v d, Function.update (fun _ : ℕ => (none : Option ℕ)) 0 (some 0) v = some d →
      v = 0 ∧ d = 0 := by
    intro v d hv
    rw [Function.update_apply] at hv
    split at hv
    · rename_i h0
      exact ⟨h0, (Option.some.inj hv).symm⟩
    · cases hv
  constructor
  · intro v d hv
    rw [(hcase v d hv).1]
    exact hn
  · intro v d hv
    rw [(hcase v d hv).2]
    exact ⟨0, Function.update_self ..⟩

theorem idomAt_natCast {b d : ℕ} (h : idom b = some d) : idomAt idom b = d := by
  simp [idomAt, h]

/-- `cfg_intersect` from two linked blocks reads linked blocks only. -/
theorem intersectTrace_inRange {n : ℕ} (hn : n ≤ cfgMaxBlocks) (h : Linked n idom) (fuel : ℕ)
    (c : Climbing) {b1 b2 d1 d2 : ℕ} (h1 : idom b1 = some d1) (h2 : idom b2 = some d2) :
    AllInRange (intersectTrace rpoOf idom fuel c b1 b2) := by
  have hlt : ∀ {v d : ℕ}, idom v = some d → v < cfgMaxBlocks := fun hv => (h.lt _ _ hv).trans_le hn
  induction fuel generalizing c b1 b2 d1 d2 with
  | zero => exact allInRange_nil
  | succ fuel ih =>
    cases c with
    | outer =>
      rw [intersectTrace]
      split
      · exact allInRange_nil
      · exact ih .left h1 h2
    | left =>
      rw [intersectTrace, allInRange_cons, allInRange_cons]
      refine ⟨inRange_natCast.mpr (hlt h1), inRange_natCast.mpr (hlt h2), ?_⟩
      split
      · obtain ⟨d1', hd1⟩ := h.next _ _ h1
        rw [allInRange_cons, idomAt_natCast h1]
        exact ⟨inRange_natCast.mpr (hlt h1), ih .left hd1 h2⟩
      · exact ih .right h1 h2
    | right =>
      rw [intersectTrace, allInRange_cons, allInRange_cons]
      refine ⟨inRange_natCast.mpr (hlt h2), inRange_natCast.mpr (hlt h1), ?_⟩
      split
      · obtain ⟨d2', hd2⟩ := h.next _ _ h2
        rw [allInRange_cons, idomAt_natCast h2]
        exact ⟨inRange_natCast.mpr (hlt h2), ih .right h1 hd2⟩
      · exact ih .outer h1 h2

theorem cfgIntersect_linked {n : ℕ} (h : Linked n idom) (fuel : ℕ) {b1 b2 : ℕ}
    (h1 : ∃ d, idom b1 = some d) (h2 : ∃ d, idom b2 = some d) :
    ∃ d, idom (cfgIntersect rpoOf idom fuel b1 b2) = some d := by
  induction fuel generalizing b1 b2 with
  | zero => exact h1
  | succ fuel ih =>
    obtain ⟨d1, hd1⟩ := h1
    obtain ⟨d2, hd2⟩ := h2
    rw [cfgIntersect]
    split
    · exact ⟨d1, hd1⟩
    split
    · rw [hd1, Option.getD_some]
      exact ih (h.next _ _ hd1) ⟨d2, hd2⟩
    · rw [hd2, Option.getD_some]
      exact ih ⟨d1, hd1⟩ (h.next _ _ hd2)

/-- The candidate that the predecessor loop carries is linked. -/
def Candidate (idom : ℕ → Option ℕ) (acc : Option ℕ) : Prop :=
  ∀ d, acc = some d → ∃ d', idom d = some d'

theorem meetStep_candidate {n : ℕ} (h : Linked n idom) {b j : ℕ} {acc : Option ℕ}
    (hacc : Candidate idom acc) (s : ℕ) : Candidate idom (meetStep blocks rpoOf idom b j acc s) := by
  unfold meetStep
  split
  · exact hacc
  split
  · exact hacc
  rename_i hj
  have hj' := Option.ne_none_iff_exists'.mp hj
  intro d hd
  cases acc with
  | none => exact Option.some.inj hd ▸ hj'
  | some d₀ => exact Option.some.inj hd ▸ cfgIntersect_linked h _ hj' (hacc d₀ rfl)

theorem meetTouch_inRange {n : ℕ} (hn : n ≤ cfgMaxBlocks) (h : Linked n idom) {fuel b j : ℕ}
    {acc : Option ℕ} (hacc : Candidate idom acc) (s : ℕ) :
    AllInRange (meetTouch rpoOf idom fuel b j acc s) := by
  unfold meetTouch
  split
  · exact allInRange_nil
  split
  · exact allInRange_nil
  rename_i hj
  obtain ⟨d, hd⟩ := Option.ne_none_iff_exists'.mp hj
  cases acc with
  | none => exact allInRange_nil
  | some d₀ =>
    obtain ⟨d', hd'⟩ := hacc d₀ rfl
    exact intersectTrace_inRange hn h fuel .outer hd hd'

theorem foldl_meetStep_candidate {n : ℕ} (h : Linked n idom) {b j : ℕ} {acc : Option ℕ}
    (hacc : Candidate idom acc) (l : List ℕ) :
    Candidate idom (l.foldl (meetStep blocks rpoOf idom b j) acc) :=
  Lib.foldl_inv (fun _ acc => Candidate idom acc) (fun s _ _ hacc => meetStep_candidate h hacc s) hacc

theorem candidate_none : Candidate idom none := nofun

theorem newIdomTrace_inRange (hn : blocks.length ≤ cfgMaxBlocks) (h : Linked blocks.length idom)
    (fuel b : ℕ) : AllInRange (newIdomTrace blocks rpoOf idom fuel b) := by
  apply allInRange_loopTrace fun l acc => Candidate idom acc ∧ ∀ j ∈ l, j < blocks.length
  · exact ⟨candidate_none, fun j hj => List.mem_range.mp hj⟩
  · rintro j l acc ⟨hacc, hl⟩
    exact ⟨foldl_meetStep_candidate h hacc _, fun i hi => hl i (List.mem_cons_of_mem j hi)⟩
  · rintro j l acc ⟨hacc, hl⟩
    rw [allInRange_cons]
    refine ⟨blockTouch_inRange ((hl j List.mem_cons_self).trans_le hn), ?_⟩
    apply allInRange_loopTrace (fun _ acc => Candidate idom acc) hacc
    · exact fun s _ _ hacc => meetStep_candidate h hacc s
    · exact fun s _ _ hacc => meetTouch_inRange hn h hacc s

theorem newIdom_candidate (h : Linked blocks.length idom) (b : ℕ) :
    Candidate idom (newIdom blocks rpoOf idom b) := by
  apply Lib.foldl_inv (fun _ acc => Candidate idom acc) _ candidate_none
  exact fun j _ acc hacc => foldl_meetStep_candidate h hacc _

theorem Linked.idomUpdate (h : Linked blocks.length idom) {b : ℕ} (hb : b < blocks.length) :
    Linked blocks.length (idomUpdate blocks rpoOf idom b) := by
  unfold MerlinV.idomUpdate
  cases hnew : newIdom blocks rpoOf idom b with
  | none => exact h
  | some d =>
    have hd := newIdom_candidate h b d hnew
    have hsome : ∀ v, (∃ d', idom v = some d') → ∃ d', Function.update idom b (some d) v = some d' := by
      rintro v ⟨d', hv⟩
      rw [Function.update_apply]
      split
      · exact ⟨d, rfl⟩
      · exact ⟨d', hv⟩
    constructor
    · intro v d' hv
      dsimp only at hv
      rw [Function.update_apply] at hv
      split at hv
      · rename_i hvb
        rw [hvb]
        exact hb
      · exact h.lt v d' hv
    · intro v d' hv
      dsimp only at hv ⊢
      apply hsome
      rw [Function.update_apply] at hv
      split at hv
      · exact Option.some.inj hv ▸ hd
      · exact h.next v d' hv

/-- What a pass over the blocks `l` keeps. -/
def Passing (blocks : List Block) (l : List ℕ) (idom : ℕ → Option ℕ) : Prop :=
  Linked blocks.length idom ∧ ∀ b ∈ l, b < blocks.length

theorem Passing.step {b : ℕ} {l : List ℕ} (h : Passing blocks (b :: l) idom) :
    Passing blocks l (idomUpdate blocks rpoOf idom b) :=
  ⟨h.1.idomUpdate (h.2 b List.mem_cons_self), fun v hv => h.2 v (List.mem_cons_of_mem b hv)⟩

theorem idomUpdateTouch_inRange (hn : blocks.length ≤ cfgMaxBlocks) (h : Linked blocks.length idom)
    (fuel : ℕ) {b : ℕ} (hb : b < blocks.length) :
    AllInRange (idomUpdateTouch blocks rpoOf fuel idom b) := by
  unfold idomUpdateTouch
  rw [allInRange_append]
  refine ⟨newIdomTrace_inRange hn h fuel b, ?_⟩
  split
  · exact allInRange_nil
  · rw [allInRange_cons]
    exact ⟨blockTouch_inRange (hb.trans_le hn), allInRange_nil⟩

variable {rpo : List ℕ}

theorem idomPassTrace_inRange (hn : blocks.length ≤ cfgMaxBlocks) (hrpo : rpo.length ≤ cfgMaxBlocks)
    (h : Passing blocks rpo.tail idom) (fuel : ℕ) : AllInRange (idomPassTrace blocks rpo fuel idom) := by
  unfold idomPassTrace
  rw [allInRange_append]
  refine ⟨allInRange_map_range hrpo, ?_⟩
  apply allInRange_loopTrace (Passing blocks) h
  · exact fun b l idom h => h.step
  · exact fun b l idom h => idomUpdateTouch_inRange hn h.1 fuel (h.2 b List.mem_cons_self)

theorem idomLoopTrace_inRange (hn : blocks.length ≤ cfgMaxBlocks) (hrpo : rpo.length ≤ cfgMaxBlocks)
    (h : Passing blocks rpo.tail idom) (fuel : ℕ) : AllInRange (idomLoopTrace blocks rpo fuel idom) := by
  induction fuel generalizing idom with
  | zero => exact allInRange_nil
  | succ fuel ih =>
    rw [idomLoopTrace, allInRange_append]
    refine ⟨idomPassTrace_inRange hn hrpo h fuel, ?_⟩
    split
    · exact allInRange_nil
    · have hpass : Passing blocks [] (idomPass blocks rpo idom) :=
        Lib.foldl_inv (Passing blocks) (fun b l idom h => h.step) h
      exact ih ⟨hpass.1, h.2⟩

theorem linked_cfgComputeDominators (hpos : 0 < blocks.length) (hrpo : ∀ b ∈ rpo, b < blocks.length) :
    Linked blocks.length (cfgComputeDominators blocks rpo) := by
  rw [cfgComputeDominators, idomLoop_eq_iterate]
  generalize blocks.length + 2 = k
  induction k with
  | zero => exact linked_init hpos
  | succ k ih =>
    rw [Function.iterate_succ_apply']
    have hpass : Passing blocks [] (idomPass blocks rpo _) :=
      Lib.foldl_inv (Passing blocks) (fun b l idom h => h.step)
        ⟨ih, fun b hb => hrpo b (List.mem_of_mem_tail hb)⟩
    exact hpass.1

theorem computeDominatorsTrace_inRange (hpos : 0 < blocks.length) (hn : blocks.length ≤ cfgMaxBlocks)
    (hlen : rpo.length ≤ cfgMaxBlocks) (hrpo : ∀ b ∈ rpo, b < blocks.length) (fuel : ℕ) :
    AllInRange (computeDominatorsTrace blocks rpo fuel) := by
  unfold computeDominatorsTrace
  rw [allInRange_append, allInRange_append, allInRange_append, allInRange_cons]
  refine ⟨⟨⟨allInRange_map_range hn, allInRange_map_range hlen⟩, ?_⟩, ?_, ?_⟩
  · intro a ha
    obtain ⟨b, hb, rfl⟩ := List.mem_map.mp ha
    exact inRange_natCast.mpr ((hrpo b hb).trans_le hn)
  · exact blockTouch_inRange (hpos.trans_le hn)
  · exact idomLoopTrace_inRange hn hlen
      ⟨linked_init hpos, fun b hb => hrpo b (List.mem_of_mem_tail hb)⟩ fuel

theorem dominatesTrace_inRange {n : ℕ} (hn : n ≤ cfgMaxBlocks) (h : Linked n idom) (dom fuel : ℕ)
    {b : ℕ} (hb : b < n) : AllInRange (dominatesTrace idom dom fuel b) := by
  induction fuel generalizing b with
  | zero => exact allInRange_nil
  | succ fuel ih =>
    rw [dominatesTrace]
    split
    · exact allInRange_nil
    rw [allInRange_cons]
    refine ⟨blockTouch_inRange (hb.trans_le hn), ?_⟩
    cases hd : idom b with
    | none => exact allInRange_nil
    | some d =>
      dsimp only
      split
      · exact allInRange_nil
      · obtain ⟨d', hd'⟩ := h.next b d hd
        exact ih (h.lt d d' hd')

theorem findBackEdgesTrace_inRange (hn : blocks.length ≤ cfgMaxBlocks) (h : Linked blocks.length idom)
    (fuel : ℕ) : AllInRange (findBackEdgesTrace blocks idom fuel) := by
  apply allInRange_foldTrace fun l _ => ∀ i ∈ l, i < blocks.length
  · exact fun i hi => List.mem_range.mp hi
  · exact fun i l _ _ hl _ j hj => hl j (List.mem_cons_of_mem i hj)
  · intro i l count hl
    have hi := hl i List.mem_cons_self
    rw [allInRange_cons]
    refine ⟨blockTouch_inRange (hi.trans_le hn), ?_⟩
    apply allInRange_foldTrace (fun _ _ => True) trivial
    · exact fun _ _ _ _ _ _ => trivial
    · intro t _ count _
      unfold backEdgeTouch
      rw [allInRange_append]
      refine ⟨dominatesTrace_inRange hn h t fuel hi, ?_⟩
      split
      · rename_i hroom
        rw [allInRange_cons]
        exact ⟨inRange_natCast.mpr hroom.2, allInRange_nil⟩
      · exact allInRange_nil

/-- The passes after the reverse postorder, for any list of blocks in its place. -/
theorem finishTrace_inRange (hw : Wired blocks) (hlen : rpo.length ≤ cfgMaxBlocks)
    (hrpo : ∀ b ∈ rpo, b < blocks.length) (fuel : ℕ) : AllInRange (finishTrace blocks rpo fuel) := by
  unfold finishTrace
  rw [allInRange_append]
  exact ⟨computeDominatorsTrace_inRange hw.pos hw.fits hlen hrpo fuel,
    findBackEdgesTrace_inRange hw.fits (linked_cfgComputeDominators hw.pos hrpo) fuel⟩

end Links

section Build

variable {D : Decoder} {text : Text} {textOffset : BitVec 32}

theorem wired_cfgBuildBlocks {leader : LeaderMap} {blocks : List Block} (hne : text ≠ [])
    (hsize : text.length % 4 = 0) (hcap : text.length / 4 ≤ cfgMaxInsns)
    (hleader : cfgFindLeaders D text = .ok leader)
    (hb : cfgBuildBlocks D text textOffset leader = .ok blocks) : Wired blocks := by
  obtain ⟨hpos, hclosed⟩ := cfgBuildBlocks_closed hne hsize hcap hleader hb
  simp only [cfgBuildBlocks, Lib.bind_eq_ok, pure, Except.pure, Except.ok.injEq] at hb
  obtain ⟨rev, hrev, rfl⟩ := hb
  refine ⟨hpos, ?_, hclosed⟩
  rw [List.length_mapIdx, List.length_reverse]
  exact blockPass_length_le hrev

theorem merlinCfgBuild_fits {G : Cfg} (h : merlinCfgBuild D text textOffset = .ok G) :
    G.blocks.length ≤ cfgMaxBlocks := by
  obtain ⟨-, -, leader, rev, -, hrev, hfinish⟩ := merlinCfgBuild_eq_ok.mp h
  obtain rfl := cfgFinish_eq_ok hfinish
  change (rev.reverse.mapIdx (fillSuccs D text textOffset rev.reverse)).length ≤ cfgMaxBlocks
  rw [List.length_mapIdx, List.length_reverse]
  exact blockPass_length_le hrev

theorem merlinCfgBuild_pos {G : Cfg} (hne : text ≠ []) (h : merlinCfgBuild D text textOffset = .ok G) :
    0 < G.blocks.length := by
  obtain ⟨leader, raw, bound, hbuilt⟩ := merlinCfgBuild_built h
  exact hbuilt.nblocks_pos hne

/-- Every access of the builder to a text that is not empty is in range. -/
theorem cfgBuildTrace_inRange (hne : text ≠ []) (fuel : ℕ) :
    AllInRange (cfgBuildTrace D text textOffset fuel) := by
  unfold cfgBuildTrace
  split
  · exact allInRange_nil
  rename_i hsize
  rw [not_not] at hsize
  split
  · exact allInRange_nil
  rename_i hcap
  rw [not_lt] at hcap
  rw [allInRange_append]
  refine ⟨findLeadersTrace_inRange hcap _, ?_⟩
  cases hleader : cfgFindLeaders D text with
  | error e => exact allInRange_nil
  | ok leader =>
    dsimp only
    rw [allInRange_append]
    refine ⟨buildBlocksTrace_inRange hsize hcap hleader, ?_⟩
    cases hb : cfgBuildBlocks D text textOffset leader with
    | error e => exact allInRange_nil
    | ok blocks =>
      have hw := wired_cfgBuildBlocks hne hsize hcap hleader hb
      have hfacts := rpoFacts_of_closed hw.pos hw.closed
      dsimp only
      rw [allInRange_append]
      refine ⟨computeRpoTrace_inRange hw, finishTrace_inRange hw ?_ ?_ fuel⟩
      · exact hfacts.length_le.trans hw.fits
      · exact fun b hb => hfacts.lt b ((hfacts.mem_iff b).mp hb)

end Build

end MerlinV
