import MerlinV.Isa.Decode
import MerlinV.Lib.DepthFirst

/-! # The control-flow graph builder

`tools/merlin-verifier/cfg.c`: the leader pass, the block pass with its successor
wiring, reverse postorder, the iterative dominators and the back edges.  A missing
index (`-1` in the source) is `none`, and `succ_pc` keeps the source's convention that
the program counter `0` stands for "no successor".  The loops that C runs to
completion carry fuel here; that the fuel suffices is proved with the dominators.
-/
namespace MerlinV

abbrev Text := List (BitVec 8)

def textWord (text : Text) (off : ℕ) : BitVec 32 :=
  (text.getD off 0).setWidth 32 ||| ((text.getD (off + 1) 0).setWidth 32 <<< 8) |||
    ((text.getD (off + 2) 0).setWidth 32 <<< 16) ||| ((text.getD (off + 3) 0).setWidth 32 <<< 24)

def ofWords (ws : List (BitVec 32)) : Text :=
  ws.flatMap fun w => [w.extractLsb' 0 8, w.extractLsb' 8 8, w.extractLsb' 16 8, w.extractLsb' 24 8]

def cfgMaxBlocks : ℕ := 4096
def cfgMaxEdges : ℕ := cfgMaxBlocks * 2
def cfgMaxInsns : ℕ := cfgMaxBlocks * 16

/-- `struct merlin_block`; `reachable` and `idom` are kept by `Cfg`. -/
structure Block where
  startPc : BitVec 32
  endPc : BitVec 32
  insnCount : ℕ := 0
  succ0 : Option ℕ := none
  succ1 : Option ℕ := none
  succPc0 : BitVec 32 := 0
  succPc1 : BitVec 32 := 0
  isReturn : Bool := false
  deriving DecidableEq, Repr

/-- `struct merlin_cfg` after a successful build. -/
structure Cfg where
  blocks : List Block
  rpo : List ℕ
  idom : ℕ → Option ℕ
  backEdges : List (ℕ × ℕ)

def Cfg.nblocks (G : Cfg) : ℕ := G.blocks.length

section Leaders

variable (D : Decoder) (text : Text)

def cfgInsn (off : ℕ) : Option Insn := D.decode (textWord text off) (BitVec.ofNat 32 off)

def jumpTarget (off : ℕ) (insn : Insn) : ℤ := off + insn.imm.toInt

abbrev LeaderMap := ℕ → Bool

def leaderSet (bm : LeaderMap) (idx : ℕ) : LeaderMap := Function.update bm idx true

def leaderSetNext (off : ℕ) (bm : LeaderMap) : LeaderMap :=
  if off + 4 < text.length then leaderSet bm ((off + 4) / 4) else bm

def leaderSetJump (off : ℕ) (insn : Insn) (reason : String) (bm : LeaderMap) :
    Except String LeaderMap :=
  let tgt := jumpTarget off insn
  if tgt < 0 ∨ tgt.toNat ≥ text.length then .error reason
  else .ok (leaderSetNext text off (leaderSet bm (tgt.toNat / 4)))

def leaderStep (bm : LeaderMap) (i : ℕ) : Except String LeaderMap :=
  match cfgInsn D text (4 * i) with
  | none => .ok bm
  | some insn =>
    match insn.cls with
    | .branch => leaderSetJump text (4 * i) insn "branch target outside .text" bm
    | .jal => leaderSetJump text (4 * i) insn "JAL target outside .text" bm
    | .jalr => .ok (leaderSetNext text (4 * i) bm)
    | _ => .ok bm

def cfgFindLeaders : Except String LeaderMap :=
  (List.range (text.length / 4)).foldlM (leaderStep D text) (leaderSet (fun _ => false) 0)

end Leaders

section Blocks

variable (D : Decoder) (text : Text) (textOffset : BitVec 32)

def pcAt (off : ℕ) : BitVec 32 := textOffset + BitVec.ofNat 32 off

def pcAtInt (off : ℤ) : BitVec 32 := textOffset + BitVec.ofInt 32 off

def wireSuccs (off : ℕ) (b : Block) : Option Insn → Block
  | none => b
  | some insn =>
    match insn.cls with
    | .branch => { b with
        succPc0 := pcAt textOffset (off + 4), succPc1 := pcAtInt textOffset (jumpTarget off insn) }
    | .jal =>
      let b := { b with succPc0 := pcAtInt textOffset (jumpTarget off insn) }
      if insn.rd ≠ 0 ∧ off + 4 < text.length then { b with succPc1 := pcAt textOffset (off + 4) }
      else b
    | .jalr => { b with isReturn := true }
    | _ => b

/-- The first loop of `cfg_build_blocks` for instruction `i`; the current block is the head of
the list, so `blocks[]` is built in reverse. -/
def blockStep (leader : LeaderMap) (blocks : List Block) (i : ℕ) : Except String (List Block) :=
  let off := 4 * i
  let opened := if leader i then ⟨pcAt textOffset off, pcAt textOffset off, 0, none, none, 0, 0,
    false⟩ :: blocks else blocks
  if leader i ∧ blocks.length ≥ cfgMaxBlocks then .error "CFG exceeds MAX_BLOCKS"
  else match opened with
    | [] => .error "no leader at .text start"
    | b :: rest => .ok (wireSuccs text textOffset off
        { b with endPc := pcAt textOffset off, insnCount := b.insnCount + 1 }
        (cfgInsn D text off) :: rest)

def cfgBlockAt (blocks : List Block) (pc : BitVec 32) : Option ℕ :=
  blocks.findIdx? fun b => b.startPc == pc

def terminator (b : Block) : Option Insn := cfgInsn D text (b.endPc - textOffset).toNat

def Insn.isCtrl (insn : Insn) : Bool :=
  insn.cls = .branch || insn.cls = .jal || insn.cls = .jalr

def fillSuccs (blocks : List Block) (i : ℕ) (b : Block) : Block :=
  if b.isReturn then { b with succ0 := none, succ1 := none }
  else if (terminator D text textOffset b).any Insn.isCtrl then
    { b with
      succ0 := if b.succPc0 ≠ 0 then cfgBlockAt blocks b.succPc0 else b.succ0
      succ1 := if b.succPc1 ≠ 0 then cfgBlockAt blocks b.succPc1 else b.succ1 }
  else match blocks[i + 1]? with
    | some next => { b with succ0 := some (i + 1), succPc0 := next.startPc }
    | none => b

def cfgBuildBlocks (leader : LeaderMap) : Except String (List Block) := do
  let rev ← (List.range (text.length / 4)).foldlM (blockStep D text textOffset leader) []
  let blocks := rev.reverse
  return blocks.mapIdx (fillSuccs D text textOffset blocks)

end Blocks

section Order

def succsOf (blocks : List Block) (b : ℕ) : List ℕ :=
  match blocks[b]? with
  | none => []
  | some blk => blk.succ0.toList ++ blk.succ1.toList

/-- `cfg_compute_rpo`: the recursive `cfg_rpo_visit` from block 0. -/
def cfgComputeRpo (blocks : List Block) : List ℕ :=
  (Lib.dfsVisit (succsOf blocks) (blocks.length + 2) 0 ([], [])).2

/-- `cfg_intersect`: climb from the block that comes later in reverse postorder. -/
def cfgIntersect (rpoOf : ℕ → ℕ) (idom : ℕ → Option ℕ) : ℕ → ℕ → ℕ → ℕ
  | 0, b1, _ => b1
  | fuel + 1, b1, b2 =>
    if b1 = b2 then b1
    else if rpoOf b1 > rpoOf b2 then cfgIntersect rpoOf idom fuel ((idom b1).getD b1) b2
    else cfgIntersect rpoOf idom fuel b1 ((idom b2).getD b2)

/-- The loop over the predecessors `j` of `b` that already have a dominator. -/
def newIdom (blocks : List Block) (rpoOf : ℕ → ℕ) (idom : ℕ → Option ℕ) (b : ℕ) : Option ℕ :=
  (List.range blocks.length).foldl (fun acc j =>
    (succsOf blocks j).foldl (fun acc s =>
      if s ≠ b then acc
      else if idom j = none then acc
      else match acc with
        | none => some j
        | some d => some (cfgIntersect rpoOf idom (2 * blocks.length) j d)) acc) none

def idomUpdate (blocks : List Block) (rpoOf : ℕ → ℕ) (idom : ℕ → Option ℕ) (b : ℕ) :
    ℕ → Option ℕ :=
  match newIdom blocks rpoOf idom b with
  | none => idom
  | some d => Function.update idom b (some d)

def idomPass (blocks : List Block) (rpo : List ℕ) (idom : ℕ → Option ℕ) : ℕ → Option ℕ :=
  rpo.tail.foldl (idomUpdate blocks rpo.idxOf) idom

/-- `cfg_compute_dominators`: repeat the pass until it changes no block. -/
def idomLoop (blocks : List Block) (rpo : List ℕ) : ℕ → (ℕ → Option ℕ) → ℕ → Option ℕ
  | 0, idom => idom
  | fuel + 1, idom =>
    let idom' := idomPass blocks rpo idom
    if rpo.all fun b => idom' b = idom b then idom' else idomLoop blocks rpo fuel idom'

def cfgComputeDominators (blocks : List Block) (rpo : List ℕ) : ℕ → Option ℕ :=
  idomLoop blocks rpo (blocks.length + 2) (Function.update (fun _ => none) 0 (some 0))

/-- `cfg_dominates`: climb the immediate dominators from `b`. -/
def cfgDominates (idom : ℕ → Option ℕ) (dom : ℕ) : ℕ → ℕ → Bool
  | 0, _ => false
  | fuel + 1, b =>
    if b = dom then true
    else match idom b with
      | none => false
      | some d => if d = b then false else cfgDominates idom dom fuel d

/-- `cfg_find_back_edges` without its cap. -/
def cfgFindBackEdges (blocks : List Block) (idom : ℕ → Option ℕ) : List (ℕ × ℕ) :=
  (List.range blocks.length).flatMap fun i =>
    ((succsOf blocks i).filter fun t => cfgDominates idom t (blocks.length + 1) i).map fun t =>
      (i, t)

end Order

def cfgFinish (blocks : List Block) : Except String Cfg :=
  let rpo := cfgComputeRpo blocks
  let idom := cfgComputeDominators blocks rpo
  let backEdges := cfgFindBackEdges blocks idom
  if backEdges.length > cfgMaxEdges then .error "too many back edges"
  else .ok ⟨blocks, rpo, idom, backEdges⟩

/-- `merlin_cfg_build`.  The source keeps `text_size / 4` in a `uint32_t`; from `2^34` bytes on,
where that would truncate, its block pass does not return. -/
def merlinCfgBuild (D : Decoder) (text : Text) (textOffset : BitVec 32) : Except String Cfg :=
  if text.length % 4 ≠ 0 then .error ".text size not a 4-byte multiple"
  else if text.length / 4 > cfgMaxInsns then .error ".text exceeds CFG insn cap"
  else do
    let leader ← cfgFindLeaders D text
    let blocks ← cfgBuildBlocks D text textOffset leader
    cfgFinish blocks

end MerlinV
