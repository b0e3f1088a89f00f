import MerlinV.Cfg.Edges
import MerlinV.Lib.StackSearch

/-! # The control-flow graph builder of the kernel

`kernel/merlin/cfg.c`.  The leader pass handles branches and `jal` in one arm and the search
for the reverse postorder runs on an explicit stack; the block pass, the dominators and the
back edges are the userland text with the kernel's type names, and are shared here.
-/
namespace MerlinV.Kernel

section Build

variable (D : Decoder) (text : Text)

def leaderStep (bm : LeaderMap) (i : ℕ) : Except String LeaderMap :=
  match cfgInsn D text (4 * i) with
  | none => .ok bm
  | some insn =>
    if insn.cls = .branch ∨ insn.cls = .jal then
      leaderSetJump text (4 * i) insn "branch/JAL target outside .text" bm
    else if insn.cls = .jalr then .ok (leaderSetNext text (4 * i) bm)
    else .ok bm

def cfgFindLeaders : Except String LeaderMap :=
  (List.range (text.length / 4)).foldlM (leaderStep D text) (leaderSet (fun _ => false) 0)

/-- `cfg_compute_rpo`: `post` filled in the order the stack finishes blocks, then reversed. -/
def cfgComputeRpo (blocks : List Block) : List ℕ :=
  ((Lib.stackStep (succsOf blocks))^[2 * blocks.length] ([0], [], [])).2.2

def cfgFinish (blocks : List Block) : Except String Cfg :=
  let rpo := cfgComputeRpo blocks
  let idom := cfgComputeDominators blocks rpo
  let backEdges := cfgFindBackEdges blocks idom
  if backEdges.length > cfgMaxEdges then .error "too many back edges"
  else .ok ⟨blocks, rpo, idom, backEdges⟩

def merlinCfgBuild (textOffset : BitVec 32) : Except String Cfg :=
  if text.length % 4 ≠ 0 then .error ".text size not a 4-byte multiple"
  else if text.length / 4 > cfgMaxInsns then .error ".text exceeds CFG insn cap"
  else do
    let leader ← cfgFindLeaders D text
    let blocks ← cfgBuildBlocks D text textOffset leader
    cfgFinish blocks

end Build

section Refines

variable {D : Decoder} {text : Text} {textOffset : BitVec 32}

theorem leaderSetJump_toOption (off : ℕ) (insn : Insn) (r r' : String) (bm : LeaderMap) :
    (leaderSetJump text off insn r bm).toOption = (leaderSetJump text off insn r' bm).toOption := by
  unfold leaderSetJump
  dsimp only
  split <;> rfl

theorem leaderStep_toOption (bm : LeaderMap) (i : ℕ) :
    (leaderStep D text bm i).toOption = (MerlinV.leaderStep D text bm i).toOption := by
  unfold leaderStep MerlinV.leaderStep
  cases cfgInsn D text (4 * i) with
  | none => rfl
  | some insn =>
    dsimp only
    cases hc : insn.cls with
    | branch => exact leaderSetJump_toOption _ _ _ _ _
    | jal => exact leaderSetJump_toOption _ _ _ _ _
    | _ => rfl

theorem cfgFindLeaders_toOption : (cfgFindLeaders D text).toOption = (MerlinV.cfgFindLeaders D text).toOption :=
  Lib.foldlM_toOption_congr leaderStep_toOption _ _

/-- The stack finishes the blocks in the order of the recursion. -/
theorem cfgComputeRpo_eq {blocks : List Block} (hpos : 0 < blocks.length)
    (hclosed : ∀ a < blocks.length, ∀ b ∈ succsOf blocks a, b < blocks.length) :
    cfgComputeRpo blocks = MerlinV.cfgComputeRpo blocks := by
  have hsub : ∀ a ∈ List.range blocks.length, ∀ b ∈ succsOf blocks a, b ∈ List.range blocks.length := by
    simpa only [List.mem_range] using hclosed
  have hfuel : (List.range blocks.length).length < blocks.length + 2 := by simp
  have hsteps : 2 * (List.range blocks.length).length ≤ 2 * blocks.length := by simp
  rw [cfgComputeRpo, Lib.iterate_stackStep_root hsub (List.mem_range.mpr hpos) hfuel hsteps]
  rfl

/-- Both builders return the same graph, or both refuse. -/
theorem merlinCfgBuild_toOption (hne : text ≠ []) :
    (merlinCfgBuild D text textOffset).toOption =
      (MerlinV.merlinCfgBuild D text textOffset).toOption := by
  unfold merlinCfgBuild MerlinV.merlinCfgBuild
  split
  · rfl
  rename_i hsize
  split
  · rfl
  rename_i hcap
  refine Lib.bind_toOption_congr cfgFindLeaders_toOption fun leader hleader => ?_
  refine Lib.bind_toOption_congr rfl fun blocks hblocks => ?_
  obtain ⟨hpos, hclosed⟩ :=
    cfgBuildBlocks_closed hne (not_not.mp hsize) (not_lt.mp hcap) hleader hblocks
  rw [cfgFinish, MerlinV.cfgFinish, cfgComputeRpo_eq hpos hclosed]

end Refines

end MerlinV.Kernel
