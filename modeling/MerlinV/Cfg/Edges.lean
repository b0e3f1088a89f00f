import MerlinV.Cfg.Layout

/-! # Successor edges

The edges of a successful build, read off the layout: a block that ends without a control
transfer has the next block as its successor; a branch or `jal` has the blocks that start
at the program counters it may continue at, less those whose counter is `0`.
-/
namespace MerlinV

variable {D : Decoder} {text : Text} {textOffset : BitVec 32}

def Edge (blocks : List Block) (a b : ℕ) : Prop := b ∈ succsOf blocks a

section Positions

theorem pcAt_inj {a b : ℕ} (ha : a < 2 ^ 32) (hb : b < 2 ^ 32)
    (h : pcAt textOffset a = pcAt textOffset b) : a = b := by
  have h' := congrArg BitVec.toNat h
  simp only [pcAt, BitVec.toNat_add, BitVec.toNat_ofNat] at h'
  omega

@[simp] theorem pcAt_sub (off : ℕ) : pcAt textOffset off - textOffset = BitVec.ofNat 32 off := by
  apply BitVec.eq_of_toNat_eq
  simp only [pcAt, BitVec.toNat_sub, BitVec.toNat_add, BitVec.toNat_ofNat]
  omega

theorem pcAtInt_ofNat (off : ℕ) : pcAtInt textOffset off = pcAt textOffset off := by
  simp [pcAtInt, pcAt]

variable {leader : LeaderMap} {n : ℕ} {blocks : List Block} {bound : ℕ → ℕ}

theorem Layout.bound_lt (h : Layout D text textOffset leader n blocks bound) {i j : ℕ}
    (hij : i < j) (hj : j ≤ blocks.length) : bound i < bound j := by
  induction j, hij using Nat.le_induction with
  | base => exact h.lt i (by omega)
  | succ j hij ih => exact (ih (by omega)).trans (h.lt j (by omega))

theorem Layout.bound_le (h : Layout D text textOffset leader n blocks bound) {i : ℕ}
    (hi : i ≤ blocks.length) : bound i ≤ n := by
  rcases Nat.lt_or_eq_of_le hi with hi | rfl
  · rw [← h.last]
    exact (h.bound_lt hi le_rfl).le
  · exact h.last.le

theorem Layout.bound_injOn (h : Layout D text textOffset leader n blocks bound) {i j : ℕ}
    (hi : i < blocks.length) (hj : j < blocks.length) (hij : bound i = bound j) : i = j := by
  rcases lt_trichotomy i j with hlt | rfl | hlt
  · exact absurd hij (h.bound_lt hlt hj.le).ne
  · rfl
  · exact absurd hij (h.bound_lt hlt hi.le).ne'

theorem Layout.exists_block (h : Layout D text textOffset leader n blocks bound) {k : ℕ}
    (hk : k < n) : ∃ i < blocks.length, bound i ≤ k ∧ k < bound (i + 1) := by
  by_contra hno
  push Not at hno
  have hle : ∀ i ≤ blocks.length, bound i ≤ k := by
    intro i
    induction i with
    | zero => exact fun _ => by rw [h.zero]; exact Nat.zero_le _
    | succ i ih => exact fun hi => hno i (by omega) (ih (by omega))
  have := hle _ le_rfl
  rw [h.last] at this
  omega

theorem Layout.exists_bound_eq (h : Layout D text textOffset leader n blocks bound) {k : ℕ}
    (hk : k < n) (hl : leader k = true) : ∃ i < blocks.length, bound i = k := by
  obtain ⟨i, hi, hle, hlt⟩ := h.exists_block hk
  refine ⟨i, hi, ?_⟩
  by_contra hne
  have := h.inner i hi k (by omega) hlt
  rw [hl] at this
  cases this

end Positions

/-- What a successful `merlin_cfg_build` computed on the way. -/
structure Built (D : Decoder) (text : Text) (textOffset : BitVec 32) (G : Cfg)
    (leader : LeaderMap) (raw : List Block) (bound : ℕ → ℕ) : Prop where
  size : text.length % 4 = 0
  cap : text.length / 4 ≤ cfgMaxInsns
  leader_zero : leader 0 = true
  marked : ∀ i < text.length / 4, Marked D text leader i
  layout : Layout D text textOffset leader (text.length / 4) raw bound
  blocks : G.blocks = raw.mapIdx (fillSuccs D text textOffset raw)
  rpo : G.rpo = cfgComputeRpo G.blocks
  idom : G.idom = cfgComputeDominators G.blocks G.rpo
  backEdges : G.backEdges = cfgFindBackEdges G.blocks G.idom

theorem merlinCfgBuild_eq_ok {G : Cfg} : merlinCfgBuild D text textOffset = .ok G ↔
    text.length % 4 = 0 ∧ text.length / 4 ≤ cfgMaxInsns ∧ ∃ leader rev,
      cfgFindLeaders D text = .ok leader ∧
      (List.range (text.length / 4)).foldlM (blockStep D text textOffset leader) [] = .ok rev ∧
      cfgFinish (rev.reverse.mapIdx (fillSuccs D text textOffset rev.reverse)) = .ok G := by
  unfold merlinCfgBuild
  split
  · rename_i hsize
    simp [hsize]
  rename_i hsize
  rw [not_not] at hsize
  split
  · rename_i hcap
    simp [hcap]
  rename_i hcap
  simp only [Lib.bind_eq_ok, cfgBuildBlocks, hsize, true_and, not_lt.mp hcap, pure, Except.pure,
    Except.ok.injEq]
  constructor
  · rintro ⟨leader, hl, _, ⟨rev, hrev, rfl⟩, h⟩
    exact ⟨leader, rev, hl, hrev, h⟩
  · rintro ⟨leader, rev, hl, hrev, h⟩
    exact ⟨leader, hl, _, ⟨rev, hrev, rfl⟩, h⟩

/-- The graph of finished blocks, whatever the number of its back edges. -/
def cfgOfBlocks (blocks : List Block) : Cfg :=
  let idom := cfgComputeDominators blocks (cfgComputeRpo blocks)
  ⟨blocks, cfgComputeRpo blocks, idom, cfgFindBackEdges blocks idom⟩

theorem cfgFinish_eq_ok {blocks : List Block} {G : Cfg} (h : cfgFinish blocks = .ok G) :
    G = cfgOfBlocks blocks := by
  simp only [cfgFinish] at h
  split at h
  · cases h
  · exact (Except.ok.inj h).symm

theorem blockPass_layout {leader : LeaderMap} {rev : List Block}
    (hmarked : ∀ i < text.length / 4, Marked D text leader i)
    (hrev : (List.range (text.length / 4)).foldlM (blockStep D text textOffset leader) [] =
      .ok rev) :
    ∃ bound, Layout D text textOffset leader (text.length / 4) rev.reverse bound := by
  refine Lib.foldlM_range_inv
    (fun k rev => ∃ bound, Layout D text textOffset leader k rev.reverse bound) ?_ ?_ hrev
  · exact ⟨fun _ => 0, rfl, rfl, by simp, by simp, by simp, by simp⟩
  · rintro k hk r r' ⟨bound, hb⟩ hstep
    refine blockStep_layout (fun i hik hc => ?_) hb hstep
    subst hik
    exact (hmarked i (by omega)).next hc (by omega)

theorem blockPass_built {leader : LeaderMap} {rev : List Block} (hsize : text.length % 4 = 0)
    (hcap : text.length / 4 ≤ cfgMaxInsns) (hleader : cfgFindLeaders D text = .ok leader)
    (hrev : (List.range (text.length / 4)).foldlM (blockStep D text textOffset leader) [] =
      .ok rev) :
    ∃ bound, Built D text textOffset
      (cfgOfBlocks (rev.reverse.mapIdx (fillSuccs D text textOffset rev.reverse))) leader
      rev.reverse bound := by
  obtain ⟨hzero, hmarked⟩ := cfgFindLeaders_spec hleader
  obtain ⟨bound, hlay⟩ := blockPass_layout hmarked hrev
  exact ⟨bound, hsize, hcap, hzero, hmarked, hlay, rfl, rfl, rfl, rfl⟩

theorem merlinCfgBuild_built {G : Cfg} (h : merlinCfgBuild D text textOffset = .ok G) :
    ∃ leader raw bound, Built D text textOffset G leader raw bound := by
  obtain ⟨hsize, hcap, leader, rev, hleader, hrev, hfinish⟩ := merlinCfgBuild_eq_ok.mp h
  obtain ⟨bound, hb⟩ := blockPass_built hsize hcap hleader hrev
  obtain rfl := cfgFinish_eq_ok hfinish
  exact ⟨leader, rev.reverse, bound, hb⟩

section Terminators

variable {s k : ℕ}

/-- The fields of a block that its last instruction does not decide. -/
theorem wireSuccs_frame (off : ℕ) (b : Block) (insn? : Option Insn) :
    ∃ pc0 pc1 ret, wireSuccs text textOffset off b insn? =
      { b with succPc0 := pc0, succPc1 := pc1, isReturn := ret } := by
  unfold wireSuccs
  split
  · exact ⟨_, _, _, rfl⟩
  · split
    · exact ⟨_, _, _, rfl⟩
    · split <;> exact ⟨_, _, _, rfl⟩
    · exact ⟨_, _, _, rfl⟩
    · exact ⟨_, _, _, rfl⟩

theorem segBlock_frame (D : Decoder) (text : Text) (textOffset : BitVec 32) (s k : ℕ) :
    ∃ pc0 pc1 ret, segBlock D text textOffset s k =
      ⟨pcAt textOffset (4 * s), pcAt textOffset (4 * (k - 1)), k - s, none, none, pc0, pc1, ret⟩ :=
  wireSuccs_frame _ _ _

@[simp] theorem segBlock_startPc :
    (segBlock D text textOffset s k).startPc = pcAt textOffset (4 * s) := by
  obtain ⟨_, _, _, h⟩ := segBlock_frame D text textOffset s k
  rw [h]

@[simp] theorem segBlock_endPc :
    (segBlock D text textOffset s k).endPc = pcAt textOffset (4 * (k - 1)) := by
  obtain ⟨_, _, _, h⟩ := segBlock_frame D text textOffset s k
  rw [h]

@[simp] theorem segBlock_insnCount : (segBlock D text textOffset s k).insnCount = k - s := by
  obtain ⟨_, _, _, h⟩ := segBlock_frame D text textOffset s k
  rw [h]

@[simp] theorem segBlock_succ0 : (segBlock D text textOffset s k).succ0 = none := by
  obtain ⟨_, _, _, h⟩ := segBlock_frame D text textOffset s k
  rw [h]

@[simp] theorem segBlock_succ1 : (segBlock D text textOffset s k).succ1 = none := by
  obtain ⟨_, _, _, h⟩ := segBlock_frame D text textOffset s k
  rw [h]

/-- The second pass decodes the last instruction of the block again. -/
theorem terminator_segBlock (h : 4 * (k - 1) < 2 ^ 32) :
    terminator D text textOffset (segBlock D text textOffset s k) =
      cfgInsn D text (4 * (k - 1)) := by
  rw [terminator, segBlock_endPc, pcAt_sub, BitVec.toNat_ofNat, Nat.mod_eq_of_lt h]

/-- `merlin_cfg_block_at` behind its guard: the counter `0` finds nothing. -/
def lookupPc (blocks : List Block) (pc : BitVec 32) : Option ℕ :=
  if pc ≠ 0 then cfgBlockAt blocks pc else none

@[simp] theorem lookupPc_zero (blocks : List Block) : lookupPc blocks 0#32 = none := by
  simp [lookupPc]

end Terminators

section Fill

variable (textOffset) (raw : List Block) (i s : ℕ) {k : ℕ} {insn : Insn}

theorem fillSuccs_plain (h32 : 4 * (k - 1) < 2 ^ 32)
    (h : ∀ insn, cfgInsn D text (4 * (k - 1)) = some insn → insn.isCtrl = false) :
    fillSuccs D text textOffset raw i (segBlock D text textOffset s k) =
      ⟨pcAt textOffset (4 * s), pcAt textOffset (4 * (k - 1)), k - s,
        raw[i + 1]?.map fun _ => i + 1, none, (raw[i + 1]?.map Block.startPc).getD 0, 0, false⟩ := by
  have hseg : segBlock D text textOffset s k = ⟨pcAt textOffset (4 * s),
      pcAt textOffset (4 * (k - 1)), k - s, none, none, 0, 0, false⟩ := wireSuccs_of_not_ctrl h
  have hany : ((cfgInsn D text (4 * (k - 1))).any Insn.isCtrl) = false := by
    cases hi : cfgInsn D text (4 * (k - 1)) with
    | none => rfl
    | some insn => exact h insn hi
  rw [fillSuccs, terminator_segBlock h32, hany, hseg, if_neg (by simp), if_neg (by simp)]
  cases raw[i + 1]? <;> rfl

/-- A block that ends in a branch or `jal` looks both its counters up. -/
theorem fillSuccs_jump {pc0 pc1 : BitVec 32} (h32 : 4 * (k - 1) < 2 ^ 32)
    (hi : cfgInsn D text (4 * (k - 1)) = some insn) (hc : insn.isCtrl = true)
    (hseg : segBlock D text textOffset s k = ⟨pcAt textOffset (4 * s),
      pcAt textOffset (4 * (k - 1)), k - s, none, none, pc0, pc1, false⟩) :
    fillSuccs D text textOffset raw i (segBlock D text textOffset s k) =
      ⟨pcAt textOffset (4 * s), pcAt textOffset (4 * (k - 1)), k - s, lookupPc raw pc0,
        lookupPc raw pc1, pc0, pc1, false⟩ := by
  rw [fillSuccs, terminator_segBlock h32, hi, hseg, if_neg (by simp), if_pos (by simpa using hc)]
  rfl

theorem fillSuccs_branch (hk : 0 < k) (h32 : 4 * (k - 1) < 2 ^ 32)
    (hi : cfgInsn D text (4 * (k - 1)) = some insn) (hcls : insn.cls = .branch) :
    fillSuccs D text textOffset raw i (segBlock D text textOffset s k) =
      ⟨pcAt textOffset (4 * s), pcAt textOffset (4 * (k - 1)), k - s,
        lookupPc raw (pcAt textOffset (4 * k)),
        lookupPc raw (pcAtInt textOffset (jumpTarget (4 * (k - 1)) insn)),
        pcAt textOffset (4 * k), pcAtInt textOffset (jumpTarget (4 * (k - 1)) insn), false⟩ := by
  have hnext : 4 * (k - 1) + 4 = 4 * k := by omega
  apply fillSuccs_jump textOffset raw i s h32 hi (Insn.isCtrl_iff.mpr (.inl hcls))
  simp [segBlock, hi, wireSuccs, hcls, hnext]

theorem fillSuccs_jal (hk : 0 < k) (h32 : 4 * (k - 1) < 2 ^ 32)
    (hi : cfgInsn D text (4 * (k - 1)) = some insn) (hcls : insn.cls = .jal) :
    fillSuccs D text textOffset raw i (segBlock D text textOffset s k) =
      ⟨pcAt textOffset (4 * s), pcAt textOffset (4 * (k - 1)), k - s,
        lookupPc raw (pcAtInt textOffset (jumpTarget (4 * (k - 1)) insn)),
        lookupPc raw (if insn.rd ≠ 0 ∧ 4 * k < text.length then pcAt textOffset (4 * k) else 0#32),
        pcAtInt textOffset (jumpTarget (4 * (k - 1)) insn),
        if insn.rd ≠ 0 ∧ 4 * k < text.length then pcAt textOffset (4 * k) else 0#32, false⟩ := by
  have hnext : 4 * (k - 1) + 4 = 4 * k := by omega
  apply fillSuccs_jump textOffset raw i s h32 hi (Insn.isCtrl_iff.mpr (.inr (.inl hcls)))
  simp only [segBlock, hi, wireSuccs, hcls, hnext]
  split <;> rfl

theorem fillSuccs_jalr (hi : cfgInsn D text (4 * (k - 1)) = some insn) (hcls : insn.cls = .jalr) :
    fillSuccs D text textOffset raw i (segBlock D text textOffset s k) =
      ⟨pcAt textOffset (4 * s), pcAt textOffset (4 * (k - 1)), k - s, none, none, 0, 0, true⟩ := by
  rw [fillSuccs, if_pos (by simp [segBlock, hi, wireSuccs, hcls])]
  simp [segBlock, hi, wireSuccs, hcls]

end Fill

section Exact

/-- The offsets at which execution can continue after the instruction at `off`. -/
def nextOffsets (D : Decoder) (text : Text) (off : ℕ) : List ℤ :=
  match cfgInsn D text off with
  | none => [off + 4]
  | some insn =>
    match insn.cls with
    | .branch => [(off : ℤ) + 4, jumpTarget off insn]
    | .jal => if insn.rd ≠ 0 then [jumpTarget off insn, (off : ℤ) + 4] else [jumpTarget off insn]
    | .jalr => []
    | _ => [(off : ℤ) + 4]

variable {G : Cfg} {leader : LeaderMap} {raw : List Block} {bound : ℕ → ℕ}

theorem Built.four_mul_lt (h : Built D text textOffset G leader raw bound) {k : ℕ}
    (hk : k ≤ text.length / 4) : 4 * k < 2 ^ 32 := by
  have := h.cap
  simp only [cfgMaxInsns, cfgMaxBlocks] at this
  omega

theorem Built.length_eq (h : Built D text textOffset G leader raw bound) :
    G.blocks.length = raw.length := by
  simp [h.blocks]

theorem Built.nblocks_pos (h : Built D text textOffset G leader raw bound)
    (hne : text ≠ []) : 0 < G.nblocks := by
  have hpos : 0 < text.length := List.length_pos_iff.mpr hne
  have hsize := h.size
  have hlast := h.layout.last
  have hzero := h.layout.zero
  unfold Cfg.nblocks
  rw [h.length_eq]
  by_contra h0
  have hraw : raw.length = 0 := by omega
  rw [hraw] at hlast
  omega

theorem Built.get (h : Built D text textOffset G leader raw bound) {i : ℕ} (hi : i < raw.length) :
    G.blocks[i]? = some (fillSuccs D text textOffset raw i
      (segBlock D text textOffset (bound i) (bound (i + 1)))) := by
  rw [h.blocks, List.getElem?_mapIdx, h.layout.get i hi]
  rfl

theorem fillSuccs_frame (raw : List Block) (i : ℕ) (b : Block) :
    (fillSuccs D text textOffset raw i b).startPc = b.startPc ∧
      (fillSuccs D text textOffset raw i b).endPc = b.endPc ∧
      (fillSuccs D text textOffset raw i b).insnCount = b.insnCount ∧
      (fillSuccs D text textOffset raw i b).isReturn = b.isReturn := by
  unfold fillSuccs
  split
  · simp
  · split
    · simp
    · split <;> simp

/-- A program counter of the text is looked up by its offset. -/
theorem Built.cfgBlockAt_eq_some (h : Built D text textOffset G leader raw bound) {t i : ℕ}
    (ht : t < 2 ^ 32) :
    cfgBlockAt raw (pcAt textOffset t) = some i ↔ i < raw.length ∧ 4 * bound i = t := by
  have hstart : ∀ j (hj : j < raw.length), raw[j].startPc = pcAt textOffset (4 * bound j) := by
    intro j hj
    have := h.layout.get j hj
    rw [List.getElem?_eq_getElem hj, Option.some.injEq] at this
    rw [this, segBlock_startPc]
  have hlt : ∀ j, j < raw.length → 4 * bound j < 2 ^ 32 := fun j hj =>
    h.four_mul_lt (h.layout.bound_le hj.le)
  rw [cfgBlockAt, List.findIdx?_eq_some_iff_getElem]
  constructor
  · rintro ⟨hi, heq, -⟩
    rw [hstart i hi, beq_iff_eq] at heq
    exact ⟨hi, pcAt_inj (hlt i hi) ht heq⟩
  · rintro ⟨hi, rfl⟩
    refine ⟨hi, by rw [hstart i hi, beq_self_eq_true], fun j hj hbad => ?_⟩
    rw [hstart j (by omega), beq_iff_eq] at hbad
    have := pcAt_inj (hlt j (by omega)) ht hbad
    have := h.layout.bound_lt hj hi.le
    omega

theorem Built.lookupPc_eq_some (h : Built D text textOffset G leader raw bound) {t i : ℕ}
    (ht : t < 2 ^ 32) :
    lookupPc raw (pcAt textOffset t) = some i ↔
      i < raw.length ∧ 4 * bound i = t ∧ pcAt textOffset t ≠ 0 := by
  rw [lookupPc]
  split
  · rename_i hne
    rw [h.cfgBlockAt_eq_some ht]
    exact ⟨fun ⟨h₁, h₂⟩ => ⟨h₁, h₂, hne⟩, fun ⟨h₁, h₂, _⟩ => ⟨h₁, h₂⟩⟩
  · rename_i hz
    rw [not_not] at hz
    simp [hz]

theorem Built.last_lt (h : Built D text textOffset G leader raw bound) {i : ℕ}
    (hi : i < raw.length) :
    0 < bound (i + 1) ∧ bound (i + 1) ≤ text.length / 4 ∧
      (4 * (bound (i + 1) - 1) : ℕ) + 4 = 4 * bound (i + 1) := by
  have h₁ := h.layout.lt i hi
  have h₂ := h.layout.bound_le (i := i + 1) hi
  omega

/-- Execution continues behind the instruction or at the target of its jump. -/
theorem nextOffsets_cases {off : ℕ} {t : ℤ} (h : t ∈ nextOffsets D text off) :
    t = (off : ℤ) + 4 ∨ ∃ insn, cfgInsn D text off = some insn ∧
      (insn.cls = .branch ∨ insn.cls = .jal) ∧ t = jumpTarget off insn := by
  unfold nextOffsets at h
  split at h
  · exact .inl (List.mem_singleton.mp h)
  rename_i insn hinsn
  split at h
  · rename_i hcls
    simp only [List.mem_cons, List.not_mem_nil, or_false] at h
    exact h.imp_right fun heq => ⟨insn, hinsn, .inl hcls, heq⟩
  · rename_i hcls
    split at h
    · simp only [List.mem_cons, List.not_mem_nil, or_false] at h
      exact h.symm.imp_right fun heq => ⟨insn, hinsn, .inr hcls, heq⟩
    · exact .inr ⟨insn, hinsn, .inr hcls, List.mem_singleton.mp h⟩
  · cases h
  · exact .inl (List.mem_singleton.mp h)

theorem nextOffsets_of_not_ctrl {off : ℕ}
    (h : ∀ insn, cfgInsn D text off = some insn → insn.isCtrl = false) :
    nextOffsets D text off = [(off : ℤ) + 4] := by
  unfold nextOffsets
  cases hi : cfgInsn D text off with
  | none => rfl
  | some insn =>
    have hc := h insn hi
    simp only [Insn.isCtrl, Bool.or_eq_false_iff, decide_eq_false_iff_not] at hc
    dsimp only
    split <;> simp_all

theorem Built.target (h : Built D text textOffset G leader raw bound) {i : ℕ} {insn : Insn}
    (hi : i < text.length / 4) (hinsn : cfgInsn D text (4 * i) = some insn)
    (hcls : insn.cls = .branch ∨ insn.cls = .jal) :
    ∃ t : ℕ, jumpTarget (4 * i) insn = t ∧ t < text.length ∧ t < 2 ^ 32 ∧
      leader (t / 4) = true := by
  obtain ⟨h0, hlt, hl⟩ := (h.marked i hi).target insn hinsn hcls
  refine ⟨(jumpTarget (4 * i) insn).toNat, (Int.toNat_of_nonneg h0).symm, hlt, ?_, hl⟩
  have := h.four_mul_lt le_rfl
  have := h.size
  omega

theorem Built.lookupPc_target (h : Built D text textOffset G leader raw bound) {i n : ℕ}
    {insn : Insn} (hi : i < text.length / 4) (hinsn : cfgInsn D text (4 * i) = some insn)
    (hcls : insn.cls = .branch ∨ insn.cls = .jal) :
    lookupPc raw (pcAtInt textOffset (jumpTarget (4 * i) insn)) = some n ↔
      n < raw.length ∧ ((4 * bound n : ℕ) : ℤ) = jumpTarget (4 * i) insn ∧
        pcAt textOffset (4 * bound n) ≠ 0 := by
  obtain ⟨t, ht, -, h32, -⟩ := h.target hi hinsn hcls
  rw [ht, pcAtInt_ofNat, h.lookupPc_eq_some h32, Int.natCast_inj]
  constructor
  · rintro ⟨h₁, h₂, h₃⟩
    exact ⟨h₁, h₂, h₂ ▸ h₃⟩
  · rintro ⟨h₁, h₂, h₃⟩
    exact ⟨h₁, h₂, h₂ ▸ h₃⟩

theorem Built.lookupPc_next (h : Built D text textOffset G leader raw bound) {k n : ℕ}
    (hk : k ≤ text.length / 4) :
    lookupPc raw (pcAt textOffset (4 * k)) = some n ↔
      n < raw.length ∧ ((4 * bound n : ℕ) : ℤ) = (4 * k : ℕ) ∧
        pcAt textOffset (4 * bound n) ≠ 0 := by
  rw [h.lookupPc_eq_some (h.four_mul_lt hk), Int.natCast_inj]
  constructor
  · rintro ⟨h₁, h₂, h₃⟩
    exact ⟨h₁, h₂, h₂ ▸ h₃⟩
  · rintro ⟨h₁, h₂, h₃⟩
    exact ⟨h₁, h₂, h₂ ▸ h₃⟩

theorem Layout.bound_eq_next {n : ℕ} (h : Layout D text textOffset leader n raw bound) {i j : ℕ}
    (hi : i < raw.length) :
    j < raw.length ∧ bound j = bound (i + 1) ↔ j = i + 1 ∧ i + 1 < raw.length := by
  constructor
  · rintro ⟨hj, heq⟩
    have hlt : i + 1 < raw.length := by
      by_contra hge
      obtain hlen : raw.length = i + 1 := by omega
      have := h.bound_lt (i := j) (j := i + 1) (by omega) (by omega)
      omega
    exact ⟨h.bound_injOn hj hlt heq, hlt⟩
  · rintro ⟨rfl, hlt⟩
    exact ⟨hlt, rfl⟩

/-- The edges of block `i` lead to the blocks that start where its last instruction can continue,
less those a control transfer would reach at program counter `0`. -/
theorem Built.mem_succs (h : Built D text textOffset G leader raw bound) {i n : ℕ}
    (hi : i < raw.length) :
    n ∈ succsOf G.blocks i ↔ n < raw.length ∧
      ((4 * bound n : ℕ) : ℤ) ∈ nextOffsets D text (4 * (bound (i + 1) - 1)) ∧
      (IsCtrlAt D text (bound (i + 1) - 1) → pcAt textOffset (4 * bound n) ≠ 0) := by
  obtain ⟨hpos, hle, hnext⟩ := h.last_lt hi
  have h32 : 4 * (bound (i + 1) - 1) < 2 ^ 32 := h.four_mul_lt (by omega)
  have hlast : bound (i + 1) - 1 < text.length / 4 := by omega
  have hfall : ((4 * (bound (i + 1) - 1) : ℕ) : ℤ) + 4 = (4 * bound (i + 1) : ℕ) := by
    exact_mod_cast hnext
  simp only [succsOf, h.get hi, List.mem_append, Option.mem_toList]
  by_cases hctrl : IsCtrlAt D text (bound (i + 1) - 1)
  · obtain ⟨insn, hinsn, hc⟩ := hctrl
    have hctrl : IsCtrlAt D text (bound (i + 1) - 1) := ⟨insn, hinsn, hc⟩
    simp only [hctrl, true_imp_iff]
    rcases Insn.isCtrl_iff.mp hc with hcls | hcls | hcls
    · rw [fillSuccs_branch textOffset raw i (bound i) hpos h32 hinsn hcls]
      rw [h.lookupPc_next hle, h.lookupPc_target hlast hinsn (.inl hcls)]
      simp only [nextOffsets, hinsn, hcls, hfall, List.mem_cons, List.not_mem_nil, or_false]
      tauto
    · rw [fillSuccs_jal textOffset raw i (bound i) hpos h32 hinsn hcls]
      rw [h.lookupPc_target hlast hinsn (.inr hcls)]
      simp only [nextOffsets, hinsn, hcls, hfall]
      by_cases hrd : insn.rd = 0
      · simp [hrd]
      by_cases hin : 4 * bound (i + 1) < text.length
      · rw [if_pos ⟨hrd, hin⟩, if_pos hrd, h.lookupPc_next hle]
        simp only [List.mem_cons, List.not_mem_nil, or_false]
        tauto
      · -- the link address is the end of the text, where no block starts
        have hno : n < raw.length → (4 * bound n : ℕ) ≠ 4 * bound (i + 1) := by
          intro hn
          have := h.layout.bound_lt hn le_rfl
          rw [h.layout.last] at this
          omega
        rw [if_neg (fun h' => hin h'.2), if_pos hrd, lookupPc_zero]
        simp only [List.mem_cons, List.not_mem_nil, or_false, Int.natCast_inj, reduceCtorEq]
        tauto
    · rw [fillSuccs_jalr textOffset raw i (bound i) hinsn hcls]
      simp [nextOffsets, hinsn, hcls]
  · have hplain : ∀ insn, cfgInsn D text (4 * (bound (i + 1) - 1)) = some insn →
        insn.isCtrl = false := by
      intro insn hinsn
      by_contra hc
      exact hctrl ⟨insn, hinsn, by simpa using hc⟩
    have hb := h.layout.bound_eq_next (j := n) hi
    rw [fillSuccs_plain textOffset raw i (bound i) h32 hplain, nextOffsets_of_not_ctrl hplain, hfall,
      List.mem_singleton, Int.natCast_inj]
    simp only [hctrl, false_imp_iff, and_true, Nat.mul_right_inj (by decide : 4 ≠ 0), hb]
    by_cases hlt : i + 1 < raw.length
    · simp [hlt, eq_comm]
    · simp [hlt]

/-- The block pass leaves at least one block, and successors inside the table. -/
theorem cfgBuildBlocks_closed {leader : LeaderMap} {blocks : List Block} (hne : text ≠ [])
    (hsize : text.length % 4 = 0) (hcap : text.length / 4 ≤ cfgMaxInsns)
    (hu : cfgFindLeaders D text = .ok leader)
    (hb : cfgBuildBlocks D text textOffset leader = .ok blocks) :
    0 < blocks.length ∧ ∀ a < blocks.length, ∀ b ∈ succsOf blocks a, b < blocks.length := by
  simp only [cfgBuildBlocks, Lib.bind_eq_ok, pure, Except.pure, Except.ok.injEq] at hb
  obtain ⟨rev, hrev, hblocks⟩ := hb
  obtain ⟨bound, hbuilt⟩ := blockPass_built hsize hcap hu hrev
  rw [hblocks] at hbuilt
  have hlen : blocks.length = rev.reverse.length := hbuilt.length_eq
  refine ⟨hbuilt.nblocks_pos hne, fun a ha b hmem => ?_⟩
  rw [hlen] at ha ⊢
  exact ((hbuilt.mem_succs ha).mp hmem).1

theorem Built.endPc (h : Built D text textOffset G leader raw bound) {b : ℕ} {blk : Block}
    (hb : b < raw.length) (hblk : G.blocks[b]? = some blk) :
    (blk.endPc - textOffset).toNat = 4 * (bound (b + 1) - 1) := by
  obtain ⟨hpos, hle, -⟩ := h.last_lt hb
  have h32 : 4 * (bound (b + 1) - 1) < 2 ^ 32 := h.four_mul_lt (by omega)
  rw [h.get hb, Option.some.injEq] at hblk
  rw [← hblk, (fillSuccs_frame raw b _).2.1, segBlock_endPc, pcAt_sub, BitVec.toNat_ofNat,
    Nat.mod_eq_of_lt h32]

theorem Built.startPc (h : Built D text textOffset G leader raw bound) {b : ℕ} {blk : Block}
    (hb : b < raw.length) (hblk : G.blocks[b]? = some blk) :
    blk.startPc = pcAt textOffset (4 * bound b) := by
  rw [h.get hb, Option.some.injEq] at hblk
  rw [← hblk, (fillSuccs_frame raw b _).1, segBlock_startPc]

theorem Built.lt_of_get (h : Built D text textOffset G leader raw bound) {b : ℕ} {blk : Block}
    (hblk : G.blocks[b]? = some blk) : b < raw.length := by
  rw [← h.length_eq]
  exact (List.getElem?_eq_some_iff.mp hblk).1

theorem Built.exists_last (h : Built D text textOffset G leader raw bound) {i : ℕ}
    (hi : i < text.length / 4) (hc : IsCtrlAt D text i) :
    ∃ b < raw.length, bound (b + 1) = i + 1 := by
  obtain ⟨b, hb, hle, hlt⟩ := h.layout.exists_block hi
  refine ⟨b, hb, ?_⟩
  by_contra hne
  have hin : i + 1 < bound (b + 1) := by omega
  have hbnd := h.layout.bound_le (i := b + 1) hb
  have hl := (h.marked i hi).next hc (by omega)
  rw [h.layout.inner b hb (i + 1) (by omega) hin] at hl
  cases hl

/-- Where a control transfer can continue inside the text, a block starts. -/
theorem Built.exists_start (h : Built D text textOffset G leader raw bound) {i k : ℕ}
    (hi : i < text.length / 4) (hc : IsCtrlAt D text i) (hk : k < text.length / 4)
    (hmem : ((4 * k : ℕ) : ℤ) ∈ nextOffsets D text (4 * i)) : ∃ n < raw.length, bound n = k := by
  apply h.layout.exists_bound_eq hk
  rcases nextOffsets_cases hmem with heq | ⟨insn, hinsn, hcls, heq⟩
  · obtain rfl : k = i + 1 := by omega
    exact (h.marked i hi).next hc (by omega)
  · obtain ⟨t, ht, -, -, hl⟩ := h.target hi hinsn hcls
    have hq : t / 4 = k := by omega
    rwa [hq] at hl

/-- The offsets a built block can continue at are not negative and do not pass the end. -/
theorem Built.nextOffsets_range (h : Built D text textOffset G leader raw bound) {i : ℕ}
    (hi : i < text.length / 4) {t : ℤ} (ht : t ∈ nextOffsets D text (4 * i)) :
    ∃ m : ℕ, t = m ∧ m ≤ text.length := by
  rcases nextOffsets_cases ht with heq | ⟨insn, hinsn, hcls, heq⟩
  · exact ⟨4 * i + 4, by omega, by omega⟩
  · obtain ⟨m, hm, hlt, -⟩ := h.target hi hinsn hcls
    exact ⟨m, heq.trans hm, hlt.le⟩

end Exact

end MerlinV
