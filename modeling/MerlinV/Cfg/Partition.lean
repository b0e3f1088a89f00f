import MerlinV.Cfg.Edges

/-! # The blocks partition the text

The leader pass marks nothing but the first instruction, the instructions behind control transfers and the
rounded targets, so the blocks are cut exactly there.  Program counters are `uint32_t`: their order is that
of the instructions when they are measured from the text offset.
-/
namespace MerlinV

variable {D : Decoder} {text : Text} {textOffset : BitVec 32} {G : Cfg} {leader : LeaderMap}
  {raw : List Block} {bound : ℕ → ℕ}

/-- Some branch or `jal` of the text has its target in instruction `k`. -/
def IsTarget (D : Decoder) (text : Text) (k : ℕ) : Prop :=
  ∃ i < text.length / 4, ∃ insn, cfgInsn D text (4 * i) = some insn ∧ (insn.cls = .branch ∨ insn.cls = .jal) ∧
    jumpTarget (4 * i) insn / 4 = k

/-- Instruction `k` is the first one, follows a control transfer or is a target. -/
def StartsBlock (D : Decoder) (text : Text) (k : ℕ) : Prop :=
  k = 0 ∨ (∃ i, k = i + 1 ∧ IsCtrlAt D text i) ∨ IsTarget D text k

/-- Instruction `k` lies in the range of `b`, with program counters placed by `pos`. -/
def Block.Covers (textOffset : BitVec 32) (pos : BitVec 32 → ℕ) (b : Block) (k : ℕ) : Prop :=
  pos b.startPc ≤ pos (pcAt textOffset (4 * k)) ∧ pos (pcAt textOffset (4 * k)) ≤ pos b.endPc

structure BlocksPartition (D : Decoder) (text : Text) (textOffset : BitVec 32) (pos : BitVec 32 → ℕ)
    (blocks : List Block) : Prop where
  ends : ∀ b ∈ blocks, ∃ s e, s ≤ e ∧ e < text.length / 4 ∧ b.startPc = pcAt textOffset (4 * s) ∧
    b.endPc = pcAt textOffset (4 * e)
  nonempty : ∀ b ∈ blocks, pos b.startPc ≤ pos b.endPc
  ascending : ∀ (i j : ℕ) (bi bj : Block), i < j → blocks[i]? = some bi → blocks[j]? = some bj →
    pos bi.endPc < pos bj.startPc
  cover : ∀ k < text.length / 4, ∃! i : ℕ, ∃ b : Block, blocks[i]? = some b ∧ b.Covers textOffset pos k
  count : ∀ b ∈ blocks, 0 < b.insnCount ∧ pos b.endPc = pos b.startPc + 4 * (b.insnCount - 1)
  ctrl_last : ∀ b ∈ blocks, ∀ k < text.length / 4, b.Covers textOffset pos k → IsCtrlAt D text k →
    b.endPc = pcAt textOffset (4 * k)
  starts : ∀ k < text.length / 4, (∃ b ∈ blocks, b.startPc = pcAt textOffset (4 * k)) ↔ StartsBlock D text k

section Leaders

def Justified (D : Decoder) (text : Text) (bm : LeaderMap) : Prop := ∀ k, bm k = true → StartsBlock D text k

theorem Justified.set {bm : LeaderMap} (h : Justified D text bm) {k : ℕ} (hk : StartsBlock D text k) :
    Justified D text (leaderSet bm k) := by
  intro j hj
  rcases (leaderSet_apply _ _ _).mp hj with rfl | hj
  · exact hk
  · exact h j hj

theorem Justified.setNext {bm : LeaderMap} (h : Justified D text bm) {i : ℕ} (hi : IsCtrlAt D text i) :
    Justified D text (leaderSetNext text (4 * i) bm) := by
  have hq : (4 * i + 4) / 4 = i + 1 := by omega
  unfold leaderSetNext
  split
  · rw [hq]
    exact h.set (.inr (.inl ⟨i, rfl, hi⟩))
  · exact h

theorem Justified.setJump {bm bm' : LeaderMap} (h : Justified D text bm) {i : ℕ} {insn : Insn}
    {reason : String} (hlt : i < text.length / 4) (hinsn : cfgInsn D text (4 * i) = some insn)
    (hcls : insn.cls = .branch ∨ insn.cls = .jal)
    (hset : leaderSetJump text (4 * i) insn reason bm = .ok bm') : Justified D text bm' := by
  have hctrl : IsCtrlAt D text i := ⟨insn, hinsn, Insn.isCtrl_iff.mpr (by tauto)⟩
  unfold leaderSetJump at hset
  dsimp only at hset
  split at hset
  · cases hset
  · rename_i hin
    obtain rfl := Except.ok.inj hset
    refine (h.set (.inr (.inr ⟨i, hlt, insn, hinsn, hcls, ?_⟩))).setNext hctrl
    omega

theorem Justified.step {bm bm' : LeaderMap} (h : Justified D text bm) {i : ℕ} (hlt : i < text.length / 4)
    (hstep : leaderStep D text bm i = .ok bm') : Justified D text bm' := by
  unfold leaderStep at hstep
  split at hstep
  · obtain rfl := Except.ok.inj hstep
    exact h
  · rename_i insn hinsn
    split at hstep
    · rename_i hcls
      exact h.setJump hlt hinsn (.inl hcls) hstep
    · rename_i hcls
      exact h.setJump hlt hinsn (.inr hcls) hstep
    · rename_i hcls
      obtain rfl := Except.ok.inj hstep
      exact h.setNext ⟨insn, hinsn, Insn.isCtrl_iff.mpr (.inr (.inr hcls))⟩
    · obtain rfl := Except.ok.inj hstep
      exact h

theorem justified_of_cfgFindLeaders (h : cfgFindLeaders D text = .ok leader) : Justified D text leader := by
  refine Lib.foldlM_range_inv (fun _ bm => Justified D text bm) ?_ ?_ h
  · have hnone : Justified D text fun _ => false := nofun
    exact hnone.set (.inl rfl)
  · exact fun k hk bm bm' hbm hstep => hbm.step hk hstep

theorem Built.leader_iff (h : Built D text textOffset G leader raw bound)
    (hl : cfgFindLeaders D text = .ok leader) {k : ℕ} (hk : k < text.length / 4) :
    leader k = true ↔ StartsBlock D text k := by
  constructor
  · exact justified_of_cfgFindLeaders hl k
  · rintro (rfl | ⟨i, rfl, hi⟩ | ⟨i, hi, insn, hinsn, hcls, htgt⟩)
    · exact h.leader_zero
    · exact (h.marked i (by omega)).next hi (by omega)
    · obtain ⟨hpos, -, hmark⟩ := (h.marked i hi).target insn hinsn hcls
      have hq : (jumpTarget (4 * i) insn).toNat / 4 = k := by omega
      rwa [hq] at hmark

end Leaders

section Ranges

theorem Layout.bound_mono {n : ℕ} (h : Layout D text textOffset leader n raw bound) {i j : ℕ} (hij : i ≤ j)
    (hj : j ≤ raw.length) : bound i ≤ bound j := by
  rcases Nat.lt_or_eq_of_le hij with hlt | rfl
  · exact (h.bound_lt hlt hj).le
  · exact le_rfl

theorem Layout.block_unique {n : ℕ} (h : Layout D text textOffset leader n raw bound) {i j k : ℕ}
    (hi : i < raw.length) (hj : j < raw.length) (hik : bound i ≤ k ∧ k < bound (i + 1))
    (hjk : bound j ≤ k ∧ k < bound (j + 1)) : i = j := by
  rcases lt_trichotomy i j with hij | rfl | hij
  · have hmono := h.bound_mono (i := i + 1) hij hj.le
    omega
  · rfl
  · have hmono := h.bound_mono (i := j + 1) hij hi.le
    omega

theorem Built.span (h : Built D text textOffset G leader raw bound) {i : ℕ} {b : Block}
    (hb : G.blocks[i]? = some b) : i < raw.length ∧ bound i < bound (i + 1) ∧
      bound (i + 1) ≤ text.length / 4 ∧ b.startPc = pcAt textOffset (4 * bound i) ∧
      b.endPc = pcAt textOffset (4 * (bound (i + 1) - 1)) ∧ b.insnCount = bound (i + 1) - bound i := by
  have hi := h.lt_of_get hb
  have hget := h.get hi
  rw [hb, Option.some.injEq] at hget
  obtain ⟨hstart, hend, hcount, -⟩ := @fillSuccs_frame D text textOffset raw i
    (segBlock D text textOffset (bound i) (bound (i + 1)))
  refine ⟨hi, h.layout.lt i hi, h.layout.bound_le hi, ?_, ?_, ?_⟩
  · rw [hget, hstart, segBlock_startPc]
  · rw [hget, hend, segBlock_endPc]
  · rw [hget, hcount, segBlock_insnCount]

variable {pos : BitVec 32 → ℕ} {base : ℕ}

/-- Where `pos` places the instructions in order, a range covers the instructions of its block. -/
theorem Built.covers_iff (h : Built D text textOffset G leader raw bound)
    (hpos : ∀ k < text.length / 4, pos (pcAt textOffset (4 * k)) = base + 4 * k) {i k : ℕ} {b : Block}
    (hb : G.blocks[i]? = some b) (hk : k < text.length / 4) :
    b.Covers textOffset pos k ↔ bound i ≤ k ∧ k < bound (i + 1) := by
  obtain ⟨-, hlt, hle, hstart, hend, -⟩ := h.span hb
  rw [Block.Covers, hstart, hend, hpos (bound i) (by omega), hpos (bound (i + 1) - 1) (by omega), hpos k hk]
  omega

/-- The blocks partition the text for every placement of the program counters in the order of the
instructions. -/
theorem Built.partition (h : Built D text textOffset G leader raw bound)
    (hl : cfgFindLeaders D text = .ok leader)
    (hpos : ∀ k < text.length / 4, pos (pcAt textOffset (4 * k)) = base + 4 * k) :
    BlocksPartition D text textOffset pos G.blocks where
  ends b hb := by
    obtain ⟨i, hi⟩ := List.mem_iff_getElem?.mp hb
    obtain ⟨-, hlt, hle, hstart, hend, -⟩ := h.span hi
    exact ⟨bound i, bound (i + 1) - 1, by omega, by omega, hstart, hend⟩
  nonempty b hb := by
    obtain ⟨i, hi⟩ := List.mem_iff_getElem?.mp hb
    obtain ⟨-, hlt, hle, hstart, hend, -⟩ := h.span hi
    rw [hstart, hend, hpos _ (by omega), hpos _ (by omega)]
    omega
  ascending i j bi bj hij hbi hbj := by
    obtain ⟨-, hlti, hlei, -, hend, -⟩ := h.span hbi
    obtain ⟨hj, hltj, hlej, hstart, -, -⟩ := h.span hbj
    have hmono := h.layout.bound_mono (i := i + 1) hij hj.le
    rw [hend, hstart, hpos _ (by omega), hpos _ (by omega)]
    omega
  cover k hk := by
    obtain ⟨i, hi, hle, hlt⟩ := h.layout.exists_block hk
    have hget := h.get hi
    refine ⟨i, ⟨_, hget, (h.covers_iff hpos hget hk).mpr ⟨hle, hlt⟩⟩, ?_⟩
    rintro j ⟨b, hb, hcov⟩
    exact h.layout.block_unique (h.lt_of_get hb) hi ((h.covers_iff hpos hb hk).mp hcov) ⟨hle, hlt⟩
  count b hb := by
    obtain ⟨i, hi⟩ := List.mem_iff_getElem?.mp hb
    obtain ⟨-, hlt, hle, hstart, hend, hcount⟩ := h.span hi
    rw [hstart, hend, hcount, hpos _ (by omega), hpos _ (by omega)]
    omega
  ctrl_last b hb k hk hcov hctrl := by
    obtain ⟨i, hi⟩ := List.mem_iff_getElem?.mp hb
    obtain ⟨hlen, -, -, -, hend, -⟩ := h.span hi
    -- the block that the transfer ends is the one it lies in
    obtain ⟨j, hj, hlast⟩ := h.exists_last hk hctrl
    have hjlt := h.layout.lt j hj
    obtain rfl : i = j :=
      h.layout.block_unique hlen hj ((h.covers_iff hpos hi hk).mp hcov) ⟨by omega, by omega⟩
    rw [hend, hlast]
    rfl
  starts k hk := by
    rw [← h.leader_iff hl hk]
    constructor
    · rintro ⟨b, hb, hstart'⟩
      obtain ⟨i, hi⟩ := List.mem_iff_getElem?.mp hb
      obtain ⟨hlen, hlt, hle, hstart, -⟩ := h.span hi
      rw [hstart] at hstart'
      have := pcAt_inj (h.four_mul_lt (by omega)) (h.four_mul_lt hk.le) hstart'
      obtain rfl : bound i = k := by omega
      exact h.layout.isLeader i hlen
    · intro hleader
      obtain ⟨i, hi, rfl⟩ := h.layout.exists_bound_eq hk hleader
      exact ⟨_, List.mem_of_getElem? (h.get hi), (h.span (h.get hi)).2.2.2.1⟩

end Ranges

section Main

theorem merlinCfgBuild_leaders (h : merlinCfgBuild D text textOffset = .ok G) :
    ∃ leader raw bound, cfgFindLeaders D text = .ok leader ∧ Built D text textOffset G leader raw bound := by
  obtain ⟨hsize, hcap, leader, rev, hleader, hrev, hfinish⟩ := merlinCfgBuild_eq_ok.mp h
  obtain ⟨bound, hb⟩ := blockPass_built hsize hcap hleader hrev
  obtain rfl := cfgFinish_eq_ok hfinish
  exact ⟨leader, rev.reverse, bound, hleader, hb⟩

/-- Measured from the text offset, the program counters are the byte offsets. -/
theorem Built.pos_sub (h : Built D text textOffset G leader raw bound) (k : ℕ) (hk : k < text.length / 4) :
    (pcAt textOffset (4 * k) - textOffset).toNat = 0 + 4 * k := by
  rw [pcAt_sub, BitVec.toNat_ofNat, Nat.mod_eq_of_lt (h.four_mul_lt hk.le), zero_add]

theorem toNat_pcAt {off : ℕ} (h : textOffset.toNat + off < 2 ^ 32) :
    (pcAt textOffset off).toNat = textOffset.toNat + off := by
  rw [pcAt, BitVec.toNat_add, BitVec.toNat_ofNat]
  omega

/-- The last instruction lies at or behind the first in any placement that gives a partition. -/
theorem Built.first_le_last {pos : BitVec 32 → ℕ} (h : Built D text textOffset G leader raw bound)
    (hne : text ≠ []) (hpart : BlocksPartition D text textOffset pos G.blocks) :
    pos textOffset ≤ pos (pcAt textOffset (4 * (text.length / 4 - 1))) := by
  have hlen : 0 < raw.length := by
    rw [← h.length_eq]
    exact h.nblocks_pos hne
  have hfirst := h.get hlen
  have hlast := h.get (i := raw.length - 1) (by omega)
  have hstart : pos textOffset = pos (pcAt textOffset (4 * bound 0)) := by
    rw [h.layout.zero]
    simp [pcAt]
  have hend : bound (raw.length - 1 + 1) = text.length / 4 := by
    rw [Nat.sub_add_cancel hlen]
    exact h.layout.last
  rw [hstart, ← hend, ← (h.span hfirst).2.2.2.1, ← (h.span hlast).2.2.2.2.1]
  rcases Nat.eq_zero_or_pos (raw.length - 1) with hone | hmore
  · rw [hone] at hlast ⊢
    exact hpart.nonempty _ (List.mem_of_getElem? hlast)
  · calc _ ≤ _ := hpart.nonempty _ (List.mem_of_getElem? hfirst)
      _ ≤ _ := (hpart.ascending _ _ _ _ hmore hfirst hlast).le
      _ ≤ _ := hpart.nonempty _ (List.mem_of_getElem? hlast)

/-- The blocks of a built graph partition the text by the program counters measured from the text
offset, and by the program counters themselves exactly when these do not wrap around. -/
theorem blocks_partition_text (hne : text ≠ []) (h : merlinCfgBuild D text textOffset = .ok G) :
    BlocksPartition D text textOffset (fun pc => (pc - textOffset).toNat) G.blocks ∧
      (BlocksPartition D text textOffset BitVec.toNat G.blocks ↔
        textOffset.toNat + 4 * (text.length / 4 - 1) < 2 ^ 32) := by
  obtain ⟨leader, raw, bound, hl, hb⟩ := merlinCfgBuild_leaders h
  refine ⟨@Built.partition D text textOffset G leader raw bound (fun pc => (pc - textOffset).toNat) 0 hb hl hb.pos_sub, ?_, ?_⟩
  · intro hpart
    by_contra hwrap
    have hle := hb.first_le_last hne hpart
    have h32 := hb.four_mul_lt (k := text.length / 4 - 1) (by omega)
    have hlt := textOffset.isLt
    rw [pcAt, BitVec.toNat_add, BitVec.toNat_ofNat] at hle
    omega
  · intro hfit
    exact hb.partition hl fun k hk => toNat_pcAt (by omega)

/-- `addi x5, x5, 1; ret`. -/
def straightText : Text := ofWords [0x00128293, 0x00008067]

theorem straightText_partition : ∃ G, merlinCfgBuild merlinDecoder straightText 0x40 = .ok G ∧
    BlocksPartition merlinDecoder straightText 0x40 BitVec.toNat G.blocks := by
  have hok : (merlinCfgBuild merlinDecoder straightText 0x40).isOk = true := by decide +kernel
  cases h : merlinCfgBuild merlinDecoder straightText 0x40 with
  | error e =>
    rw [h] at hok
    cases hok
  | ok G => exact ⟨G, rfl, (blocks_partition_text (by decide) h).2.mpr (by decide)⟩

/-- Across the end of the 32-bit program counters the only block ends before it starts. -/
theorem straightText_wraps : ∃ G, merlinCfgBuild merlinDecoder straightText 0xfffffffc = .ok G ∧
    (∃ b ∈ G.blocks, b.endPc.toNat < b.startPc.toNat) ∧
    ¬ BlocksPartition merlinDecoder straightText 0xfffffffc BitVec.toNat G.blocks := by
  have hany : (merlinCfgBuild merlinDecoder straightText 0xfffffffc).toOption.any
      (fun G => G.blocks.any fun b => b.endPc.toNat < b.startPc.toNat) = true := by decide +kernel
  cases h : merlinCfgBuild merlinDecoder straightText 0xfffffffc with
  | error e =>
    rw [h] at hany
    cases hany
  | ok G =>
    rw [h] at hany
    obtain ⟨b, hb, hlt⟩ := List.any_eq_true.mp hany
    have hlt := of_decide_eq_true hlt
    exact ⟨G, rfl, ⟨b, hb, hlt⟩, fun hpart => absurd (hpart.nonempty b hb) (not_le.mpr hlt)⟩

end Main

end MerlinV
