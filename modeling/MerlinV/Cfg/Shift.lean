import MerlinV.Cfg.Edges

/-! # Exact edges and the text offset

Two properties of `merlin_cfg_build`: the successors of every block are exactly the
blocks at a possible next program counter, and a build at another text offset gives the
same graph with every program counter moved.  Both hold exactly when every jump lands on
an instruction and no successor of a control transfer sits at program counter `0`.
-/
namespace MerlinV

variable {D : Decoder} {text : Text} {textOffset textOffset' : BitVec 32} {G G' : Cfg}
  {leader leader' : LeaderMap} {raw raw' : List Block} {bound bound' : ℕ → ℕ}

section Law

/-- The successors of a block are the blocks that start at a possible next program counter of
its last instruction. -/
def EdgesExact (D : Decoder) (text : Text) (textOffset : BitVec 32) (G : Cfg) : Prop :=
  ∀ b blk, G.blocks[b]? = some blk → ∀ n, n ∈ succsOf G.blocks b ↔
    ∃ next, G.blocks[n]? = some next ∧
      ∃ t ∈ nextOffsets D text (blk.endPc - textOffset).toNat, next.startPc = pcAtInt textOffset t

/-- The target of every branch and `jal` is the start of an instruction. -/
def TargetsAreInsns (D : Decoder) (text : Text) : Prop :=
  ∀ i < text.length / 4, ∀ insn, cfgInsn D text (4 * i) = some insn →
    insn.cls = .branch ∨ insn.cls = .jal → ∃ k < text.length / 4, jumpTarget (4 * i) insn = 4 * k

/-- Block `b'` is block `b` with its program counters moved by `delta`. -/
structure Block.Shifted (delta : BitVec 32) (b b' : Block) : Prop where
  startPc : b'.startPc = b.startPc + delta
  endPc : b'.endPc = b.endPc + delta
  insnCount : b'.insnCount = b.insnCount
  succ0 : b'.succ0 = b.succ0
  succ1 : b'.succ1 = b.succ1
  succPc0 : b.succ0 ≠ none → b'.succPc0 = b.succPc0 + delta
  succPc1 : b.succ1 ≠ none → b'.succPc1 = b.succPc1 + delta
  isReturn : b'.isReturn = b.isReturn

/-- `G'` is `G` with every program counter moved by `delta`. -/
structure Cfg.Shifted (delta : BitVec 32) (G G' : Cfg) : Prop where
  blocks : List.Forall₂ (Block.Shifted delta) G.blocks G'.blocks
  rpo : G'.rpo = G.rpo
  idom : G'.idom = G.idom
  backEdges : G'.backEdges = G.backEdges

/-- What is promised of a build: exact edges, jumps that land on instructions, and the same
graph at every other text offset. -/
structure EdgeLaw (D : Decoder) (text : Text) (textOffset textOffset' : BitVec 32) (G : Cfg) :
    Prop where
  exact : EdgesExact D text textOffset G
  targets : TargetsAreInsns D text
  shift : ∃ G', merlinCfgBuild D text textOffset' = .ok G' ∧
    Cfg.Shifted (textOffset' - textOffset) G G'

/-- No displacement of a branch or `jal` is off by two bytes. -/
def TargetsAligned (D : Decoder) (text : Text) : Prop :=
  ∀ i < text.length / 4, ∀ insn, cfgInsn D text (4 * i) = some insn →
    insn.cls = .branch ∨ insn.cls = .jal → jumpTarget (4 * i) insn % 4 = 0

/-- No instruction of the text that a control transfer can continue at has program counter `0`. -/
def NoZeroSuccessor (D : Decoder) (text : Text) (textOffset : BitVec 32) : Prop :=
  ∀ i < text.length / 4, IsCtrlAt D text i → ∀ k < text.length / 4,
    ((4 * k : ℕ) : ℤ) ∈ nextOffsets D text (4 * i) → pcAt textOffset (4 * k) ≠ 0

end Law

section Exact

theorem Built.edgesExact_iff (h : Built D text textOffset G leader raw bound) :
    EdgesExact D text textOffset G ↔ ∀ b < raw.length, ∀ n, n ∈ succsOf G.blocks b ↔
      n < raw.length ∧ ((4 * bound n : ℕ) : ℤ) ∈ nextOffsets D text (4 * (bound (b + 1) - 1)) := by
  have key : ∀ b blk, G.blocks[b]? = some blk → ∀ n,
      (∃ next, G.blocks[n]? = some next ∧ ∃ t ∈ nextOffsets D text (blk.endPc - textOffset).toNat,
        next.startPc = pcAtInt textOffset t) ↔
      n < raw.length ∧ ((4 * bound n : ℕ) : ℤ) ∈ nextOffsets D text (4 * (bound (b + 1) - 1)) := by
    intro b blk hblk n
    have hb := h.lt_of_get hblk
    obtain ⟨hpos, hle, -⟩ := h.last_lt hb
    rw [h.endPc hb hblk]
    constructor
    · rintro ⟨next, hnext, t, ht, heq⟩
      have hn := h.lt_of_get hnext
      obtain ⟨m, rfl, hm⟩ := h.nextOffsets_range (by omega) ht
      rw [h.startPc hn hnext, pcAtInt_ofNat] at heq
      have hlen := h.four_mul_lt le_rfl
      have hsize := h.size
      have := pcAt_inj (h.four_mul_lt (h.layout.bound_le hn.le)) (by omega) heq
      exact ⟨hn, this ▸ ht⟩
    · rintro ⟨hn, ht⟩
      refine ⟨_, h.get hn, _, ht, ?_⟩
      rw [h.startPc hn (h.get hn), pcAtInt_ofNat]
  constructor
  · intro hex b hb n
    rw [hex b _ (h.get hb) n, key b _ (h.get hb) n]
  · intro hex b blk hblk n
    rw [hex b (h.lt_of_get hblk) n, key b blk hblk n]

/-- The edges are exact exactly when no in-text successor of a control transfer is at counter `0`. -/
theorem Built.edgesExact_iff_noZero (h : Built D text textOffset G leader raw bound) :
    EdgesExact D text textOffset G ↔ NoZeroSuccessor D text textOffset := by
  rw [h.edgesExact_iff]
  constructor
  · intro hex i hi hc k hk hmem
    obtain ⟨b, hb, hlast⟩ := h.exists_last hi hc
    obtain ⟨n, hn, rfl⟩ := h.exists_start hi hc hk hmem
    have hi' : bound (b + 1) - 1 = i := by omega
    have hsucc := (hex b hb n).mpr ⟨hn, by rw [hi']; exact hmem⟩
    exact ((h.mem_succs hb).mp hsucc).2.2 (by rw [hi']; exact hc)
  · intro hz b hb n
    obtain ⟨hpos, hle, -⟩ := h.last_lt hb
    rw [h.mem_succs hb]
    constructor
    · rintro ⟨hn, hmem, -⟩
      exact ⟨hn, hmem⟩
    · rintro ⟨hn, hmem⟩
      have hlt := h.layout.bound_lt hn le_rfl
      rw [h.layout.last] at hlt
      exact ⟨hn, hmem, fun hc => hz _ (by omega) hc _ hlt hmem⟩

theorem Built.targets_iff_aligned (h : Built D text textOffset G leader raw bound) :
    TargetsAreInsns D text ↔ TargetsAligned D text := by
  constructor
  · intro ht i hi insn hinsn hcls
    obtain ⟨k, -, hk⟩ := ht i hi insn hinsn hcls
    omega
  · intro ha i hi insn hinsn hcls
    obtain ⟨t, ht, hlt, -⟩ := h.target hi hinsn hcls
    have := ha i hi insn hinsn hcls
    have := h.size
    exact ⟨t / 4, by omega, by omega⟩

end Exact

section Shift

/-- The leaders alone decide where the blocks start. -/
theorem Layout.bound_unique {n : ℕ} (h : Layout D text textOffset leader n raw bound)
    (h' : Layout D text textOffset' leader n raw' bound') (hlen : raw'.length = raw.length) :
    ∀ i ≤ raw.length, bound' i = bound i := by
  intro i
  induction i with
  | zero =>
    intro _
    rw [h.zero, h'.zero]
  | succ i ih =>
    intro hi
    have heq := ih (by omega)
    rcases Nat.lt_or_eq_of_le hi with hlt | hlast
    · have h₁ := h.lt i (by omega)
      have h₂ := h'.lt i (by omega)
      have l₁ := h.isLeader (i + 1) hlt
      have l₂ := h'.isLeader (i + 1) (by omega)
      rcases lt_trichotomy (bound' (i + 1)) (bound (i + 1)) with hc | hc | hc
      · rw [h.inner i (by omega) _ (by omega) hc] at l₂
        cases l₂
      · exact hc
      · rw [h'.inner i (by omega) _ (by omega) hc] at l₁
        cases l₁
    · rw [hlast, h.last, ← hlen, h'.last]

theorem blockPass_shift (textOffset' : BitVec 32) {rev : List Block} {l : List ℕ}
    (h : l.foldlM (blockStep D text textOffset leader) [] = .ok rev) :
    ∃ rev', l.foldlM (blockStep D text textOffset' leader) [] = .ok rev' ∧
      rev'.length = rev.length := by
  refine Lib.foldlM_sim (fun r r' : List Block => r'.length = r.length) ?_ l rfl h
  intro i r r₁ r' hR hstep
  cases hl : leader i with
  | true =>
    have hr₁ := blockStep_leader hl hstep
    simp only [blockStep, hl, if_true, true_and, hR] at hstep ⊢
    split at hstep
    · cases hstep
    · rename_i hcap
      rw [if_neg hcap, hr₁]
      exact ⟨_, rfl, by simp [hR]⟩
  | false =>
    obtain ⟨b, rest, rfl, rfl⟩ := blockStep_inner hl hstep
    cases r' with
    | nil => simp at hR
    | cons b' rest' =>
      simp only [blockStep, hl, Bool.false_eq_true, if_false, false_and]
      exact ⟨_, rfl, by simpa using hR⟩

theorem pcAt_shift (off : ℕ) :
    pcAt textOffset' off = pcAt textOffset off + (textOffset' - textOffset) := by
  apply BitVec.eq_of_toNat_eq
  simp only [pcAt, BitVec.toNat_sub, BitVec.toNat_add, BitVec.toNat_ofNat]
  omega

/-- A counter that is not zero at either offset finds the same block. -/
theorem Built.lookupPc_shift (h : Built D text textOffset G leader raw bound)
    (h' : Built D text textOffset' G' leader' raw' bound') (hlen : raw'.length = raw.length)
    (hbound : ∀ i ≤ raw.length, bound' i = bound i) {m : ℕ} (hm : m ≤ text.length)
    (hz : ∀ n < raw.length, 4 * bound n = m → pcAt textOffset m ≠ 0 ∧ pcAt textOffset' m ≠ 0) :
    lookupPc raw' (pcAt textOffset' m) = lookupPc raw (pcAt textOffset m) := by
  have h32 : m < 2 ^ 32 := by
    have := h.four_mul_lt le_rfl
    have := h.size
    omega
  apply Option.ext
  intro n
  rw [h.lookupPc_eq_some h32, h'.lookupPc_eq_some h32, hlen]
  constructor
  · rintro ⟨hn, heq, -⟩
    rw [hbound n hn.le] at heq
    exact ⟨hn, heq, (hz n hn heq).1⟩
  · rintro ⟨hn, heq, -⟩
    exact ⟨hn, by rw [hbound n hn.le]; exact heq, (hz n hn heq).2⟩

theorem Built.block_shift (h : Built D text textOffset G leader raw bound)
    (h' : Built D text textOffset' G' leader' raw' bound') (hlen : raw'.length = raw.length)
    (hbound : ∀ i ≤ raw.length, bound' i = bound i) (hz : NoZeroSuccessor D text textOffset)
    (hz' : NoZeroSuccessor D text textOffset') {i : ℕ} (hi : i < raw.length) :
    Block.Shifted (textOffset' - textOffset)
      (fillSuccs D text textOffset raw i (segBlock D text textOffset (bound i) (bound (i + 1))))
      (fillSuccs D text textOffset' raw' i
        (segBlock D text textOffset' (bound i) (bound (i + 1)))) := by
  obtain ⟨hpos, hle, hnext⟩ := h.last_lt hi
  have h32 : 4 * (bound (i + 1) - 1) < 2 ^ 32 := h.four_mul_lt (by omega)
  have hlast : bound (i + 1) - 1 < text.length / 4 := by omega
  by_cases hctrl : IsCtrlAt D text (bound (i + 1) - 1)
  · -- the counters a control transfer can continue at are looked up with the same result
    have hlook : ∀ m : ℕ, (m : ℤ) ∈ nextOffsets D text (4 * (bound (i + 1) - 1)) →
        lookupPc raw' (pcAt textOffset' m) = lookupPc raw (pcAt textOffset m) := by
      intro m hm
      obtain ⟨_, heq, hmle⟩ := h.nextOffsets_range hlast hm
      refine h.lookupPc_shift h' hlen hbound (by omega) ?_
      rintro n hn rfl
      have hlt := h.layout.bound_lt hn le_rfl
      rw [h.layout.last] at hlt
      exact ⟨hz _ hlast hctrl _ hlt hm, hz' _ hlast hctrl _ hlt hm⟩
    have hfall : ((4 * (bound (i + 1) - 1) : ℕ) : ℤ) + 4 = (4 * bound (i + 1) : ℕ) := by
      exact_mod_cast hnext
    obtain ⟨insn, hinsn, hc⟩ := hctrl
    rcases Insn.isCtrl_iff.mp hc with hcls | hcls | hcls
    · obtain ⟨t, ht, -⟩ := h.target hlast hinsn (.inl hcls)
      have hmem : nextOffsets D text (4 * (bound (i + 1) - 1)) =
          [((4 * bound (i + 1) : ℕ) : ℤ), (t : ℤ)] := by
        simp only [nextOffsets, hinsn, hcls, hfall, ht]
      rw [fillSuccs_branch textOffset raw i (bound i) hpos h32 hinsn hcls,
        fillSuccs_branch textOffset' raw' i (bound i) hpos h32 hinsn hcls, ht, pcAtInt_ofNat,
        pcAtInt_ofNat, hlook (4 * bound (i + 1)) (by simp [hmem]), hlook t (by simp [hmem])]
      exact ⟨pcAt_shift _, pcAt_shift _, rfl, rfl, rfl, fun _ => pcAt_shift _,
        fun _ => pcAt_shift _, rfl⟩
    · obtain ⟨t, ht, -⟩ := h.target hlast hinsn (.inr hcls)
      have hmem : nextOffsets D text (4 * (bound (i + 1) - 1)) =
          if insn.rd ≠ 0 then [(t : ℤ), ((4 * bound (i + 1) : ℕ) : ℤ)] else [(t : ℤ)] := by
        simp only [nextOffsets, hinsn, hcls, hfall, ht]
      have ht' : (t : ℤ) ∈ nextOffsets D text (4 * (bound (i + 1) - 1)) := by
        rw [hmem]
        split <;> simp
      rw [fillSuccs_jal textOffset raw i (bound i) hpos h32 hinsn hcls,
        fillSuccs_jal textOffset' raw' i (bound i) hpos h32 hinsn hcls, ht, pcAtInt_ofNat,
        pcAtInt_ofNat, hlook t ht']
      by_cases hlink : insn.rd ≠ 0 ∧ 4 * bound (i + 1) < text.length
      · rw [if_pos hlink, if_pos hlink, hlook (4 * bound (i + 1)) (by simp [hmem, hlink.1])]
        exact ⟨pcAt_shift _, pcAt_shift _, rfl, rfl, rfl, fun _ => pcAt_shift _,
          fun _ => pcAt_shift _, rfl⟩
      · rw [if_neg hlink, if_neg hlink, lookupPc_zero, lookupPc_zero]
        exact ⟨pcAt_shift _, pcAt_shift _, rfl, rfl, rfl, fun _ => pcAt_shift _,
          fun hne => absurd rfl hne, rfl⟩
    · rw [fillSuccs_jalr textOffset raw i (bound i) hinsn hcls,
        fillSuccs_jalr textOffset' raw' i (bound i) hinsn hcls]
      exact ⟨pcAt_shift _, pcAt_shift _, rfl, rfl, rfl, fun hne => absurd rfl hne,
        fun hne => absurd rfl hne, rfl⟩
  · have hplain : ∀ insn, cfgInsn D text (4 * (bound (i + 1) - 1)) = some insn →
        insn.isCtrl = false := by
      intro insn hinsn
      by_contra hc
      exact hctrl ⟨insn, hinsn, by simpa using hc⟩
    rw [fillSuccs_plain textOffset raw i (bound i) h32 hplain,
      fillSuccs_plain textOffset' raw' i (bound i) h32 hplain]
    by_cases hlt : i + 1 < raw.length
    · rw [h.layout.get _ hlt, h'.layout.get _ (hlen.symm ▸ hlt), hbound _ hlt.le]
      exact ⟨pcAt_shift _, pcAt_shift _, rfl, rfl, rfl, fun _ => by simpa using pcAt_shift _,
        fun hne => absurd rfl hne, rfl⟩
    · rw [List.getElem?_eq_none (by omega), List.getElem?_eq_none (by omega)]
      exact ⟨pcAt_shift _, pcAt_shift _, rfl, rfl, rfl, fun hne => absurd rfl hne,
        fun hne => absurd rfl hne, rfl⟩

theorem succsOf_shift {delta : BitVec 32} {blocks blocks' : List Block}
    (h : List.Forall₂ (Block.Shifted delta) blocks blocks') : succsOf blocks' = succsOf blocks := by
  funext b
  simp only [succsOf]
  rcases Nat.lt_or_ge b blocks.length with hb | hb
  · have hb' : b < blocks'.length := h.length_eq ▸ hb
    have hs := h.get hb hb'
    rw [List.getElem?_eq_getElem hb, List.getElem?_eq_getElem hb']
    have h0 := hs.succ0
    have h1 := hs.succ1
    simp only [List.get_eq_getElem] at h0 h1
    simp only [h0, h1]
  · rw [List.getElem?_eq_none hb, List.getElem?_eq_none (h.length_eq ▸ hb)]

theorem cfgFinish_congr {blocks blocks' : List Block} {G : Cfg} (h : cfgFinish blocks = .ok G)
    (hlen : blocks'.length = blocks.length) (hs : succsOf blocks' = succsOf blocks) :
    cfgFinish blocks' = .ok { G with blocks := blocks' } := by
  have hrpo : cfgComputeRpo blocks' = cfgComputeRpo blocks := by
    simp only [cfgComputeRpo, hs, hlen]
  have hpass : idomPass blocks' = idomPass blocks := by
    funext rpo idom
    have hupd : idomUpdate blocks' = idomUpdate blocks := by
      funext rpoOf idom b
      simp only [idomUpdate, newIdom, hs, hlen]
    simp only [idomPass, hupd]
  have hloop : idomLoop blocks' = idomLoop blocks := by
    funext rpo fuel
    induction fuel with
    | zero => rfl
    | succ fuel ih =>
      funext idom
      simp only [idomLoop, hpass, ih]
  have hdom : cfgComputeDominators blocks' = cfgComputeDominators blocks := by
    funext rpo
    simp only [cfgComputeDominators, hloop, hlen]
  have hback : cfgFindBackEdges blocks' = cfgFindBackEdges blocks := by
    funext idom
    simp only [cfgFindBackEdges, hs, hlen]
  simp only [cfgFinish, hrpo, hdom, hback] at h ⊢
  split at h
  · cases h
  · rename_i hcap
    rw [if_neg hcap, ← Except.ok.inj h]

/-- Without successors at counter `0` a build at another text offset gives the moved graph. -/
theorem merlinCfgBuild_shift (h : merlinCfgBuild D text textOffset = .ok G)
    (hz : NoZeroSuccessor D text textOffset) (hz' : NoZeroSuccessor D text textOffset') :
    ∃ G', merlinCfgBuild D text textOffset' = .ok G' ∧
      Cfg.Shifted (textOffset' - textOffset) G G' := by
  obtain ⟨hsize, hcap, leader, rev, hleader, hrev, hfinish⟩ := merlinCfgBuild_eq_ok.mp h
  obtain ⟨rev', hrev', hlen⟩ := blockPass_shift textOffset' hrev
  obtain ⟨bound, hb⟩ := blockPass_built hsize hcap hleader hrev
  obtain ⟨bound', hb'⟩ := blockPass_built hsize hcap hleader hrev'
  obtain rfl := cfgFinish_eq_ok hfinish
  have hlen : rev'.reverse.length = rev.reverse.length := by simpa using hlen
  have hbound := hb.layout.bound_unique hb'.layout hlen
  have hblocks : List.Forall₂ (Block.Shifted (textOffset' - textOffset))
      (rev.reverse.mapIdx (fillSuccs D text textOffset rev.reverse))
      (rev'.reverse.mapIdx (fillSuccs D text textOffset' rev'.reverse)) := by
    rw [List.forall₂_iff_get]
    refine ⟨by simpa using hlen.symm, fun i hi hi' => ?_⟩
    have hi : i < rev.reverse.length := by simpa using hi
    have h₁ := hb.layout.get i hi
    have h₂ := hb'.layout.get i (by omega)
    rw [hbound i hi.le, hbound (i + 1) hi] at h₂
    rw [List.getElem?_eq_some_iff] at h₁ h₂
    simp only [List.get_eq_getElem, List.getElem_mapIdx, h₁.2, h₂.2]
    exact hb.block_shift hb' hlen hbound hz hz' hi
  have hfinish' := cfgFinish_congr hfinish (by simpa using hlen) (succsOf_shift hblocks)
  exact ⟨_, merlinCfgBuild_eq_ok.mpr ⟨hsize, hcap, leader, rev', hleader, hrev', hfinish'⟩,
    hblocks, rfl, rfl, rfl⟩

theorem Built.bound_shift (h : Built D text textOffset G leader raw bound)
    (h' : Built D text textOffset' G' leader' raw' bound')
    (hs : Cfg.Shifted (textOffset' - textOffset) G G') :
    raw'.length = raw.length ∧ ∀ i < raw.length, bound' i = bound i ∧
      bound' (i + 1) - 1 = bound (i + 1) - 1 := by
  have hlen : raw'.length = raw.length := by
    rw [← h.length_eq, ← h'.length_eq, hs.blocks.length_eq]
  refine ⟨hlen, fun i hi => ?_⟩
  have hi' : i < raw'.length := by omega
  have hget := hs.blocks.get (i := i) (by rw [h.length_eq]; exact hi) (by rw [h'.length_eq]; exact hi')
  have h₁ := h.get hi
  have h₂ := h'.get hi'
  rw [List.getElem?_eq_some_iff] at h₁ h₂
  simp only [List.get_eq_getElem, h₁.2, h₂.2] at hget
  obtain ⟨-, hle, -⟩ := h.last_lt hi
  obtain ⟨-, hle', -⟩ := h'.last_lt hi'
  have hstart := hget.startPc
  have hend := hget.endPc
  simp only [(fillSuccs_frame _ _ _).1, (fillSuccs_frame _ _ _).2.1, segBlock_startPc,
    segBlock_endPc, ← pcAt_shift] at hstart hend
  have e₁ := pcAt_inj (h'.four_mul_lt (h'.layout.bound_le hi'.le))
    (h.four_mul_lt (h.layout.bound_le hi.le)) hstart
  have e₂ := pcAt_inj (h'.four_mul_lt (by omega)) (h.four_mul_lt (by omega)) hend
  omega

theorem Built.edgesExact_shift (h : Built D text textOffset G leader raw bound)
    (h' : Built D text textOffset' G' leader' raw' bound')
    (hs : Cfg.Shifted (textOffset' - textOffset) G G') (hex : EdgesExact D text textOffset G) :
    EdgesExact D text textOffset' G' := by
  obtain ⟨hlen, hbound⟩ := h.bound_shift h' hs
  rw [h.edgesExact_iff] at hex
  rw [h'.edgesExact_iff, hlen, succsOf_shift hs.blocks]
  intro b hb n
  rw [hex b hb n, (hbound b hb).2]
  exact and_congr_right fun hn => by rw [(hbound n hn).1]

end Shift

/-- A build obeys the edge law exactly when every jump of the text lands on an instruction and
at neither offset a control transfer continues at program counter `0`. -/
theorem edgeLaw_iff (D : Decoder) (text : Text) (textOffset textOffset' : BitVec 32) (G : Cfg)
    (h : merlinCfgBuild D text textOffset = .ok G) :
    EdgeLaw D text textOffset textOffset' G ↔ TargetsAligned D text ∧
      NoZeroSuccessor D text textOffset ∧ NoZeroSuccessor D text textOffset' := by
  obtain ⟨leader, raw, bound, hb⟩ := merlinCfgBuild_built h
  constructor
  · rintro ⟨hex, ht, G', h', hs⟩
    obtain ⟨leader', raw', bound', hb'⟩ := merlinCfgBuild_built h'
    exact ⟨hb.targets_iff_aligned.mp ht, hb.edgesExact_iff_noZero.mp hex,
      hb'.edgesExact_iff_noZero.mp (hb.edgesExact_shift hb' hs hex)⟩
  · rintro ⟨ha, hz, hz'⟩
    exact ⟨hb.edgesExact_iff_noZero.mpr hz, hb.targets_iff_aligned.mpr ha,
      merlinCfgBuild_shift h hz hz'⟩

theorem exists_ok_of_isOk {x : Except String Cfg} (h : x.isOk = true) : ∃ G, x = .ok G := by
  cases x with
  | error e => cases h
  | ok G => exact ⟨G, rfl⟩

/-- `addi x5,x5,1` and a jump back to it. -/
def loopText : Text := ofWords [0x00128293, 0xffdff06f]

/-- At text offset 0 the jump of `loopText` loses its edge; `beq x0,x0,+2` is built as well. -/
theorem loopText_not_edgeLaw :
    (∃ G, merlinCfgBuild merlinDecoder loopText 0 = .ok G ∧
      ¬ EdgeLaw merlinDecoder loopText 0 0x40 G) ∧
    ∃ G, merlinCfgBuild merlinDecoder (ofWords [0x00000163, 0x00008067]) 0x40 = .ok G ∧
      ¬ EdgeLaw merlinDecoder (ofWords [0x00000163, 0x00008067]) 0x40 0x40 G := by
  constructor
  · obtain ⟨G, hG⟩ := exists_ok_of_isOk (x := merlinCfgBuild merlinDecoder loopText 0)
      (by decide +kernel)
    refine ⟨G, hG, fun hlaw => ?_⟩
    obtain ⟨leader, raw, bound, hb⟩ := merlinCfgBuild_built hG
    have hz := hb.edgesExact_iff_noZero.mp hlaw.exact
    exact hz 1 (by decide) ⟨_, rfl, by decide⟩ 0 (by decide) (by decide) (by decide)
  · obtain ⟨G, hG⟩ := exists_ok_of_isOk
      (x := merlinCfgBuild merlinDecoder (ofWords [0x00000163, 0x00008067]) 0x40)
      (by decide +kernel)
    refine ⟨G, hG, fun hlaw => ?_⟩
    obtain ⟨leader, raw, bound, hb⟩ := merlinCfgBuild_built hG
    have ha := hb.targets_iff_aligned.mp hlaw.targets
    exact absurd (ha 0 (by decide) _ rfl (.inl (by decide))) (by decide)

/-- At any other two offsets `loopText` has exact edges. -/
theorem loopText_edgeLaw : ∃ G, merlinCfgBuild merlinDecoder loopText 0x40 = .ok G ∧
    EdgeLaw merlinDecoder loopText 0x40 0x1000 G := by
  obtain ⟨G, hG⟩ := exists_ok_of_isOk (x := merlinCfgBuild merlinDecoder loopText 0x40)
    (by decide +kernel)
  have hlen : loopText.length / 4 = 2 := by decide
  have hall : ∀ i < 2, (cfgInsn merlinDecoder loopText (4 * i)).all
      fun insn => insn.cls = .branch ∨ insn.cls = .jal → jumpTarget (4 * i) insn % 4 = 0 := by
    decide +kernel
  have haligned : TargetsAligned merlinDecoder loopText := by
    intro i hi insn hinsn hcls
    have := hall i (hlen ▸ hi)
    rw [hinsn, Option.all_some, decide_eq_true_iff] at this
    exact this hcls
  have hnz : ∀ k < 2, pcAt 0x40 (4 * k) ≠ 0 ∧ pcAt 0x1000 (4 * k) ≠ 0 := by decide +kernel
  refine ⟨G, hG, (edgeLaw_iff merlinDecoder loopText 0x40 0x1000 G hG).mpr ⟨haligned, ?_, ?_⟩⟩
  · exact fun _ _ _ k hk _ => (hnz k (hlen ▸ hk)).1
  · exact fun _ _ _ k hk _ => (hnz k (hlen ▸ hk)).2

end MerlinV
