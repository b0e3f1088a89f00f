import MerlinV.Cfg.Edges

/-! # The dominators are correct

The iteration of `cfg_compute_dominators` over a graph whose reverse postorder is known.
Two facts are kept by every update: each strict dominator of a block dominates the entry
`idom` of that block, and after pass `k` that entry lies on every walk with at most `k`
retreating edges.  Together they pin the immediate dominators down, so the loop stops and
`cfg_dominates` decides dominance.
-/
namespace MerlinV

open Lib

/-- What the passes after the depth-first search use of its result. -/
structure RpoFacts (blocks : List Block) (rpo : List ℕ) : Prop where
  nodup : rpo.Nodup
  mem_iff : ∀ v, v ∈ rpo ↔ Reachable (Edge blocks) 0 v
  parent : ParentRank (Edge blocks) 0 rpo.idxOf
  lt : ∀ v, Reachable (Edge blocks) 0 v → v < blocks.length

section Rpo

variable {blocks : List Block} {rpo : List ℕ}

theorem rpoFacts_of_closed (hpos : 0 < blocks.length)
    (hclosed : ∀ a < blocks.length, ∀ b ∈ succsOf blocks a, b < blocks.length) :
    RpoFacts blocks (cfgComputeRpo blocks) := by
  have hsub : ∀ a ∈ List.range blocks.length, ∀ b ∈ succsOf blocks a,
      b ∈ List.range blocks.length := by
    simpa only [List.mem_range] using hclosed
  have hfuel : (List.range blocks.length).length < blocks.length + 2 := by simp
  obtain ⟨hnd, hmem, hpar⟩ := dfsVisit_root hsub (List.mem_range.mpr hpos) hfuel
  refine ⟨hnd, hmem, hpar, ?_⟩
  rintro v ⟨l, hl⟩
  induction hl with
  | start => exact hpos
  | snoc _ he ih => exact hclosed _ ih _ he

theorem RpoFacts.rank_inj (h : RpoFacts blocks rpo) {a b : ℕ} (ha : Reachable (Edge blocks) 0 a)
    (hab : rpo.idxOf a = rpo.idxOf b) : a = b :=
  (List.idxOf_inj ((h.mem_iff a).mpr ha)).mp hab

theorem RpoFacts.rank_lt (h : RpoFacts blocks rpo) {a : ℕ} (ha : Reachable (Edge blocks) 0 a) :
    rpo.idxOf a < blocks.length := by
  have hsub : rpo ⊆ List.range blocks.length := fun v hv =>
    List.mem_range.mpr (h.lt v ((h.mem_iff v).mp hv))
  have hlen := (h.nodup.subperm hsub).length_le
  rw [List.length_range] at hlen
  exact (List.idxOf_lt_length_of_mem ((h.mem_iff a).mpr ha)).trans_le hlen

theorem RpoFacts.eq_cons (h : RpoFacts blocks rpo) : rpo = 0 :: rpo.tail := by
  cases hr : rpo with
  | nil => simpa [hr] using (h.mem_iff 0).mpr reachable_root
  | cons v l =>
    by_cases hv : v = 0
    · rw [hv, List.tail_cons]
    · obtain ⟨a, -, -, hlt⟩ := h.parent v ((h.mem_iff v).mp (by simp [hr])) hv
      simp only [hr, List.idxOf_cons_self] at hlt
      exact absurd hlt (Nat.not_lt_zero _)

end Rpo

/-- `a` is met on the way up from `b` along `idom`. -/
def Climbs (idom : ℕ → Option ℕ) (b a : ℕ) : Prop :=
  Relation.ReflTransGen (fun v d => idom v = some d) b a

/-- What every update of the dominator loop keeps. -/
structure IdomInv (blocks : List Block) (rpo : List ℕ) (idom : ℕ → Option ℕ) : Prop where
  root : idom 0 = some 0
  reach : ∀ v d, idom v = some d → Reachable (Edge blocks) 0 v
  defined : ∀ v d, idom v = some d → ∃ d', idom d = some d'
  lt : ∀ v d, idom v = some d → v ≠ 0 → rpo.idxOf d < rpo.idxOf v
  above : ∀ v d, idom v = some d → v ≠ 0 → ∀ e, Dominates (Edge blocks) 0 e v → e ≠ v →
    Dominates (Edge blocks) 0 e d

section Climb

variable {blocks : List Block} {rpo : List ℕ} {idom : ℕ → Option ℕ}

theorem IdomInv.rank_le (h : IdomInv blocks rpo idom) {b a : ℕ} (hc : Climbs idom b a) :
    rpo.idxOf a ≤ rpo.idxOf b := by
  induction hc with
  | refl => exact le_rfl
  | @tail v d _ hd ih =>
    refine le_trans ?_ ih
    by_cases hv : v = 0
    · subst hv
      obtain rfl : 0 = d := by simpa [h.root] using hd
      exact le_rfl
    · exact (h.lt v d hd hv).le

theorem IdomInv.climb_defined (h : IdomInv blocks rpo idom) {b a : ℕ} (hc : Climbs idom b a)
    (hb : ∃ d, idom b = some d) : ∃ d, idom a = some d := by
  induction hc with
  | refl => exact hb
  | tail _ hd _ => exact h.defined _ _ hd

/-- Levels of dominance add up along a climb. -/
theorem IdomInv.dominatesUpTo (h : IdomInv blocks rpo idom) {b a k : ℕ} (hc : Climbs idom b a)
    (hk : ∀ v d, rpo.idxOf v ≤ rpo.idxOf b → idom v = some d →
      DominatesUpTo (Edge blocks) 0 rpo.idxOf k d v) :
    DominatesUpTo (Edge blocks) 0 rpo.idxOf k a b := by
  induction hc with
  | refl => exact dominatesUpTo_refl k b
  | @tail v d hbv hd ih => exact (hk v d (h.rank_le hbv) hd).trans ih

/-- `cfg_intersect` returns a common ancestor below every common dominator. -/
theorem cfgIntersect_spec (hr : RpoFacts blocks rpo) (h : IdomInv blocks rpo idom) :
    ∀ fuel b1 b2, (∃ d, idom b1 = some d) → (∃ d, idom b2 = some d) →
      rpo.idxOf b1 + rpo.idxOf b2 < fuel →
      Climbs idom b1 (cfgIntersect rpo.idxOf idom fuel b1 b2) ∧
        Climbs idom b2 (cfgIntersect rpo.idxOf idom fuel b1 b2) ∧
        ∀ e, Dominates (Edge blocks) 0 e b1 → Dominates (Edge blocks) 0 e b2 →
          Dominates (Edge blocks) 0 e (cfgIntersect rpo.idxOf idom fuel b1 b2) := by
  have hzero : rpo.idxOf 0 = 0 := by rw [hr.eq_cons, List.idxOf_cons_self]
  intro fuel
  induction fuel with
  | zero =>
    intro b1 b2 _ _ hf
    omega
  | succ fuel ih =>
    rintro b1 b2 ⟨d1, h1⟩ ⟨d2, h2⟩ hf
    rw [cfgIntersect]
    split
    · rename_i heq
      subst heq
      exact ⟨.refl, .refl, fun e he _ => he⟩
    rename_i hne
    split
    · rename_i hgt
      have hb1 : b1 ≠ 0 := by
        rintro rfl
        omega
      have hlt := h.lt b1 d1 h1 hb1
      obtain ⟨c1, c2, c3⟩ := ih d1 b2 (h.defined b1 d1 h1) ⟨d2, h2⟩ (by omega)
      rw [h1, Option.getD_some]
      refine ⟨c1.head h1, c2, fun e he1 he2 => c3 e ?_ he2⟩
      have hle := rank_le_of_dominates hr.parent (h.reach b2 d2 h2) he2
      exact h.above b1 d1 h1 hb1 e he1 (by rintro rfl; omega)
    · rename_i hle
      have hlt : rpo.idxOf b1 < rpo.idxOf b2 := by
        refine lt_of_le_of_ne (not_lt.mp hle) fun heq => hne ?_
        exact hr.rank_inj (h.reach b1 d1 h1) heq
      have hb2 : b2 ≠ 0 := by
        rintro rfl
        omega
      have hlt2 := h.lt b2 d2 h2 hb2
      obtain ⟨c1, c2, c3⟩ := ih b1 d2 ⟨d1, h1⟩ (h.defined b2 d2 h2) (by omega)
      rw [h2, Option.getD_some]
      refine ⟨c1, c2.head h2, fun e he1 he2 => c3 e he1 ?_⟩
      have hle := rank_le_of_dominates hr.parent (h.reach b1 d1 h1) he1
      exact h.above b2 d2 h2 hb2 e he2 (by rintro rfl; omega)

end Climb

section Update

variable {blocks : List Block} {rpo : List ℕ} {idom : ℕ → Option ℕ}

/-- The predecessors of `b` that the update looks at, once for each edge. -/
def definedPreds (blocks : List Block) (idom : ℕ → Option ℕ) (b : ℕ) : List ℕ :=
  ((List.range blocks.length).flatMap fun j => (succsOf blocks j).map fun s => (j, s)).filterMap
    fun e => if e.2 ≠ b ∨ idom e.1 = none then none else some e.1

theorem mem_definedPreds {b j : ℕ} : j ∈ definedPreds blocks idom b ↔
    j < blocks.length ∧ Edge blocks j b ∧ ∃ d, idom j = some d := by
  simp only [definedPreds, List.mem_filterMap, List.mem_flatMap, List.mem_range, List.mem_map,
    Edge, ← Option.ne_none_iff_exists']
  constructor
  · rintro ⟨⟨j', s⟩, ⟨_, hj, _, hs, heq⟩, hsome⟩
    obtain ⟨rfl, rfl⟩ := Prod.mk.inj heq
    split at hsome
    · cases hsome
    · rename_i hno
      rw [not_or, not_not] at hno
      obtain rfl := Option.some.inj hsome
      exact ⟨hj, hno.1 ▸ hs, hno.2⟩
  · rintro ⟨hj, hs, hd⟩
    exact ⟨(j, b), ⟨j, hj, b, hs, rfl⟩, by simp [hd]⟩

/-- The double loop of the update is a fold over these predecessors. -/
theorem newIdom_eq (rpoOf : ℕ → ℕ) (b : ℕ) :
    newIdom blocks rpoOf idom b = (definedPreds blocks idom b).foldl (fun acc j =>
      match acc with
      | none => some j
      | some d => some (cfgIntersect rpoOf idom (2 * blocks.length) j d)) none := by
  rw [newIdom, definedPreds, List.foldl_filterMap, List.foldl_flatMap]
  congr 1
  funext acc j
  rw [List.foldl_map]
  congr 1
  funext acc s
  by_cases hs : s = b
  · by_cases hj : idom j = none
    · simp [hs, hj]
    · cases acc <;> simp [hs, hj]
  · simp [hs]

/-- Folding `cfg_intersect` over defined blocks keeps a common ancestor of all of them. -/
theorem foldl_intersect (hr : RpoFacts blocks rpo) (h : IdomInv blocks rpo idom) (l : List ℕ)
    (hl : ∀ j ∈ l, ∃ d, idom j = some d) (d₀ : ℕ) (h₀ : ∃ d, idom d₀ = some d) :
    ∃ d, l.foldl (fun acc j =>
        match acc with
        | none => some j
        | some d => some (cfgIntersect rpo.idxOf idom (2 * blocks.length) j d)) (some d₀) = some d ∧
      Climbs idom d₀ d ∧ (∀ j ∈ l, Climbs idom j d) ∧
      ∀ e, Dominates (Edge blocks) 0 e d₀ → (∀ j ∈ l, Dominates (Edge blocks) 0 e j) →
        Dominates (Edge blocks) 0 e d := by
  induction l generalizing d₀ with
  | nil => exact ⟨d₀, rfl, .refl, by simp, fun e he _ => he⟩
  | cons j l ih =>
    have hrank : ∀ v, (∃ d, idom v = some d) → rpo.idxOf v < blocks.length := fun v ⟨d, hd⟩ =>
      hr.rank_lt (h.reach v d hd)
    have hj := hl j (by simp)
    obtain ⟨c1, c2, c3⟩ := cfgIntersect_spec hr h (2 * blocks.length) j d₀ hj h₀
      (by have := hrank j hj; have := hrank d₀ h₀; omega)
    obtain ⟨d, hd, hc, hall, hdom⟩ := ih (fun k hk => hl k (List.mem_cons_of_mem _ hk)) _
      (h.climb_defined c2 h₀)
    refine ⟨d, hd, c2.trans hc, ?_, fun e he₀ hel => ?_⟩
    · intro k hk
      rcases List.mem_cons.mp hk with rfl | hk
      · exact c1.trans hc
      · exact hall k hk
    · exact hdom e (c3 e (hel j (by simp)) he₀) fun k hk => hel k (List.mem_cons_of_mem _ hk)

theorem newIdom_spec (hr : RpoFacts blocks rpo) (h : IdomInv blocks rpo idom) {b : ℕ}
    (hne : ∃ j, j ∈ definedPreds blocks idom b) :
    ∃ d, newIdom blocks rpo.idxOf idom b = some d ∧ (∃ d', idom d = some d') ∧
      (∀ j ∈ definedPreds blocks idom b, Climbs idom j d) ∧
      ∀ e, (∀ j ∈ definedPreds blocks idom b, Dominates (Edge blocks) 0 e j) →
        Dominates (Edge blocks) 0 e d := by
  have hdef : ∀ j ∈ definedPreds blocks idom b, ∃ d, idom j = some d := fun j hj =>
    (mem_definedPreds.mp hj).2.2
  rw [newIdom_eq]
  cases hl : definedPreds blocks idom b with
  | nil => simp [hl] at hne
  | cons j l =>
    rw [hl] at hdef
    obtain ⟨d, hd, hc, hall, hdom⟩ := foldl_intersect hr h l
      (fun k hk => hdef k (List.mem_cons_of_mem _ hk)) j (hdef j (by simp))
    refine ⟨d, by rw [List.foldl_cons]; exact hd, h.climb_defined hc (hdef j (by simp)), ?_,
      fun e he => hdom e (he j (by simp)) fun k hk => he k (List.mem_cons_of_mem _ hk)⟩
    intro k hk
    rcases List.mem_cons.mp hk with rfl | hk
    · exact hc
    · exact hall k hk

/-- `idom v` is defined and lies on every walk to `v` with at most `k` retreating edges. -/
def DomLevel (blocks : List Block) (rpo : List ℕ) (idom : ℕ → Option ℕ) (k v : ℕ) : Prop :=
  ∃ d, idom v = some d ∧ DominatesUpTo (Edge blocks) 0 rpo.idxOf k d v

/-- A new entry for `b` keeps the invariant when it is defined, comes earlier in the order and lies below
every strict dominator of `b`. -/
theorem IdomInv.set (h : IdomInv blocks rpo idom) {b d : ℕ} (hb : Reachable (Edge blocks) 0 b) (hb0 : b ≠ 0)
    (hdef : ∃ d', idom d = some d') (hlt : rpo.idxOf d < rpo.idxOf b)
    (habove : ∀ e, Dominates (Edge blocks) 0 e b → e ≠ b → Dominates (Edge blocks) 0 e d) :
    IdomInv blocks rpo (Function.update idom b (some d)) := by
  have hcases : ∀ {v d'}, Function.update idom b (some d) v = some d' → v = b ∧ d' = d ∨ idom v = some d' := by
    intro v d' hv
    by_cases hvb : v = b
    · subst hvb
      rw [Function.update_self, Option.some.injEq] at hv
      exact .inl ⟨rfl, hv.symm⟩
    · rw [Function.update_of_ne hvb] at hv
      exact .inr hv
  exact {
    root := by rw [Function.update_of_ne hb0.symm, h.root]
    reach := by
      intro v d' hv
      rcases hcases hv with ⟨rfl, -⟩ | hv
      · exact hb
      · exact h.reach v d' hv
    defined := by
      intro v d' hv
      have hsome : ∃ d'', idom d' = some d'' := by
        rcases hcases hv with ⟨-, rfl⟩ | hv
        · exact hdef
        · exact h.defined v d' hv
      by_cases hd'b : d' = b
      · exact ⟨d, by rw [hd'b, Function.update_self]⟩
      · rw [Function.update_of_ne hd'b]
        exact hsome
    lt := by
      intro v d' hv hv0
      rcases hcases hv with ⟨rfl, rfl⟩ | hv
      · exact hlt
      · exact h.lt v d' hv hv0
    above := by
      intro v d' hv hv0 e he hev
      rcases hcases hv with ⟨rfl, rfl⟩ | hv
      · exact habove e he hev
      · exact h.above v d' hv hv0 e he hev }

/-- The update of block `b` keeps the invariant and brings `b` to level `k`. -/
theorem idomUpdate_spec (hr : RpoFacts blocks rpo) (h : IdomInv blocks rpo idom) {b k : ℕ}
    (hb : Reachable (Edge blocks) 0 b) (hb0 : b ≠ 0)
    (hdone : ∀ v, Reachable (Edge blocks) 0 v → rpo.idxOf v < rpo.idxOf b →
      DomLevel blocks rpo idom k v)
    (hrest : 1 ≤ k → ∀ v, Reachable (Edge blocks) 0 v → DomLevel blocks rpo idom (k - 1) v) :
    IdomInv blocks rpo (idomUpdate blocks rpo.idxOf idom b) ∧
      DomLevel blocks rpo (idomUpdate blocks rpo.idxOf idom b) k b ∧
      ∀ v, v ≠ b → idomUpdate blocks rpo.idxOf idom b v = idom v := by
  have hlevel : ∀ {v d j}, idom v = some d → DomLevel blocks rpo idom j v →
      DominatesUpTo (Edge blocks) 0 rpo.idxOf j d v := by
    rintro v d j hd ⟨d', hd', hdom⟩
    obtain rfl : d = d' := by simpa [hd] using hd'
    exact hdom
  -- the parent of `b` in the search is already at level `k`
  obtain ⟨p, hp, hpe, hplt⟩ := hr.parent b hb hb0
  have hpd : p ∈ definedPreds blocks idom b := by
    obtain ⟨d, hd, -⟩ := hdone p hp hplt
    exact mem_definedPreds.mpr ⟨hr.lt p hp, hpe, d, hd⟩
  obtain ⟨d, hnew, hdd, hclimb, hdom⟩ := newIdom_spec hr h ⟨p, hpd⟩
  have hupd : idomUpdate blocks rpo.idxOf idom b = Function.update idom b (some d) := by
    rw [idomUpdate, hnew]
  have hdlt : rpo.idxOf d < rpo.idxOf b := (h.rank_le (hclimb p hpd)).trans_lt hplt
  have hinv : IdomInv blocks rpo (Function.update idom b (some d)) := h.set hb hb0 hdd hdlt fun e he hev =>
    hdom e fun j hj => he.of_edge hev (mem_definedPreds.mp hj).2.1
  rw [hupd]
  refine ⟨hinv, ⟨d, Function.update_self .., ?_⟩, fun v hv => Function.update_of_ne hv _ _⟩
  apply dominatesUpTo_of_edges hb0
  · intro a ha hab hlt
    obtain ⟨da, hda, -⟩ := hdone a ha hlt
    have ha' : a ∈ definedPreds blocks idom b := mem_definedPreds.mpr ⟨hr.lt a ha, hab, da, hda⟩
    refine h.dominatesUpTo (hclimb a ha') fun v d' hv hd' => ?_
    exact hlevel hd' (hdone v (h.reach v d' hd') (hv.trans_lt hlt))
  · intro a ha hab hk
    obtain ⟨da, hda, -⟩ := hrest hk a ha
    have ha' : a ∈ definedPreds blocks idom b := mem_definedPreds.mpr ⟨hr.lt a ha, hab, da, hda⟩
    refine h.dominatesUpTo (hclimb a ha') fun v d' _ hd' => ?_
    exact hlevel hd' (hrest hk v (h.reach v d' hd'))

end Update

section Passes

variable {blocks : List Block} {rpo : List ℕ} {idom : ℕ → Option ℕ}

/-- A pass in the middle: the blocks `l₁` are at level `k`, the blocks `l₂` are to come. -/
structure PassInv (blocks : List Block) (rpo : List ℕ) (k : ℕ) (l₁ l₂ : List ℕ)
    (idom : ℕ → Option ℕ) : Prop where
  split : rpo = 0 :: (l₁ ++ l₂)
  inv : IdomInv blocks rpo idom
  done : ∀ v ∈ 0 :: l₁, DomLevel blocks rpo idom k v
  rest : 1 ≤ k → ∀ v ∈ l₂, DomLevel blocks rpo idom (k - 1) v

theorem PassInv.update (hr : RpoFacts blocks rpo) {k b : ℕ} {l₁ l₂ : List ℕ}
    (h : PassInv blocks rpo k l₁ (b :: l₂) idom) :
    PassInv blocks rpo k (l₁ ++ [b]) l₂ (idomUpdate blocks rpo.idxOf idom b) := by
  obtain ⟨hsplit, hinv, hdone, hrest⟩ := h
  have hnd : ((0 :: l₁) ++ b :: l₂).Nodup := by simpa [← hsplit] using hr.nodup
  have hrpo : rpo = (0 :: l₁) ++ b :: l₂ := by simpa using hsplit
  have hbl : b ∉ 0 :: l₁ := fun hb =>
    (List.disjoint_of_nodup_append hnd) hb (by simp)
  have hb : Reachable (Edge blocks) 0 b := (hr.mem_iff b).mp (by simp [hsplit])
  have hb0 : b ≠ 0 := fun h0 => hbl (by simp [h0])
  have hbefore : ∀ v, Reachable (Edge blocks) 0 v → rpo.idxOf v < rpo.idxOf b → v ∈ 0 :: l₁ := by
    intro v _ hlt
    by_contra hv
    rw [hrpo, List.idxOf_append_of_notMem hbl, List.idxOf_append_of_notMem hv,
      List.idxOf_cons_self] at hlt
    omega
  have hall : 1 ≤ k → ∀ v, Reachable (Edge blocks) 0 v → DomLevel blocks rpo idom (k - 1) v := by
    intro hk v hv
    have hmem := (hr.mem_iff v).mpr hv
    rw [hrpo, List.mem_append] at hmem
    rcases hmem with hv | hv
    · obtain ⟨d, hd, hdom⟩ := hdone v hv
      exact ⟨d, hd, hdom.mono (by omega)⟩
    · exact hrest hk v hv
  obtain ⟨hinv', hlev, hkeep⟩ := idomUpdate_spec hr hinv hb hb0
    (fun v hv hlt => hdone v (hbefore v hv hlt)) hall
  refine ⟨by simp [hsplit], hinv', ?_, ?_⟩
  · intro v hv
    rw [← List.cons_append, List.mem_append, List.mem_singleton] at hv
    rcases hv with hv | rfl
    · obtain ⟨d, hd, hdom⟩ := hdone v hv
      exact ⟨d, by rw [hkeep v (fun h => hbl (h ▸ hv))]; exact hd, hdom⟩
    · exact hlev
  · intro hk v hv
    obtain ⟨d, hd, hdom⟩ := hrest hk v (List.mem_cons_of_mem _ hv)
    refine ⟨d, ?_, hdom⟩
    rw [hkeep v ?_]
    · exact hd
    · rintro rfl
      exact (List.nodup_cons.mp (List.nodup_append.mp hnd).2.1).1 hv

theorem PassInv.start (hr : RpoFacts blocks rpo) (h : IdomInv blocks rpo idom) {k : ℕ}
    (hrest : 1 ≤ k → ∀ v ∈ rpo, DomLevel blocks rpo idom (k - 1) v) :
    PassInv blocks rpo k [] rpo.tail idom := by
  refine ⟨by simpa using hr.eq_cons, h, ?_, fun hk v hv => hrest hk v (List.mem_of_mem_tail hv)⟩
  intro v hv
  obtain rfl := List.mem_singleton.mp hv
  exact ⟨0, h.root, dominatesUpTo_refl k 0⟩

theorem foldl_idomUpdate (hr : RpoFacts blocks rpo) {k : ℕ} (l₁ l₂ : List ℕ)
    (h : PassInv blocks rpo k l₁ l₂ idom) :
    PassInv blocks rpo k (l₁ ++ l₂) [] (l₂.foldl (idomUpdate blocks rpo.idxOf) idom) := by
  induction l₂ generalizing l₁ idom with
  | nil => rwa [List.append_nil]
  | cons b l₂ ih =>
    have hend := ih (l₁ ++ [b]) (h.update hr)
    rwa [List.append_assoc, List.singleton_append] at hend

/-- A pass keeps the invariant and raises every reachable block by one level. -/
theorem idomPass_spec (hr : RpoFacts blocks rpo) (h : IdomInv blocks rpo idom) {k : ℕ}
    (hrest : 1 ≤ k → ∀ v ∈ rpo, DomLevel blocks rpo idom (k - 1) v) :
    IdomInv blocks rpo (idomPass blocks rpo idom) ∧
      ∀ v ∈ rpo, DomLevel blocks rpo (idomPass blocks rpo idom) k v := by
  have hend := foldl_idomUpdate hr [] rpo.tail (.start hr h hrest)
  refine ⟨hend.inv, fun v hv => hend.done v ?_⟩
  rw [hend.split] at hv
  simpa using hv

theorem iterate_idomPass (hr : RpoFacts blocks rpo) (h : IdomInv blocks rpo idom) (n : ℕ) :
    IdomInv blocks rpo ((idomPass blocks rpo)^[n + 1] idom) ∧
      ∀ v ∈ rpo, DomLevel blocks rpo ((idomPass blocks rpo)^[n + 1] idom) n v := by
  induction n with
  | zero => exact idomPass_spec hr h (by omega)
  | succ n ih =>
    rw [Function.iterate_succ_apply']
    exact idomPass_spec hr ih.1 fun _ => ih.2

theorem foldl_idomUpdate_of_notMem {v : ℕ} {l : List ℕ} (hv : v ∉ l) :
    l.foldl (idomUpdate blocks rpo.idxOf) idom v = idom v := by
  induction l generalizing idom with
  | nil => rfl
  | cons b l ih =>
    rw [List.mem_cons, not_or] at hv
    rw [List.foldl_cons, ih hv.2, idomUpdate]
    cases newIdom blocks rpo.idxOf idom b with
    | none => rfl
    | some d => exact Function.update_of_ne hv.1 _ _

theorem idomPass_of_notMem {v : ℕ} (hv : v ∉ rpo) : idomPass blocks rpo idom v = idom v :=
  foldl_idomUpdate_of_notMem fun h => hv (List.mem_of_mem_tail h)

/-- Stopping at an unchanged pass gives what all passes give. -/
theorem idomLoop_eq_iterate (fuel : ℕ) (idom : ℕ → Option ℕ) :
    idomLoop blocks rpo fuel idom = (idomPass blocks rpo)^[fuel] idom := by
  induction fuel generalizing idom with
  | zero => rfl
  | succ fuel ih =>
    rw [idomLoop, Function.iterate_succ_apply]
    split
    · rename_i hsame
      have hfix : idomPass blocks rpo idom = idom := by
        funext v
        by_cases hv : v ∈ rpo
        · simpa using List.all_eq_true.mp hsame v hv
        · exact idomPass_of_notMem hv
      rw [hfix, Function.iterate_fixed hfix]
    · exact ih _

end Passes

/-- `idom` holds the immediate dominators of the reachable blocks and nothing else. -/
structure IsIdom (blocks : List Block) (rpo : List ℕ) (idom : ℕ → Option ℕ) : Prop
    extends IdomInv blocks rpo idom where
  total : ∀ v, Reachable (Edge blocks) 0 v → ∃ d, idom v = some d
  dominates : ∀ v d, idom v = some d → Dominates (Edge blocks) 0 d v

section Result

variable {blocks : List Block} {rpo : List ℕ} {idom idom' : ℕ → Option ℕ}

theorem IsIdom.unique (hr : RpoFacts blocks rpo) (h : IsIdom blocks rpo idom)
    (h' : IsIdom blocks rpo idom') : idom = idom' := by
  have hle : ∀ {i i' : ℕ → Option ℕ}, IsIdom blocks rpo i → IsIdom blocks rpo i' →
      ∀ {v d d'}, v ≠ 0 → i v = some d → i' v = some d' → rpo.idxOf d ≤ rpo.idxOf d' := by
    intro i i' hi hi' v d d' hv hd hd'
    have hne : d ≠ v := by
      rintro rfl
      exact lt_irrefl _ (hi.lt d d hd hv)
    obtain ⟨d'', hd''⟩ := hi'.defined v d' hd'
    exact rank_le_of_dominates hr.parent (hi'.reach d' d'' hd'')
      (hi'.above v d' hd' hv d (hi.dominates v d hd) hne)
  funext v
  by_cases hv : Reachable (Edge blocks) 0 v
  · obtain ⟨d, hd⟩ := h.total v hv
    obtain ⟨d', hd'⟩ := h'.total v hv
    by_cases hv0 : v = 0
    · rw [hv0, h.root, h'.root]
    · obtain ⟨d'', hd''⟩ := h.defined v d hd
      rw [hd, hd', hr.rank_inj (h.reach d d'' hd'')
        (le_antisymm (hle h h' hv0 hd hd') (hle h' h hv0 hd' hd))]
  · have hnone : ∀ {i : ℕ → Option ℕ}, IsIdom blocks rpo i → i v = none := by
      intro i hi
      by_contra hne
      obtain ⟨d, hd⟩ := Option.ne_none_iff_exists'.mp hne
      exact hv (hi.reach v d hd)
    rw [hnone h, hnone h']

theorem isIdom_of_level (hr : RpoFacts blocks rpo) (h : IdomInv blocks rpo idom) {k : ℕ}
    (hk : blocks.length ≤ k + 1) (hlev : ∀ v ∈ rpo, DomLevel blocks rpo idom k v) :
    IsIdom blocks rpo idom := by
  refine { h with
    total := fun v hv => ?_
    dominates := fun v d hd => ?_ }
  · obtain ⟨d, hd, -⟩ := hlev v ((hr.mem_iff v).mpr hv)
    exact ⟨d, hd⟩
  · obtain ⟨d', hd', hdom⟩ := hlev v ((hr.mem_iff v).mpr (h.reach v d hd))
    obtain rfl : d = d' := by simpa [hd] using hd'
    exact Dominates.of_upTo (fun u hu => List.mem_range.mpr (hr.lt u hu)) (by simpa using hk) hdom

theorem idomInv_init : IdomInv blocks rpo (Function.update (fun _ => none) 0 (some 0)) := by
  have hcase : ∀ v d, Function.update (fun _ : ℕ => (none : Option ℕ)) 0 (some 0) v = some d →
      v = 0 ∧ d = 0 := by
    intro v d hv
    by_cases h0 : v = 0
    · subst h0
      rw [Function.update_self, Option.some.injEq] at hv
      exact ⟨rfl, hv.symm⟩
    · rw [Function.update_of_ne h0] at hv
      cases hv
  refine ⟨Function.update_self .., fun v d hv => ?_, fun v d hv => ⟨0, ?_⟩, fun v d hv h0 => ?_,
    fun v d hv h0 => ?_⟩
  · rw [(hcase v d hv).1]
    exact reachable_root
  · rw [(hcase v d hv).2, Function.update_self]
  · exact absurd (hcase v d hv).1 h0
  · exact absurd (hcase v d hv).1 h0

theorem cfgComputeDominators_isIdom (hr : RpoFacts blocks rpo) :
    IsIdom blocks rpo (cfgComputeDominators blocks rpo) := by
  rw [cfgComputeDominators, idomLoop_eq_iterate]
  obtain ⟨hinv, hlev⟩ := iterate_idomPass hr idomInv_init (blocks.length + 1)
  exact isIdom_of_level hr hinv (by omega) hlev

/-- The loop has stopped by itself: one more pass changes nothing. -/
theorem idomPass_cfgComputeDominators (hr : RpoFacts blocks rpo) :
    idomPass blocks rpo (cfgComputeDominators blocks rpo) = cfgComputeDominators blocks rpo := by
  have h := cfgComputeDominators_isIdom hr
  rw [cfgComputeDominators, idomLoop_eq_iterate, ← Function.iterate_succ_apply' (idomPass blocks rpo)]
  obtain ⟨hinv, hlev⟩ := iterate_idomPass hr idomInv_init (blocks.length + 2)
  rw [cfgComputeDominators, idomLoop_eq_iterate] at h
  exact (isIdom_of_level hr hinv (by omega) hlev).unique hr h

theorem cfgDominates_iff (h : IsIdom blocks rpo idom) {d : ℕ} :
    ∀ fuel b, Reachable (Edge blocks) 0 b → rpo.idxOf b < fuel →
      (cfgDominates idom d fuel b = true ↔ Dominates (Edge blocks) 0 d b) := by
  intro fuel
  induction fuel with
  | zero =>
    intro b _ hf
    omega
  | succ fuel ih =>
    intro b hb hf
    obtain ⟨i, hi⟩ := h.total b hb
    rw [cfgDominates, hi]
    by_cases hbd : b = d
    · rw [if_pos hbd, hbd]
      exact ⟨fun _ => dominates_refl d, fun _ => rfl⟩
    rw [if_neg hbd]
    dsimp only
    by_cases hb0 : b = 0
    · subst hb0
      obtain rfl : 0 = i := by simpa [h.root] using hi
      rw [if_pos rfl]
      exact ⟨fun hfalse => by simp at hfalse,
        fun hdom => absurd (eq_root_of_dominates_root hdom).symm hbd⟩
    have hlt := h.lt b i hi hb0
    have hib : i ≠ b := by
      rintro rfl
      exact lt_irrefl _ hlt
    obtain ⟨i', hi'⟩ := h.defined b i hi
    rw [if_neg hib, ih i (h.reach i i' hi') (by omega)]
    constructor
    · exact fun hdi => hdi.trans (h.dominates b i hi)
    · exact fun hdb => h.above b i hi hb0 d hdb fun heq => hbd heq.symm

end Result

section Cfg

variable {D : Decoder} {text : Text} {textOffset : BitVec 32} {G : Cfg} {leader : LeaderMap}
  {raw : List Block} {bound : ℕ → ℕ}

theorem Built.rpoFacts (h : Built D text textOffset G leader raw bound) (hpos : 0 < G.nblocks) :
    RpoFacts G.blocks G.rpo := by
  rw [h.rpo]
  refine rpoFacts_of_closed hpos fun a ha b hb => ?_
  rw [h.length_eq] at ha ⊢
  exact ((h.mem_succs ha).mp hb).1

theorem Built.isIdom (h : Built D text textOffset G leader raw bound) (hpos : 0 < G.nblocks) :
    IsIdom G.blocks G.rpo G.idom := by
  rw [h.idom]
  exact cfgComputeDominators_isIdom (h.rpoFacts hpos)

/-- The back edges from reachable blocks are the edges into a dominator. -/
theorem Built.mem_backEdges (h : Built D text textOffset G leader raw bound) (hpos : 0 < G.nblocks)
    {s t : ℕ} (hs : Reachable (Edge G.blocks) 0 s) :
    (s, t) ∈ G.backEdges ↔ Edge G.blocks s t ∧ Dominates (Edge G.blocks) 0 t s := by
  have hr := h.rpoFacts hpos
  have hdom := cfgDominates_iff (h.isIdom hpos) (d := t) (G.blocks.length + 1) s hs
    ((hr.rank_lt hs).trans (by omega))
  rw [h.backEdges, cfgFindBackEdges]
  simp only [List.mem_flatMap, List.mem_range, List.mem_map, List.mem_filter, Prod.mk.injEq]
  constructor
  · rintro ⟨i, -, t', ⟨he, hd⟩, rfl, rfl⟩
    exact ⟨he, hdom.mp hd⟩
  · rintro ⟨he, hd⟩
    exact ⟨s, hr.lt s hs, t, ⟨he, hdom.mpr hd⟩, rfl, rfl⟩

end Cfg

end MerlinV
