import MerlinV.Cfg.Dominators
import MerlinV.Lib.Loops

/-! # The dominator loops run to their end

The `while` loops of `cfg_intersect`, `cfg_compute_dominators` and `cfg_dominates` as the
source nests them, with the `changed` flag.  Each has exactly one finite run, which gives
what the fuelled definitions compute.
-/
namespace MerlinV

open Lib

section Loops

variable (blocks : List Block) (rpoOf : ℕ → ℕ) (idom : ℕ → Option ℕ)

/-- `while (rpo_of[b] > bound) b = blocks[b].idom`. -/
def ClimbRuns (bound b b' : ℕ) : Prop :=
  WhileRuns (fun b => rpoOf b > bound) (fun b d => idom b = some d) b b'

def IntersectRound (p q : ℕ × ℕ) : Prop :=
  ClimbRuns rpoOf idom (rpoOf p.2) p.1 q.1 ∧ ClimbRuns rpoOf idom (rpoOf q.1) p.2 q.2

/-- `cfg_intersect`: rounds until the two blocks agree on `r`. -/
def IntersectRuns (b1 b2 r : ℕ) : Prop :=
  WhileRuns (fun p : ℕ × ℕ => p.1 ≠ p.2) (IntersectRound rpoOf idom) (b1, b2) (r, r)

/-- The edges in the order in which the update visits them. -/
def cfgEdges : List (ℕ × ℕ) :=
  (List.range blocks.length).flatMap fun j => (succsOf blocks j).map fun s => (j, s)

def EdgeRuns (b : ℕ) (e : ℕ × ℕ) (acc acc' : Option ℕ) : Prop :=
  if e.2 ≠ b ∨ idom e.1 = none then acc' = acc
  else match acc with
    | none => acc' = some e.1
    | some d => ∃ r, IntersectRuns rpoOf idom e.1 d r ∧ acc' = some r

def UpdateRuns (b : ℕ) (s s' : (ℕ → Option ℕ) × Bool) : Prop :=
  ∃ new, ForRuns (EdgeRuns rpoOf s.1 b) (cfgEdges blocks) none new ∧
    s' = match new with
      | none => s
      | some d => if s.1 b = some d then s else (Function.update s.1 b (some d), true)

def PassRuns (rpo : List ℕ) (s s' : (ℕ → Option ℕ) × Bool) : Prop :=
  ForRuns (UpdateRuns blocks rpo.idxOf) rpo.tail (s.1, false) s'

/-- `cfg_compute_dominators`: `while (changed)` around the pass. -/
def DominatorRuns (rpo : List ℕ) (idom : ℕ → Option ℕ) : Prop :=
  WhileRuns (fun s : (ℕ → Option ℕ) × Bool => s.2 = true) (PassRuns blocks rpo)
    (Function.update (fun _ => none) 0 (some 0), true) (idom, false)

/-- `cfg_dominates`; `none` stands for a negative `b`. -/
inductive DominatesRuns (dom : ℕ) : Option ℕ → Bool → Prop where
  | out : DominatesRuns dom none false
  | found : DominatesRuns dom (some dom) true
  | entry {b : ℕ} (hne : b ≠ dom) (hi : idom b = some b) : DominatesRuns dom (some b) false
  | up {b : ℕ} {r : Bool} (hne : b ≠ dom) (hi : idom b ≠ some b) (h : DominatesRuns dom (idom b) r) :
      DominatesRuns dom (some b) r

/-- The blocks that `cfg_rpo_visit` marks `reachable`. -/
def cfgMarked : List ℕ := (dfsVisit (succsOf blocks) (blocks.length + 2) 0 ([], [])).1

end Loops

section Unique

variable {blocks : List Block} {rpoOf : ℕ → ℕ} {idom : ℕ → Option ℕ}

theorem ClimbRuns.unique {bound b c c' : ℕ} (h : ClimbRuns rpoOf idom bound b c)
    (h' : ClimbRuns rpoOf idom bound b c') : c = c' :=
  WhileRuns.unique h h' fun _ _ _ hu hv => Option.some.inj (hu.symm.trans hv)

theorem IntersectRound.unique {p q q' : ℕ × ℕ} (h : IntersectRound rpoOf idom p q)
    (h' : IntersectRound rpoOf idom p q') : q = q' := by
  have heq := h.1.unique h'.1
  have h₂' := h'.2
  rw [← heq] at h₂'
  exact Prod.ext heq (h.2.unique h₂')

theorem IntersectRuns.unique {b1 b2 r r' : ℕ} (h : IntersectRuns rpoOf idom b1 b2 r)
    (h' : IntersectRuns rpoOf idom b1 b2 r') : r = r' :=
  congrArg Prod.fst (WhileRuns.unique h h' fun _ _ _ => IntersectRound.unique)

theorem EdgeRuns.unique {b : ℕ} {e : ℕ × ℕ} {acc u v : Option ℕ} (h : EdgeRuns rpoOf idom b e acc u)
    (h' : EdgeRuns rpoOf idom b e acc v) : u = v := by
  unfold EdgeRuns at h h'
  split at h
  · rename_i hc
    rw [if_pos hc] at h'
    rw [h, h']
  · rename_i hc
    rw [if_neg hc] at h'
    cases acc with
    | none => exact h.trans h'.symm
    | some d =>
      obtain ⟨r, hr, rfl⟩ := h
      obtain ⟨r', hr', rfl⟩ := h'
      rw [hr.unique hr']

theorem UpdateRuns.unique {b : ℕ} {s u v : (ℕ → Option ℕ) × Bool} (h : UpdateRuns blocks rpoOf b s u)
    (h' : UpdateRuns blocks rpoOf b s v) : u = v := by
  obtain ⟨n, hn, rfl⟩ := h
  obtain ⟨n', hn', rfl⟩ := h'
  rw [ForRuns.unique hn hn' fun _ _ _ _ => EdgeRuns.unique]

theorem DominatorRuns.unique {rpo : List ℕ} {idom' : ℕ → Option ℕ} (h : DominatorRuns blocks rpo idom)
    (h' : DominatorRuns blocks rpo idom') : idom = idom' :=
  congrArg Prod.fst (WhileRuns.unique h h' fun _ _ _ hu hv =>
    ForRuns.unique hu hv fun _ _ _ _ => UpdateRuns.unique)

theorem DominatesRuns.unique {dom : ℕ} {o : Option ℕ} {r r' : Bool} (h : DominatesRuns idom dom o r)
    (h' : DominatesRuns idom dom o r') : r = r' := by
  induction h with
  | out =>
    cases h'
    rfl
  | found =>
    cases h' with
    | found => rfl
    | entry hne => exact absurd rfl hne
    | up hne => exact absurd rfl hne
  | entry hne hi =>
    cases h' with
    | found => exact absurd rfl hne
    | entry => rfl
    | up _ hi' => exact absurd hi hi'
  | up hne hi _ ih =>
    cases h' with
    | found => exact absurd rfl hne
    | entry _ hi' => exact absurd hi' hi
    | up _ _ h' => exact ih h'

end Unique

section Intersect

variable {blocks : List Block} {rpo : List ℕ} {rpoOf : ℕ → ℕ} {idom : ℕ → Option ℕ} {b1 b2 d r : ℕ}

theorem climbRuns_stop {bound b : ℕ} (h : rpoOf b ≤ bound) : ClimbRuns rpoOf idom bound b b :=
  .exit (not_lt.mpr h)

/-- One more step of the first inner loop. -/
theorem IntersectRuns.climb_left (hgt : rpoOf b2 < rpoOf b1) (hd : idom b1 = some d)
    (h : IntersectRuns rpoOf idom d b2 r) : IntersectRuns rpoOf idom b1 b2 r := by
  have hne : b1 ≠ b2 := by
    rintro rfl
    exact lt_irrefl _ hgt
  cases h with
  | exit hc =>
    have hround : IntersectRound rpoOf idom (b1, b2) (b2, b2) :=
      ⟨.next hgt hd (climbRuns_stop le_rfl), climbRuns_stop le_rfl⟩
    exact .next hne hround (.exit hc)
  | next hc hb h => exact .next hne ⟨.next hgt hd hb.1, hb.2⟩ h

/-- One more step of the second inner loop, which may need a round of its own. -/
theorem IntersectRuns.climb_right (hgt : rpoOf b1 < rpoOf b2) (hd : idom b2 = some d)
    (h : IntersectRuns rpoOf idom b1 d r) : IntersectRuns rpoOf idom b1 b2 r := by
  have hne : b1 ≠ b2 := by
    rintro rfl
    exact lt_irrefl _ hgt
  have hstop : ClimbRuns rpoOf idom (rpoOf b2) b1 b1 := climbRuns_stop hgt.le
  cases h with
  | exit hc =>
    have hround : IntersectRound rpoOf idom (b1, b2) (b1, b1) :=
      ⟨hstop, .next hgt hd (climbRuns_stop le_rfl)⟩
    exact .next hne hround (.exit hc)
  | @next _ u _ hc hb h =>
    by_cases hlt : rpoOf d < rpoOf b1
    · have hround : IntersectRound rpoOf idom (b1, b2) (b1, d) :=
        ⟨hstop, .next hgt hd (climbRuns_stop hlt.le)⟩
      exact .next hne hround (.next hc hb h)
    · have hu : u.1 = b1 := hb.1.eq_of_not_cond hlt
      have hround : IntersectRound rpoOf idom (b1, b2) u := by
        have hclimb := hb.2
        unfold IntersectRound
        rw [hu] at hclimb ⊢
        exact ⟨hstop, .next hgt hd hclimb⟩
      exact .next hne hround h

theorem intersectRuns_cfgIntersect (hr : RpoFacts blocks rpo) (h : IdomInv blocks rpo idom) (fuel : ℕ)
    (h1 : ∃ d, idom b1 = some d) (h2 : ∃ d, idom b2 = some d)
    (hf : rpo.idxOf b1 + rpo.idxOf b2 < fuel) :
    IntersectRuns rpo.idxOf idom b1 b2 (cfgIntersect rpo.idxOf idom fuel b1 b2) := by
  have hzero : rpo.idxOf 0 = 0 := by rw [hr.eq_cons, List.idxOf_cons_self]
  induction fuel generalizing b1 b2 with
  | zero => omega
  | succ fuel ih =>
    obtain ⟨d1, h1⟩ := h1
    obtain ⟨d2, h2⟩ := h2
    rw [cfgIntersect]
    split
    · rename_i heq
      subst heq
      exact .exit fun hno => hno rfl
    rename_i hne
    split
    · rename_i hgt
      have hlt := h.lt b1 d1 h1 (by rintro rfl; omega)
      rw [h1, Option.getD_some]
      exact .climb_left hgt h1 (ih (h.defined b1 d1 h1) ⟨d2, h2⟩ (by omega))
    · rename_i hle
      have hlt : rpo.idxOf b1 < rpo.idxOf b2 := by
        refine lt_of_le_of_ne (not_lt.mp hle) fun heq => hne ?_
        exact hr.rank_inj (h.reach b1 d1 h1) heq
      have hlt2 := h.lt b2 d2 h2 (by rintro rfl; omega)
      rw [h2, Option.getD_some]
      exact .climb_right hlt h2 (ih ⟨d1, h1⟩ (h.defined b2 d2 h2) (by omega))

end Intersect

section Passes

variable {blocks : List Block} {rpo : List ℕ} {idom : ℕ → Option ℕ}

def edgeStep (blocks : List Block) (rpoOf : ℕ → ℕ) (idom : ℕ → Option ℕ) (b : ℕ) (acc : Option ℕ)
    (e : ℕ × ℕ) : Option ℕ :=
  if e.2 ≠ b then acc
  else if idom e.1 = none then acc
  else match acc with
    | none => some e.1
    | some d => some (cfgIntersect rpoOf idom (2 * blocks.length) e.1 d)

theorem newIdom_eq_foldl (rpoOf : ℕ → ℕ) (b : ℕ) :
    newIdom blocks rpoOf idom b = (cfgEdges blocks).foldl (edgeStep blocks rpoOf idom b) none := by
  rw [newIdom, cfgEdges, List.foldl_flatMap]
  congr 1
  funext acc j
  refine Eq.trans (congrArg (fun f => (succsOf blocks j).foldl f acc) ?_) List.foldl_map.symm
  funext acc s
  cases acc with
  | none => rfl
  | some d => rfl

theorem edgeRuns_newIdom (hr : RpoFacts blocks rpo) (h : IdomInv blocks rpo idom) (b : ℕ) :
    ForRuns (EdgeRuns rpo.idxOf idom b) (cfgEdges blocks) none (newIdom blocks rpo.idxOf idom b) := by
  rw [newIdom_eq_foldl]
  have hrank : ∀ v, (∃ d, idom v = some d) → rpo.idxOf v < blocks.length := fun v ⟨d, hd⟩ =>
    hr.rank_lt (h.reach v d hd)
  refine (forRuns_foldl (P := fun _ _ acc => ∀ d, acc = some d → ∃ d', idom d = some d') ?_ []
    (cfgEdges blocks) none fun d hd => by cases hd).1
  rintro l₁ ⟨j, s⟩ l₂ acc hacc
  unfold EdgeRuns edgeStep
  by_cases hs : s = b
  · by_cases hj : idom j = none
    · simp only [hs, hj, or_true, if_true, ne_eq, not_true_eq_false, if_false]
      exact ⟨trivial, hacc⟩
    · have hjd := Option.ne_none_iff_exists'.mp hj
      simp only [hs, hj, ne_eq, not_true_eq_false, or_false, if_false]
      cases acc with
      | none =>
        refine ⟨rfl, fun d hd => ?_⟩
        obtain rfl := Option.some.inj hd
        exact hjd
      | some d =>
        have hd := hacc d rfl
        have hlt : rpo.idxOf j + rpo.idxOf d < 2 * blocks.length := by
          have := hrank j hjd
          have := hrank d hd
          omega
        refine ⟨⟨_, intersectRuns_cfgIntersect hr h _ hjd hd hlt, rfl⟩, fun d' hd' => ?_⟩
        obtain rfl := Option.some.inj hd'
        exact h.climb_defined (cfgIntersect_spec hr h _ j d hjd hd hlt).1 hjd
  · simp only [ne_eq, hs, not_false_eq_true, true_or, if_true]
    exact ⟨trivial, hacc⟩

def flagUpdate (blocks : List Block) (rpo : List ℕ) (s : (ℕ → Option ℕ) × Bool) (b : ℕ) :
    (ℕ → Option ℕ) × Bool :=
  match newIdom blocks rpo.idxOf s.1 b with
  | none => s
  | some d => if s.1 b = some d then s else (Function.update s.1 b (some d), true)

theorem idomUpdate_of_same {rpoOf : ℕ → ℕ} {b : ℕ} (h : idomUpdate blocks rpoOf idom b b = idom b) :
    idomUpdate blocks rpoOf idom b = idom := by
  unfold idomUpdate at h ⊢
  cases hn : newIdom blocks rpoOf idom b with
  | none => rfl
  | some d =>
    rw [hn] at h
    dsimp only at h ⊢
    rw [Function.update_self] at h
    rw [h, Function.update_eq_self]

theorem flagUpdate_eq (idom : ℕ → Option ℕ) (c : Bool) (b : ℕ) :
    flagUpdate blocks rpo (idom, c) b = (idomUpdate blocks rpo.idxOf idom b,
      c || idomUpdate blocks rpo.idxOf idom b b != idom b) := by
  unfold flagUpdate idomUpdate
  cases newIdom blocks rpo.idxOf idom b with
  | none => simp
  | some d =>
    dsimp only
    split
    · rename_i hsame
      rw [← hsame, Function.update_eq_self]
      simp
    · rename_i hdiff
      have hne : (some d != idom b) = true := bne_iff_ne.mpr fun heq => hdiff heq.symm
      rw [Function.update_self, hne, Bool.or_true]

theorem foldl_flagUpdate_fst (l : List ℕ) (idom : ℕ → Option ℕ) (c : Bool) :
    (l.foldl (flagUpdate blocks rpo) (idom, c)).1 = l.foldl (idomUpdate blocks rpo.idxOf) idom := by
  induction l generalizing idom c with
  | nil => rfl
  | cons b l ih => rw [List.foldl_cons, List.foldl_cons, flagUpdate_eq, ih]

/-- The flag tells whether the pass changed a link, since it updates each block only once. -/
theorem foldl_flagUpdate_snd {l : List ℕ} (hn : l.Nodup) (idom : ℕ → Option ℕ) (c : Bool) :
    (l.foldl (flagUpdate blocks rpo) (idom, c)).2 = true ↔
      c = true ∨ l.foldl (idomUpdate blocks rpo.idxOf) idom ≠ idom := by
  induction l generalizing idom c with
  | nil => simp
  | cons b l ih =>
    obtain ⟨hb, hl⟩ := List.nodup_cons.mp hn
    rw [List.foldl_cons, List.foldl_cons, flagUpdate_eq, ih hl, Bool.or_eq_true, or_assoc, bne_iff_ne]
    by_cases hsame : idomUpdate blocks rpo.idxOf idom b b = idom b
    · rw [idomUpdate_of_same hsame]
      simp
    · have hend : l.foldl (idomUpdate blocks rpo.idxOf) (idomUpdate blocks rpo.idxOf idom b) ≠ idom := by
        intro heq
        have hkeep : l.foldl (idomUpdate blocks rpo.idxOf) (idomUpdate blocks rpo.idxOf idom b) b =
            idomUpdate blocks rpo.idxOf idom b b := foldl_idomUpdate_of_notMem hb
        rw [heq] at hkeep
        exact hsame hkeep.symm
      simp [hsame, hend]

/-- A pass ends, with the flag set exactly when it changed a link. -/
theorem passRuns_idomPass (hr : RpoFacts blocks rpo) (h : IdomInv blocks rpo idom) (c : Bool) :
    ∃ c', PassRuns blocks rpo (idom, c) (idomPass blocks rpo idom, c') ∧
      (c' = true ↔ idomPass blocks rpo idom ≠ idom) := by
  have hnd : rpo.tail.Nodup := hr.nodup.tail
  have hstart : PassInv blocks rpo 0 [] rpo.tail idom := .start hr h (by omega)
  have hstep : ∀ l₁ b l₂ s, PassInv blocks rpo 0 l₁ (b :: l₂) s.1 →
      UpdateRuns blocks rpo.idxOf b s (flagUpdate blocks rpo s b) ∧
        PassInv blocks rpo 0 (l₁ ++ [b]) l₂ (flagUpdate blocks rpo s b).1 := by
    rintro l₁ b l₂ ⟨i, c⟩ hP
    refine ⟨⟨_, edgeRuns_newIdom hr hP.inv b, rfl⟩, ?_⟩
    rw [flagUpdate_eq]
    exact hP.update hr
  have hrun := (forRuns_foldl (P := fun l₁ l₂ s => PassInv blocks rpo 0 l₁ l₂ s.1) hstep [] rpo.tail
    (idom, false) hstart).1
  have hfst : (rpo.tail.foldl (flagUpdate blocks rpo) (idom, false)).1 = idomPass blocks rpo idom :=
    foldl_flagUpdate_fst _ _ _
  refine ⟨(rpo.tail.foldl (flagUpdate blocks rpo) (idom, false)).2, ?_, ?_⟩
  · unfold PassRuns
    rw [← hfst]
    exact hrun
  · rw [foldl_flagUpdate_snd hnd]
    simp [idomPass]

/-- From a point where the pass has become stationary the loop stops there. -/
theorem whileRuns_iterate (hr : RpoFacts blocks rpo) (h : IdomInv blocks rpo idom) (n : ℕ)
    (hfix : (idomPass blocks rpo)^[n + 1] idom = (idomPass blocks rpo)^[n] idom) :
    WhileRuns (fun s : (ℕ → Option ℕ) × Bool => s.2 = true) (PassRuns blocks rpo) (idom, true)
      ((idomPass blocks rpo)^[n] idom, false) := by
  induction n generalizing idom with
  | zero =>
    obtain ⟨c, hrun, hc⟩ := passRuns_idomPass hr h true
    have hsame : idomPass blocks rpo idom = idom := hfix
    have hstop : c = false := by
      rw [← Bool.not_eq_true, hc]
      exact not_not.mpr hsame
    rw [hsame, hstop] at hrun
    exact .next rfl hrun (.exit (by simp))
  | succ n ih =>
    obtain ⟨c, hrun, hc⟩ := passRuns_idomPass hr h true
    by_cases hsame : idomPass blocks rpo idom = idom
    · have hstop : c = false := by
        rw [← Bool.not_eq_true, hc]
        exact not_not.mpr hsame
      rw [hsame, hstop] at hrun
      rw [Function.iterate_fixed hsame]
      exact .next rfl hrun (.exit (by simp))
    · obtain rfl : c = true := hc.mpr hsame
      exact .next rfl hrun (ih (iterate_idomPass hr h 0).1 hfix)

/-- The dominator loop ends with what `cfg_compute_dominators` is defined to give. -/
theorem dominatorRuns_cfgComputeDominators (hr : RpoFacts blocks rpo) :
    DominatorRuns blocks rpo (cfgComputeDominators blocks rpo) := by
  have hfix := idomPass_cfgComputeDominators hr
  rw [cfgComputeDominators, idomLoop_eq_iterate] at hfix ⊢
  rw [← Function.iterate_succ_apply' (idomPass blocks rpo)] at hfix
  exact whileRuns_iterate hr idomInv_init _ hfix

end Passes

section Result

variable {blocks : List Block} {rpo : List ℕ} {idom : ℕ → Option ℕ}

theorem dominatesRuns_cfgDominates (h : IsIdom blocks rpo idom) (d fuel b : ℕ)
    (hf : Reachable (Edge blocks) 0 b → rpo.idxOf b < fuel) (hpos : 0 < fuel) :
    DominatesRuns idom d (some b) (cfgDominates idom d fuel b) := by
  induction fuel generalizing b with
  | zero => omega
  | succ fuel ih =>
    rw [cfgDominates]
    by_cases hbd : b = d
    · rw [if_pos hbd, hbd]
      exact .found
    rw [if_neg hbd]
    cases hi : idom b with
    | none =>
      refine .up hbd (by simp [hi]) ?_
      rw [hi]
      exact .out
    | some i =>
      dsimp only
      by_cases hib : i = b
      · rw [if_pos hib]
        exact .entry hbd (by rw [hi, hib])
      rw [if_neg hib]
      refine .up hbd (by rw [hi]; exact fun heq => hib (Option.some.inj heq)) ?_
      have hb0 : b ≠ 0 := by
        rintro rfl
        exact hib (by simpa [h.root] using hi.symm)
      have hlt := h.lt b i hi hb0
      have hrank := hf (h.reach b i hi)
      rw [hi]
      exact ih i (fun _ => by omega) (by omega)

/-- What a built graph promises about reachability and dominance. -/
structure DominatorsCorrect (G : Cfg) : Prop where
  /-- The Cooper–Harvey–Kennedy loop ends, and with these links only. -/
  loop : ∀ idom, DominatorRuns G.blocks G.rpo idom ↔ idom = G.idom
  marked : ∀ b, b ∈ cfgMarked G.blocks ↔ Reachable (Edge G.blocks) 0 b
  dominates : ∀ b, Reachable (Edge G.blocks) 0 b → ∀ d,
    (DominatesRuns G.idom d (some b) true ↔ Dominates (Edge G.blocks) 0 d b) ∧
      (DominatesRuns G.idom d (some b) false ↔ ¬ Dominates (Edge G.blocks) 0 d b)
  backEdges : ∀ s t, Reachable (Edge G.blocks) 0 s → Reachable (Edge G.blocks) 0 t →
    ((s, t) ∈ G.backEdges ↔ Edge G.blocks s t ∧ Dominates (Edge G.blocks) 0 t s)

variable {D : Decoder} {text : Text} {textOffset : BitVec 32} {G : Cfg}

theorem mem_cfgMarked (hpos : 0 < blocks.length)
    (hclosed : ∀ a < blocks.length, ∀ b ∈ succsOf blocks a, b < blocks.length) (b : ℕ) :
    b ∈ cfgMarked blocks ↔ Reachable (Edge blocks) 0 b := by
  have hsub : ∀ a ∈ List.range blocks.length, ∀ b ∈ succsOf blocks a, b ∈ List.range blocks.length := by
    simpa only [List.mem_range] using hclosed
  have hvisited := dfsVisit_root_visited hsub (List.mem_range.mpr hpos)
    (by simp : (List.range blocks.length).length < blocks.length + 2) b
  exact hvisited.trans ((rpoFacts_of_closed hpos hclosed).mem_iff b)

/-- The dominators of every text that has a block graph are correct. -/
theorem dominators_correct (hne : text ≠ []) (hb : merlinCfgBuild D text textOffset = .ok G) :
    DominatorsCorrect G := by
  obtain ⟨leader, raw, bound, hbuilt⟩ := merlinCfgBuild_built hb
  have hpos := hbuilt.nblocks_pos hne
  have hr := hbuilt.rpoFacts hpos
  have hidom := hbuilt.isIdom hpos
  refine ⟨fun idom => ?_, ?_, fun b hreach d => ?_, fun s t hs _ => hbuilt.mem_backEdges hpos hs⟩
  · have hrun := dominatorRuns_cfgComputeDominators hr
    rw [← hbuilt.idom] at hrun
    exact ⟨fun h => h.unique hrun, fun h => h ▸ hrun⟩
  · refine mem_cfgMarked hpos fun a ha b hab => ?_
    rw [hbuilt.length_eq] at ha ⊢
    exact ((hbuilt.mem_succs ha).mp hab).1
  · have hfuel : G.rpo.idxOf b < G.blocks.length + 1 := (hr.rank_lt hreach).trans (by omega)
    have hrun := dominatesRuns_cfgDominates hidom d (G.blocks.length + 1) b (fun _ => hfuel) (by omega)
    have hiff := cfgDominates_iff hidom (d := d) (G.blocks.length + 1) b hreach hfuel
    cases hres : cfgDominates G.idom d (G.blocks.length + 1) b with
    | true =>
      rw [hres] at hrun
      have hdom := hiff.mp hres
      exact ⟨iff_of_true hrun hdom, iff_of_false (fun h => by cases h.unique hrun) (not_not.mpr hdom)⟩
    | false =>
      rw [hres] at hrun
      have hdom : ¬ Dominates (Edge G.blocks) 0 d b := fun h => by simp [hiff.mpr h] at hres
      exact ⟨iff_of_false (fun h => by cases h.unique hrun) hdom, iff_of_true hrun hdom⟩

/-- A loop entered at both of its blocks: a branch around a `nop` that the next branch returns
to. -/
def crossedText : Text := ofWords [0x00050463, 0x00000013, 0xfe050ee3, 0x00008067]

theorem crossedText_dominators : ∃ G, merlinCfgBuild merlinDecoder crossedText 0 = .ok G ∧
    DominatorsCorrect G := by
  have hok : (merlinCfgBuild merlinDecoder crossedText 0).isOk = true := by decide +kernel
  cases hb : merlinCfgBuild merlinDecoder crossedText 0 with
  | error e =>
    rw [hb] at hok
    cases hok
  | ok G => exact ⟨G, rfl, dominators_correct (by decide) hb⟩

end Result

end MerlinV
