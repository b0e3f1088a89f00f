import MerlinV.Lib.Dominance

/-! # Depth-first search and reverse postorder

The recursive search over successor lists, with the finished vertices newest first.
Started at a root with enough fuel, the finished list is a reverse postorder: it holds
the reachable vertices once each, and every one but the root comes after a predecessor.
-/
namespace MerlinV.Lib

variable {V : Type*} (succs : V → List V)

/-- Visit `b`: the pair holds the visited vertices and the finished ones. -/
def dfsVisit [DecidableEq V] : ℕ → V → List V × List V → List V × List V
  | 0, _, s => s
  | fuel + 1, b, s =>
    if b ∈ s.1 then s
    else
      let s' := (succs b).foldl (fun s n => dfsVisit fuel n s) (b :: s.1, s.2)
      (s'.1, b :: s'.2)

/-- What a search from the vertices `roots` does to the state: `pre` is what it finished. -/
structure DfsStep (roots : List V) (s s' : List V × List V) (pre : List V) : Prop where
  post : s'.2 = pre ++ s.2
  visited : ∀ v, v ∈ s'.1 ↔ v ∈ pre ∨ v ∈ s.1
  nodup : pre.Nodup
  fresh : ∀ v ∈ pre, v ∉ s.1
  closed : ∀ v ∈ pre, ∀ w ∈ succs v, w ∈ s'.1
  parent : ∀ v ∈ pre, v ∈ roots ∨ ∃ u, v ∈ succs u ∧ [u, v].Sublist pre
  roots_visited : ∀ r ∈ roots, r ∈ s'.1

variable {succs}

theorem DfsStep.refl (s : List V × List V) : DfsStep succs [] s s [] where
  post := rfl
  visited := by simp
  nodup := List.nodup_nil
  fresh := by simp
  closed := by simp
  parent := by simp
  roots_visited := by simp

theorem DfsStep.trans {r₁ r₂ : List V} {s₀ s₁ s₂ : List V × List V} {p₁ p₂ : List V}
    (h₁ : DfsStep succs r₁ s₀ s₁ p₁) (h₂ : DfsStep succs r₂ s₁ s₂ p₂) :
    DfsStep succs (r₁ ++ r₂) s₀ s₂ (p₂ ++ p₁) where
  post := by rw [h₂.post, h₁.post, List.append_assoc]
  visited v := by
    rw [h₂.visited, h₁.visited, List.mem_append, or_assoc]
  nodup := by
    refine List.nodup_append.mpr ⟨h₂.nodup, h₁.nodup, fun a ha b hb hab => ?_⟩
    subst hab
    exact h₂.fresh a ha ((h₁.visited a).mpr (.inl hb))
  fresh v hv hs := by
    rcases List.mem_append.mp hv with hv | hv
    · exact h₂.fresh v hv ((h₁.visited v).mpr (.inr hs))
    · exact h₁.fresh v hv hs
  closed v hv w hw := by
    rcases List.mem_append.mp hv with hv | hv
    · exact h₂.closed v hv w hw
    · exact (h₂.visited w).mpr (.inr (h₁.closed v hv w hw))
  parent v hv := by
    rcases List.mem_append.mp hv with hv | hv
    · rcases h₂.parent v hv with h | ⟨u, hu, hsub⟩
      · exact .inl (List.mem_append.mpr (.inr h))
      · exact .inr ⟨u, hu, hsub.trans (List.sublist_append_left _ _)⟩
    · rcases h₁.parent v hv with h | ⟨u, hu, hsub⟩
      · exact .inl (List.mem_append.mpr (.inl h))
      · exact .inr ⟨u, hu, hsub.trans (List.sublist_append_right _ _)⟩
  roots_visited r hr := by
    rcases List.mem_append.mp hr with hr | hr
    · exact (h₂.visited r).mpr (.inr (h₁.roots_visited r hr))
    · exact h₂.roots_visited r hr

variable [DecidableEq V]

def unvisited (univ : List V) (s : List V × List V) : ℕ := (univ.filter (· ∉ s.1)).length

theorem unvisited_le (univ : List V) {s s' : List V × List V} (h : ∀ v ∈ s.1, v ∈ s'.1) :
    unvisited univ s' ≤ unvisited univ s := by
  apply List.Sublist.length_le
  apply List.monotone_filter_right
  intro v hv
  simp only [decide_eq_true_eq] at hv ⊢
  exact fun hm => hv (h v hm)

theorem unvisited_lt {univ : List V} {s : List V × List V} {b : V} (hb : b ∈ univ)
    (hs : b ∉ s.1) (p : List V) : unvisited univ (b :: s.1, p) < unvisited univ s := by
  have hsub : univ.filter (· ∉ b :: s.1) = (univ.filter (· ∉ s.1)).filter (· ≠ b) := by
    rw [List.filter_filter]
    apply List.filter_congr
    intro v _
    simp [not_or]
  have hmem : b ∈ univ.filter (· ∉ s.1) := by simp [hb, hs]
  unfold unvisited
  rw [hsub]
  exact List.length_filter_lt_length_iff_exists.mpr ⟨b, hmem, by simp⟩

/-- With fuel for every unvisited vertex, a visit runs to its end. -/
theorem dfsVisit_spec {univ : List V} (hclosed : ∀ v ∈ univ, ∀ w ∈ succs v, w ∈ univ) :
    ∀ (fuel : ℕ) (b : V) (s : List V × List V), b ∈ univ → unvisited univ s < fuel →
      ∃ pre, DfsStep succs [b] s (dfsVisit succs fuel b s) pre := by
  intro fuel
  induction fuel with
  | zero =>
    intro b s _ h
    omega
  | succ fuel ih =>
    intro b s hb hfuel
    -- the successors are visited one after another, each with the fuel that is left
    have hfold : ∀ (ns : List V) (t : List V × List V), (∀ n ∈ ns, n ∈ univ) →
        unvisited univ t < fuel →
        ∃ pre, DfsStep succs ns t (ns.foldl (fun s n => dfsVisit succs fuel n s) t) pre := by
      intro ns
      induction ns with
      | nil => exact fun t _ _ => ⟨[], DfsStep.refl t⟩
      | cons n ns ihn =>
        intro t hns ht
        obtain ⟨p, hp⟩ := ih n t (hns n (by simp)) ht
        have hle := unvisited_le univ fun v hv => (hp.visited v).mpr (.inr hv)
        obtain ⟨q, hq⟩ := ihn (dfsVisit succs fuel n t)
          (fun m hm => hns m (List.mem_cons_of_mem _ hm)) (by omega)
        exact ⟨q ++ p, hp.trans hq⟩
    by_cases hbs : b ∈ s.1
    · refine ⟨[], ?_⟩
      rw [dfsVisit, if_pos hbs]
      exact { (DfsStep.refl s : DfsStep succs [] s s []) with
        parent := by simp
        roots_visited := by simpa using hbs }
    · have hlt := unvisited_lt hb hbs s.2
      obtain ⟨p, hp⟩ := hfold (succs b) (b :: s.1, s.2) (hclosed b hb) (by omega)
      refine ⟨b :: p, ?_⟩
      rw [dfsVisit, if_neg hbs]
      refine ⟨by simp [hp.post], fun v => ?_, ?_, ?_, ?_, ?_, ?_⟩
      · rw [hp.visited v]
        simp only [List.mem_cons]
        tauto
      · exact List.nodup_cons.mpr ⟨fun h => hp.fresh b h (by simp), hp.nodup⟩
      · intro v hv
        rcases List.mem_cons.mp hv with rfl | hv
        · exact hbs
        · exact fun h => hp.fresh v hv (List.mem_cons_of_mem _ h)
      · intro v hv w hw
        rcases List.mem_cons.mp hv with rfl | hv
        · exact hp.roots_visited w hw
        · exact hp.closed v hv w hw
      · intro v hv
        rcases List.mem_cons.mp hv with rfl | hv
        · exact .inl (by simp)
        · right
          rcases hp.parent v hv with h | ⟨u, hu, hsub⟩
          · exact ⟨b, h, (List.singleton_sublist.mpr hv).cons_cons b⟩
          · exact ⟨u, hu, hsub.trans (List.sublist_cons_self _ _)⟩
      · intro r hr
        obtain rfl := List.mem_singleton.mp hr
        exact (hp.visited r).mpr (.inr (by simp))

/-- What a search keeps of its state: finished vertices are visited, once each, and all of them
lie in the graph. -/
structure DfsState (univ : List V) (s : List V × List V) : Prop where
  nodup : s.2.Nodup
  visited : s.2 ⊆ s.1
  mem : s.1 ⊆ univ

omit [DecidableEq V] in
/-- A visited vertex that is not finished leaves room for itself. -/
theorem DfsState.length_lt {univ : List V} {s : List V × List V} (h : DfsState univ s) {b : V}
    (hb : b ∈ s.1) (hnot : b ∉ s.2) : s.2.length < univ.length := by
  have hnodup : (b :: s.2).Nodup := List.nodup_cons.mpr ⟨hnot, h.nodup⟩
  have hsub : b :: s.2 ⊆ univ := by
    intro v hv
    rcases List.mem_cons.mp hv with rfl | hv
    · exact h.mem hb
    · exact h.mem (h.visited hv)
  exact (hnodup.subperm hsub).length_le

theorem dfsVisit_subset {univ : List V} (hclosed : ∀ v ∈ univ, ∀ w ∈ succs v, w ∈ univ) (fuel : ℕ)
    {b : V} {s : List V × List V} (hb : b ∈ univ) (hs : s.1 ⊆ univ) :
    (dfsVisit succs fuel b s).1 ⊆ univ := by
  induction fuel generalizing b s with
  | zero => exact hs
  | succ fuel ih =>
    have hfold : ∀ (ns : List V) (t : List V × List V), (∀ n ∈ ns, n ∈ univ) → t.1 ⊆ univ →
        (ns.foldl (fun s n => dfsVisit succs fuel n s) t).1 ⊆ univ := by
      intro ns
      induction ns with
      | nil => exact fun t _ ht => ht
      | cons n ns ihn =>
        intro t hns ht
        apply ihn
        · exact fun m hm => hns m (List.mem_cons_of_mem n hm)
        · exact ih (hns n List.mem_cons_self) ht
    rw [dfsVisit]
    split
    · exact hs
    · exact hfold _ _ (hclosed b hb) (List.cons_subset.mpr ⟨hb, hs⟩)

/-- A visit keeps the state, forgets no visited vertex and finishes none of them. -/
theorem DfsState.dfsVisit {univ : List V} (hclosed : ∀ v ∈ univ, ∀ w ∈ succs v, w ∈ univ) {fuel : ℕ}
    {b : V} {s : List V × List V} (h : DfsState univ s) (hb : b ∈ univ) (hfuel : unvisited univ s < fuel) :
    DfsState univ (dfsVisit succs fuel b s) ∧ (∀ v ∈ s.1, v ∈ (Lib.dfsVisit succs fuel b s).1) ∧
      ∀ v ∈ s.1, v ∉ s.2 → v ∉ (Lib.dfsVisit succs fuel b s).2 := by
  obtain ⟨pre, hstep⟩ := dfsVisit_spec hclosed fuel b s hb hfuel
  refine ⟨⟨?_, ?_, dfsVisit_subset hclosed fuel hb h.mem⟩, ?_, ?_⟩
  · rw [hstep.post]
    refine List.nodup_append.mpr ⟨hstep.nodup, h.nodup, fun v hv w hw hvw => ?_⟩
    exact hstep.fresh v hv (h.visited (hvw ▸ hw))
  · intro v hv
    rw [hstep.post, List.mem_append] at hv
    exact (hstep.visited v).mpr (hv.imp_right fun hv => h.visited hv)
  · exact fun v hv => (hstep.visited v).mpr (.inr hv)
  · intro v hv hnot hmem
    rw [hstep.post, List.mem_append] at hmem
    rcases hmem with hmem | hmem
    · exact hstep.fresh v hmem hv
    · exact hnot hmem

/-- In a list without repetitions the order of two members is the order of their indices. -/
theorem idxOf_lt_of_sublist {l : List V} (hn : l.Nodup) {u v : V} (h : [u, v].Sublist l) :
    l.idxOf u < l.idxOf v := by
  induction l with
  | nil => cases h
  | cons a l ih =>
    rw [List.nodup_cons] at hn
    cases h with
    | cons _ h =>
      have hu : u ∈ l := h.subset (by simp)
      have hv : v ∈ l := h.subset (by simp)
      have hua : a ≠ u := fun h => hn.1 (h ▸ hu)
      have hva : a ≠ v := fun h => hn.1 (h ▸ hv)
      rw [List.idxOf_cons_ne _ hua, List.idxOf_cons_ne _ hva]
      have := ih hn.2 h
      omega
    | cons_cons _ h =>
      have hv : v ∈ l := List.singleton_sublist.mp h
      have hva : u ≠ v := fun h => hn.1 (h ▸ hv)
      rw [List.idxOf_cons_self, List.idxOf_cons_ne _ hva]
      omega

/-- The search from a root finishes exactly the reachable vertices, parents first. -/
theorem dfsVisit_root {univ : List V} (hclosed : ∀ v ∈ univ, ∀ w ∈ succs v, w ∈ univ)
    {root : V} (hroot : root ∈ univ) {fuel : ℕ} (hfuel : univ.length < fuel) :
    let post := (dfsVisit succs fuel root ([], [])).2
    post.Nodup ∧ (∀ v, v ∈ post ↔ Reachable (fun a b => b ∈ succs a) root v) ∧
      ParentRank (fun a b => b ∈ succs a) root post.idxOf := by
  intro post
  obtain ⟨pre, h⟩ := dfsVisit_spec hclosed fuel root ([], []) hroot
    ((List.length_filter_le _ _).trans_lt hfuel)
  have hpost : post = pre := by simp [post, h.post]
  have hvis : ∀ v, v ∈ (dfsVisit succs fuel root ([], [])).1 ↔ v ∈ pre := by simp [h.visited]
  -- every finished vertex is the root or has an earlier finished predecessor
  have hpar : ∀ v ∈ pre, v = root ∨ ∃ u ∈ pre, v ∈ succs u ∧ pre.idxOf u < pre.idxOf v := by
    intro v hv
    rcases h.parent v hv with hr | ⟨u, hu, hsub⟩
    · exact .inl (List.mem_singleton.mp hr)
    · exact .inr ⟨u, hsub.subset (by simp), hu, idxOf_lt_of_sublist h.nodup hsub⟩
  have hsound : ∀ v ∈ pre, Reachable (fun a b => b ∈ succs a) root v := by
    intro v
    induction hn : pre.idxOf v using Nat.strong_induction_on generalizing v with
    | _ n ih =>
      subst hn
      intro hv
      rcases hpar v hv with rfl | ⟨u, hu, huv, hlt⟩
      · exact reachable_root
      · exact (ih _ hlt u rfl hu).step huv
  have hcomplete : ∀ v l, Walk (fun a b => b ∈ succs a) root v l → v ∈ pre := by
    intro v l hw
    induction hw with
    | start => exact (hvis root).mp (h.roots_visited root (by simp))
    | snoc _ he ih => exact (hvis _).mp (h.closed _ ih _ he)
  rw [hpost]
  refine ⟨h.nodup, fun v => ⟨hsound v, fun ⟨l, hl⟩ => hcomplete v l hl⟩, fun b hb hne => ?_⟩
  obtain ⟨l, hl⟩ := hb
  rcases hpar b (hcomplete b l hl) with hbr | ⟨u, hu, hub, hlt⟩
  · exact absurd hbr hne
  · exact ⟨u, hsound u hu, hub, hlt⟩

theorem dfsVisit_root_visited {univ : List V} (hclosed : ∀ v ∈ univ, ∀ w ∈ succs v, w ∈ univ)
    {root : V} (hroot : root ∈ univ) {fuel : ℕ} (hfuel : univ.length < fuel) (v : V) :
    v ∈ (dfsVisit succs fuel root ([], [])).1 ↔ v ∈ (dfsVisit succs fuel root ([], [])).2 := by
  obtain ⟨pre, h⟩ := dfsVisit_spec hclosed fuel root ([], []) hroot
    ((List.length_filter_le _ _).trans_lt hfuel)
  rw [h.visited, h.post]
  simp

end MerlinV.Lib
