import MerlinV.Lib.DepthFirst

/-! # Depth-first search with an explicit stack

The loop form of the search: look at the vertex on top of the stack, push its first
successor that has not been visited, or finish the vertex and pop it.  It finishes the same
vertices in the same order as the recursive search, in at most two steps for each.
-/
namespace MerlinV.Lib

variable {V : Type*} [DecidableEq V] (succs : V → List V)

def stackStep : List V × List V × List V → List V × List V × List V
  | ([], s) => ([], s)
  | (b :: rest, visited, post) =>
    let visited := if b ∈ visited then visited else b :: visited
    match (succs b).find? (· ∉ visited) with
    | some n => (n :: b :: rest, visited, post)
    | none => (rest, visited, b :: post)

variable {succs}

theorem stackStep_nil (s : List V × List V) : stackStep succs ([], s) = ([], s) := rfl

theorem iterate_stackStep_nil (k : ℕ) (s : List V × List V) : (stackStep succs)^[k] ([], s) = ([], s) :=
  Function.iterate_fixed (stackStep_nil s) k

theorem stackStep_push {b n : V} {rest : List V} {t : List V × List V} (hb : b ∈ t.1)
    (h : (succs b).find? (· ∉ t.1) = some n) : stackStep succs (b :: rest, t) = (n :: b :: rest, t) := by
  obtain ⟨visited, post⟩ := t
  simp only [stackStep, if_pos hb, h]

theorem stackStep_pop {b : V} {rest : List V} {t : List V × List V} (hb : b ∈ t.1)
    (h : (succs b).find? (· ∉ t.1) = none) : stackStep succs (b :: rest, t) = (rest, t.1, b :: t.2) := by
  obtain ⟨visited, post⟩ := t
  simp only [stackStep, if_pos hb, h]

/-- The first look at a vertex marks it and changes nothing else. -/
theorem stackStep_mark {b : V} {rest visited post : List V} (hb : b ∉ visited) :
    stackStep succs (b :: rest, visited, post) = stackStep succs (b :: rest, b :: visited, post) := by
  simp [stackStep, hb]

/-- What an iteration keeps: the stack holds vertices of the graph once each, all below the top
visited, and none of them is among the finished ones. -/
structure StackState (univ : List V) (s : List V × List V × List V) : Prop where
  stack_nodup : s.1.Nodup
  stack_mem : s.1 ⊆ univ
  stack_visited : s.1.tail ⊆ s.2.1
  post_nodup : s.2.2.Nodup
  post_mem : s.2.2 ⊆ univ
  post_visited : s.2.2 ⊆ s.2.1
  unfinished : ∀ v ∈ s.1, v ∉ s.2.2

theorem StackState.step {univ : List V} (hclosed : ∀ v ∈ univ, ∀ w ∈ succs v, w ∈ univ)
    {s : List V × List V × List V} (h : StackState univ s) : StackState univ (stackStep succs s) := by
  obtain ⟨stack, visited, post⟩ := s
  cases stack with
  | nil => exact h
  | cons b rest =>
    have hb : b ∈ univ := h.stack_mem List.mem_cons_self
    obtain ⟨hbrest, hrest⟩ := List.nodup_cons.mp h.stack_nodup
    have hvis : ∀ {v}, v ∈ visited → v ∈ if b ∈ visited then visited else b :: visited := by
      intro v hv
      split
      · exact hv
      · exact List.mem_cons_of_mem b hv
    have hbvis : b ∈ if b ∈ visited then visited else b :: visited := by
      split
      · assumption
      · exact List.mem_cons_self
    unfold stackStep
    dsimp only
    generalize (if b ∈ visited then visited else b :: visited) = visited' at hvis hbvis
    have hstack : b :: rest ⊆ visited' :=
      List.cons_subset.mpr ⟨hbvis, fun v hv => hvis (h.stack_visited hv)⟩
    have hpost : post ⊆ visited' := fun v hv => hvis (h.post_visited hv)
    cases hfind : (succs b).find? (· ∉ visited') with
    | some n =>
      have hn : n ∉ visited' := by simpa using List.find?_some hfind
      exact {
        stack_nodup := List.nodup_cons.mpr ⟨fun hmem => hn (hstack hmem), h.stack_nodup⟩
        stack_mem := List.cons_subset.mpr
          ⟨hclosed b hb n (List.mem_of_find?_eq_some hfind), h.stack_mem⟩
        stack_visited := hstack
        post_nodup := h.post_nodup
        post_mem := h.post_mem
        post_visited := hpost
        unfinished := by
          intro v hv
          rcases List.mem_cons.mp hv with rfl | hv
          · exact fun hmem => hn (hpost hmem)
          · exact h.unfinished v hv }
    | none =>
      exact {
        stack_nodup := hrest
        stack_mem := fun v hv => h.stack_mem (List.mem_cons_of_mem b hv)
        stack_visited := fun v hv => hvis (h.stack_visited (List.mem_of_mem_tail hv))
        post_nodup := List.nodup_cons.mpr ⟨h.unfinished b List.mem_cons_self, h.post_nodup⟩
        post_mem := List.cons_subset.mpr ⟨hb, h.post_mem⟩
        post_visited := List.cons_subset.mpr ⟨hbvis, hpost⟩
        unfinished := by
          intro v hv hmem
          rcases List.mem_cons.mp hmem with rfl | hmem
          · exact hbrest hv
          · exact h.unfinished v (List.mem_cons_of_mem b hv) hmem }

omit [DecidableEq V] in
theorem StackState.lengths {univ : List V} {s : List V × List V × List V} (h : StackState univ s) :
    s.1.length ≤ univ.length ∧ s.2.2.length ≤ univ.length :=
  ⟨(h.stack_nodup.subperm h.stack_mem).length_le, (h.post_nodup.subperm h.post_mem).length_le⟩

theorem dfsVisit_length (fuel : ℕ) (b : V) (s : List V × List V) :
    (dfsVisit succs fuel b s).1.length + s.2.length = (dfsVisit succs fuel b s).2.length + s.1.length := by
  induction fuel generalizing b s with
  | zero => exact Nat.add_comm _ _
  | succ fuel ih =>
    have hfold : ∀ (ns : List V) (t : List V × List V),
        (ns.foldl (fun s n => dfsVisit succs fuel n s) t).1.length + t.2.length =
          (ns.foldl (fun s n => dfsVisit succs fuel n s) t).2.length + t.1.length := by
      intro ns
      induction ns with
      | nil => exact fun t => Nat.add_comm _ _
      | cons n ns ihn =>
        intro t
        have h₁ := ih n t
        have h₂ := ihn (dfsVisit succs fuel n t)
        rw [List.foldl_cons]
        omega
    rw [dfsVisit]
    split
    · exact Nat.add_comm _ _
    · have := hfold (succs b) (b :: s.1, s.2)
      simp only [List.length_cons] at this ⊢
      omega

theorem mem_dfsVisit_of_mem {univ : List V} (hclosed : ∀ v ∈ univ, ∀ w ∈ succs v, w ∈ univ) {fuel : ℕ} {b : V}
    {s : List V × List V} (hb : b ∈ univ) (hfuel : unvisited univ s < fuel) :
    b ∈ (dfsVisit succs fuel b s).1 ∧ ∀ v ∈ s.1, v ∈ (dfsVisit succs fuel b s).1 := by
  obtain ⟨pre, h⟩ := dfsVisit_spec hclosed fuel b s hb hfuel
  exact ⟨h.roots_visited b (by simp), fun v hv => (h.visited v).mpr (.inr hv)⟩

/-- From a fresh vertex on top, the loop comes back to the rest of the stack with what the recursive
search leaves. -/
def StackVisits (succs : V → List V) (univ : List V) (fuel : ℕ) : Prop :=
  ∀ (b : V) (rest visited post : List V), b ∈ univ → b ∉ visited → unvisited univ (visited, post) < fuel →
    ∃ k, (stackStep succs)^[k] (b :: rest, visited, post) = (rest, dfsVisit succs fuel b (visited, post)) ∧
      k + 1 + 2 * visited.length = 2 * (dfsVisit succs fuel b (visited, post)).1.length

/-- The loop at a vertex whose successors in front of `ns` have been visited: it goes through the others
and pops the vertex. -/
theorem StackVisits.successors {univ : List V} (hclosed : ∀ v ∈ univ, ∀ w ∈ succs v, w ∈ univ) {fuel : ℕ}
    (hvisit : StackVisits succs univ fuel) {b : V} (hb : b ∈ univ) (rest ns done : List V) (t : List V × List V)
    (hsucc : succs b = done ++ ns) (hdone : ∀ n ∈ done, n ∈ t.1) (hbt : b ∈ t.1) (ht : unvisited univ t < fuel) :
    ∃ k, (stackStep succs)^[k] (b :: rest, t) =
        (rest, (ns.foldl (fun s n => dfsVisit succs fuel n s) t).1,
          b :: (ns.foldl (fun s n => dfsVisit succs fuel n s) t).2) ∧
      k + 2 * t.1.length = 2 * (ns.foldl (fun s n => dfsVisit succs fuel n s) t).1.length + 1 := by
  induction ns generalizing done t with
  | nil =>
    have hnone : (succs b).find? (· ∉ t.1) = none := by
      rw [List.find?_eq_none]
      intro n hn
      rw [hsucc, List.append_nil] at hn
      simpa using hdone n hn
    refine ⟨1, stackStep_pop hbt hnone, ?_⟩
    simp only [List.foldl_nil]
    omega
  | cons n ns ih =>
    have hn : n ∈ univ := hclosed b hb n (by rw [hsucc]; simp)
    have hsplit : succs b = (done ++ [n]) ++ ns := by
      rw [hsucc]
      simp
    have hnext : ∀ {u : List V × List V}, (∀ v ∈ t.1, v ∈ u.1) → n ∈ u.1 → ∀ m ∈ done ++ [n], m ∈ u.1 := by
      intro u hmono hnu m hm
      rcases List.mem_append.mp hm with hm | hm
      · exact hmono m (hdone m hm)
      · exact List.mem_singleton.mp hm ▸ hnu
    rw [List.foldl_cons]
    by_cases hnt : n ∈ t.1
    · have hsame : dfsVisit succs fuel n t = t := by
        cases fuel with
        | zero => rfl
        | succ fuel => rw [dfsVisit, if_pos hnt]
      rw [hsame]
      exact ih (done ++ [n]) t hsplit (hnext (fun _ hv => hv) hnt) hbt ht
    · have hfind : (succs b).find? (· ∉ t.1) = some n := by
        have hnone : done.find? (· ∉ t.1) = none := by
          rw [List.find?_eq_none]
          intro m hm
          simpa using hdone m hm
        rw [hsucc, List.find?_append, hnone, Option.none_or, List.find?_cons_of_pos (by simpa using hnt)]
      obtain ⟨k₁, hk₁, hlen₁⟩ := hvisit n (b :: rest) t.1 t.2 hn hnt ht
      rw [Prod.mk.eta] at hk₁ hlen₁
      obtain ⟨hmem, hmono⟩ := mem_dfsVisit_of_mem hclosed hn ht
      have hle := unvisited_le univ hmono
      obtain ⟨k₂, hk₂, hlen₂⟩ := ih (done ++ [n]) (dfsVisit succs fuel n t) hsplit (hnext hmono hmem)
        (hmono b hbt) (by omega)
      refine ⟨k₂ + k₁ + 1, ?_, ?_⟩
      · rw [Function.iterate_succ_apply, stackStep_push hbt hfind, Function.iterate_add_apply, hk₁, hk₂]
      · omega

theorem stackVisits {univ : List V} (hclosed : ∀ v ∈ univ, ∀ w ∈ succs v, w ∈ univ) (fuel : ℕ) :
    StackVisits succs univ fuel := by
  induction fuel with
  | zero =>
    intro b rest visited post _ _ h
    omega
  | succ fuel ih =>
    intro b rest visited post hb hfresh hfuel
    have hlt : unvisited univ (b :: visited, post) < unvisited univ (visited, post) :=
      unvisited_lt (s := (visited, post)) hb hfresh post
    obtain ⟨k, hk, hlen⟩ := ih.successors hclosed hb rest (succs b) [] (b :: visited, post) rfl (by simp)
      (by simp) (by omega)
    rw [dfsVisit, if_neg hfresh]
    obtain _ | k := k
    · simp at hk
    · refine ⟨k + 1, ?_, ?_⟩
      · rw [Function.iterate_succ_apply, stackStep_mark hfresh, ← Function.iterate_succ_apply]
        exact hk
      · simp only [List.length_cons] at hlen ⊢
        omega

/-- The loop from a root, run for twice the number of vertices, finishes what the search finishes. -/
theorem iterate_stackStep_root {univ : List V} (hclosed : ∀ v ∈ univ, ∀ w ∈ succs v, w ∈ univ) {root : V}
    (hroot : root ∈ univ) {fuel k : ℕ} (hfuel : univ.length < fuel) (hk : 2 * univ.length ≤ k) :
    (stackStep succs)^[k] ([root], [], []) = ([], dfsVisit succs fuel root ([], [])) := by
  have hstart : unvisited univ (([] : List V), ([] : List V)) < fuel :=
    (List.length_filter_le _ _).trans_lt hfuel
  obtain ⟨n, hn, hlen⟩ := stackVisits hclosed fuel root [] [] [] hroot (by simp) hstart
  obtain ⟨hnodup, hreach, -⟩ := dfsVisit_root hclosed hroot hfuel
  have hsub : (dfsVisit succs fuel root ([], [])).2 ⊆ univ := by
    intro v hv
    obtain ⟨l, hl⟩ := (hreach v).mp hv
    induction hl with
    | start => exact hroot
    | snoc hw he ih => exact hclosed _ (ih ((hreach _).mpr ⟨_, hw⟩)) _ he
  have hle := (hnodup.subperm hsub).length_le
  have hcount := @dfsVisit_length _ _ succs fuel root ([], [])
  obtain ⟨m, rfl⟩ : ∃ m, k = m + n := ⟨k - n, by
    simp only [List.length_nil] at hlen hcount
    omega⟩
  rw [Function.iterate_add_apply, hn, iterate_stackStep_nil]

end MerlinV.Lib
