import Mathlib.Tactic
import Mathlib.Data.Fintype.Card

/-! # Walks and dominance in a rooted directed graph

A walk is recorded with its vertices, newest first.  Besides dominance itself the
development below needs dominance restricted to the walks with few *retreating* edges
(edges that do not increase a given rank): an iteration that visits the vertices by
increasing rank computes it one retreating edge at a time.
-/
namespace MerlinV.Lib

variable {V : Type*} (E : V → V → Prop) (root : V)

/-- `Walk E root b l`: `l` lists a walk from `root` to `b`, beginning with `b`. -/
inductive Walk : V → List V → Prop where
  | start : Walk root [root]
  | snoc {a b : V} {l : List V} : Walk a l → E a b → Walk b (b :: l)

def Reachable (b : V) : Prop := ∃ l, Walk E root b l

/-- Every walk from the root to `b` passes through `d`. -/
def Dominates (d b : V) : Prop := ∀ l, Walk E root b l → d ∈ l

variable {E root}

theorem Walk.end_mem {b : V} {l : List V} (h : Walk E root b l) : b ∈ l := by
  cases h <;> simp

theorem Walk.prefix_to {b x : V} {l : List V} (h : Walk E root b l) (hx : x ∈ l) :
    ∃ l', Walk E root x l' ∧ l' <:+ l := by
  induction h with
  | start =>
    obtain rfl := List.mem_singleton.mp hx
    exact ⟨_, .start, List.suffix_rfl⟩
  | snoc hw he ih =>
    rcases List.mem_cons.mp hx with rfl | hx
    · exact ⟨_, .snoc hw he, List.suffix_rfl⟩
    · obtain ⟨l', hl', hs⟩ := ih hx
      exact ⟨l', hl', hs.trans (List.suffix_cons _ _)⟩

/-- Cutting the detours of a walk leaves one without repetitions. -/
theorem Walk.exists_nodup {b : V} {l : List V} (h : Walk E root b l) :
    ∃ l', Walk E root b l' ∧ l'.Nodup ∧ l' ⊆ l := by
  classical
  induction h with
  | start => exact ⟨[root], .start, by simp, List.Subset.refl _⟩
  | @snoc a b l hw he ih =>
    obtain ⟨l', hl', hn, hsub⟩ := ih
    by_cases hb : b ∈ l'
    · obtain ⟨m, hm, hsuf⟩ := hl'.prefix_to hb
      exact ⟨m, hm, hn.sublist hsuf.sublist,
        fun y hy => List.mem_cons_of_mem _ (hsub (hsuf.subset hy))⟩
    · exact ⟨b :: l', .snoc hl' he, List.nodup_cons.mpr ⟨hb, hn⟩, List.cons_subset_cons _ hsub⟩

theorem reachable_root : Reachable E root root := ⟨[root], .start⟩

theorem Reachable.step {a b : V} (h : Reachable E root a) (he : E a b) : Reachable E root b := by
  obtain ⟨l, hl⟩ := h
  exact ⟨b :: l, hl.snoc he⟩

theorem dominates_refl (b : V) : Dominates E root b b := fun _ h => h.end_mem

theorem Dominates.trans {a b c : V} (hab : Dominates E root a b) (hbc : Dominates E root b c) :
    Dominates E root a c := by
  intro l hl
  obtain ⟨l', hl', hs⟩ := hl.prefix_to (hbc l hl)
  exact hs.subset (hab l' hl')

theorem eq_root_of_dominates_root {d : V} (h : Dominates E root d root) : d = root :=
  List.mem_singleton.mp (h _ .start)

theorem Dominates.of_edge {d a b : V} (h : Dominates E root d b) (hne : d ≠ b) (he : E a b) :
    Dominates E root d a := by
  intro l hl
  exact (List.mem_cons.mp (h _ (hl.snoc he))).resolve_left hne

section Rank

variable (E root) in
/-- Every reachable vertex but the root has an edge from a reachable vertex of smaller rank,
as the parents in a depth-first search provide. -/
def ParentRank (rank : V → ℕ) : Prop :=
  ∀ b, Reachable E root b → b ≠ root → ∃ a, Reachable E root a ∧ E a b ∧ rank a < rank b

variable {rank : V → ℕ}

theorem rank_le_of_dominates (hp : ParentRank E root rank) {d : V} :
    ∀ {b : V}, Reachable E root b → Dominates E root d b → rank d ≤ rank b := by
  intro b
  induction hn : rank b using Nat.strong_induction_on generalizing b with
  | _ n ih =>
    subst hn
    intro hb hd
    by_cases hdb : d = b
    · rw [hdb]
    · by_cases hbr : b = root
      · subst hbr
        exact absurd (eq_root_of_dominates_root hd) hdb
      · obtain ⟨a, ha, he, hlt⟩ := hp b hb hbr
        exact (ih (rank a) hlt rfl ha (hd.of_edge hdb he)).trans hlt.le

variable (rank) in
def retreats : List V → ℕ
  | b :: a :: l => retreats (a :: l) + if rank a < rank b then 0 else 1
  | _ => 0

theorem retreats_le_cons (b : V) (l : List V) : retreats rank l ≤ retreats rank (b :: l) := by
  cases l with
  | nil => simp [retreats]
  | cons a l => simp [retreats]

theorem retreats_le_of_suffix {l l' : List V} (h : l' <:+ l) :
    retreats rank l' ≤ retreats rank l := by
  obtain ⟨m, rfl⟩ := h
  induction m with
  | nil => simp
  | cons b m ih => exact ih.trans (retreats_le_cons _ _)

variable (rank) in
theorem retreats_cons_le_length (b : V) (l : List V) : retreats rank (b :: l) ≤ l.length := by
  induction l generalizing b with
  | nil => simp [retreats]
  | cons a l ih =>
    have := ih a
    simp only [retreats, List.length_cons]
    split <;> omega

variable (E root rank) in
def DominatesUpTo (k : ℕ) (d b : V) : Prop :=
  ∀ l, Walk E root b l → retreats rank l ≤ k → d ∈ l

theorem DominatesUpTo.mono {j k : ℕ} {d b : V} (h : DominatesUpTo E root rank k d b)
    (hjk : j ≤ k) : DominatesUpTo E root rank j d b :=
  fun l hl hr => h l hl (hr.trans hjk)

theorem dominatesUpTo_refl (k : ℕ) (b : V) : DominatesUpTo E root rank k b b :=
  fun _ h _ => h.end_mem

theorem DominatesUpTo.trans {k : ℕ} {a b c : V} (hab : DominatesUpTo E root rank k a b)
    (hbc : DominatesUpTo E root rank k b c) : DominatesUpTo E root rank k a c := by
  intro l hl hr
  obtain ⟨l', hl', hs⟩ := hl.prefix_to (hbc l hl hr)
  exact hs.subset (hab l' hl' ((retreats_le_of_suffix hs).trans hr))

/-- The dominance of `d` over `b` is decided edge by edge: forward edges keep the budget of
retreating edges, the others use one of it. -/
theorem dominatesUpTo_of_edges {k : ℕ} {d b : V} (hb : b ≠ root)
    (hfwd : ∀ a, Reachable E root a → E a b → rank a < rank b → DominatesUpTo E root rank k d a)
    (hret : ∀ a, Reachable E root a → E a b → 1 ≤ k → DominatesUpTo E root rank (k - 1) d a) :
    DominatesUpTo E root rank k d b := by
  intro l hl hr
  cases hl with
  | start => exact absurd rfl hb
  | @snoc a _ l hw he =>
    have ha : Reachable E root a := ⟨l, hw⟩
    have hd : d ∈ l := by
      obtain ⟨m, hm⟩ : ∃ m, l = a :: m := by cases hw <;> exact ⟨_, rfl⟩
      rw [hm] at hr
      simp only [retreats] at hr
      by_cases hlt : rank a < rank b
      · refine hfwd a ha he hlt l hw ?_
        rw [if_pos hlt] at hr
        rw [hm]
        omega
      · rw [if_neg hlt] at hr
        refine hret a ha he (by omega) l hw ?_
        rw [hm]
        omega
    exact List.mem_cons_of_mem _ hd

/-- With a budget for every vertex the restriction to few retreating edges is void. -/
theorem Dominates.of_upTo {n : ℕ} {d b : V} {s : List V} (hs : ∀ v, Reachable E root v → v ∈ s)
    (hn : s.length ≤ n + 1) (h : DominatesUpTo E root rank n d b) : Dominates E root d b := by
  classical
  intro l hl
  obtain ⟨l', hl', hnd, hsub⟩ := hl.exists_nodup
  have hmem : l' ⊆ s := by
    intro v hv
    obtain ⟨m, hm, -⟩ := hl'.prefix_to hv
    exact hs v ⟨m, hm⟩
  have hlen : l'.length ≤ s.length := (hnd.subperm hmem).length_le
  refine hsub (h l' hl' ?_)
  cases l' with
  | nil => cases hl'
  | cons a m =>
    have := retreats_cons_le_length rank a m
    simp only [List.length_cons] at hlen
    omega

end Rank

section Cycles

variable (E) in
/-- A cycle, listed along its edges; the last vertex has an edge to the first. -/
def IsCycle (c : List V) : Prop :=
  ∃ v l, c = v :: l ∧ List.IsChain E (v :: l) ∧ E ((v :: l).getLast (by simp)) v

variable (E root) in
def CycleEntry (c : List V) (e : V) : Prop :=
  e ∈ c ∧ ∃ l, Walk E root e (e :: l) ∧ ∀ v ∈ l, v ∉ c

variable (E root) in
/-- Some cycle of reachable vertices has two entries neither of which dominates the other. -/
def Irreducible : Prop :=
  ∃ c, IsCycle E c ∧ (∀ v ∈ c, Reachable E root v) ∧ ∃ e f, CycleEntry E root c e ∧
    CycleEntry E root c f ∧ ¬ Dominates E root e f ∧ ¬ Dominates E root f e

/-- A walk that meets the cycle meets it first in an entry. -/
theorem exists_cycleEntry {c : List V} {b : V} {l : List V} (h : Walk E root b l)
    (hm : ∃ v ∈ l, v ∈ c) : ∃ e ∈ l, CycleEntry E root c e := by
  classical
  induction h with
  | start =>
    obtain ⟨v, hv, hc⟩ := hm
    obtain rfl := List.mem_singleton.mp hv
    exact ⟨v, by simp, hc, [], .start, by simp⟩
  | @snoc a b l hw he ih =>
    by_cases hl : ∃ v ∈ l, v ∈ c
    · obtain ⟨e, hel, hec⟩ := ih hl
      exact ⟨e, List.mem_cons_of_mem _ hel, hec⟩
    · obtain ⟨v, hv, hvc⟩ := hm
      rcases List.mem_cons.mp hv with rfl | hv
      · exact ⟨v, by simp, hvc, l, .snoc hw he, fun u hu huc => hl ⟨u, hu, huc⟩⟩
      · exact absurd ⟨v, hv, hvc⟩ hl

theorem CycleEntry.eq_of_dominates {c : List V} {e f : V} (he : CycleEntry E root c e)
    (hf : CycleEntry E root c f) (h : Dominates E root e f) : e = f := by
  obtain ⟨-, l, hl, hav⟩ := hf
  rcases List.mem_cons.mp (h _ hl) with hef | hel
  · exact hef
  · exact absurd he.1 (hav e hel)

/-- In a reducible graph a vertex of each cycle dominates the whole cycle. -/
theorem exists_dominating_of_not_irreducible (hr : ¬ Irreducible E root) {c : List V}
    (hc : IsCycle E c) (hreach : ∀ v ∈ c, Reachable E root v) :
    ∃ e ∈ c, ∀ v ∈ c, Dominates E root e v := by
  obtain ⟨v, l, rfl, -⟩ := id hc
  obtain ⟨m, hm⟩ := hreach v (by simp)
  obtain ⟨e, -, he⟩ := exists_cycleEntry (c := v :: l) hm ⟨v, hm.end_mem, by simp⟩
  refine ⟨e, he.1, fun u hu k hk => ?_⟩
  obtain ⟨f, hfk, hf⟩ := exists_cycleEntry hk ⟨u, hk.end_mem, hu⟩
  have hcomp : Dominates E root e f ∨ Dominates E root f e := by
    by_contra hno
    rw [not_or] at hno
    exact hr ⟨_, hc, hreach, e, f, he, hf, hno.1, hno.2⟩
  rcases hcomp with h | h
  · rw [he.eq_of_dominates hf h]
    exact hfk
  · rw [← hf.eq_of_dominates he h]
    exact hfk

theorem IsCycle.exists_pred {c : List V} (hc : IsCycle E c) {e : V} (he : e ∈ c) :
    ∃ p ∈ c, E p e := by
  obtain ⟨v, l, rfl, hchain, hlast⟩ := hc
  obtain ⟨s, t, hst⟩ := List.append_of_mem he
  cases s using List.reverseRecOn with
  | nil =>
    obtain ⟨rfl, -⟩ : v = e ∧ l = t := by simpa using hst
    exact ⟨_, List.getLast_mem _, hlast⟩
  | append_singleton s p =>
    rw [hst, List.append_assoc] at hchain
    have hpe : E p e := by
      have := (List.isChain_append.mp hchain).2.1
      simpa using (List.isChain_cons_cons.mp this).1
    refine ⟨p, ?_, hpe⟩
    rw [hst]
    simp

variable (E) in
/-- The natural loop of the edge `s → h`: `h` and the vertices that reach `s` without passing
through `h`. -/
def NaturalLoop (s h v : V) : Prop :=
  v = h ∨ v ≠ h ∧ Relation.ReflTransGen (fun a b => E a b ∧ b ≠ h) v s

end Cycles

end MerlinV.Lib
