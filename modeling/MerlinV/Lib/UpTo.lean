import Mathlib.Tactic

/-! # Joins up to an equality

The laws of a join that hold only up to a coarser relation, how they come from a projection on which
they hold as equations, and the sweep that stores a joined entry only when it differs.
-/
namespace MerlinV.Lib

variable {α β ι : Type*}

/-- `join` is a join with least element `bot` and greatest element `top` on the values with `P`, up to
`eqv`. -/
structure JoinLaws (join : α → α → α) (eqv : α → α → Prop) (P : α → Prop) (bot top : α) : Prop where
  closed : ∀ a b, P a → P b → P (join a b)
  comm : ∀ a b, P a → P b → eqv (join a b) (join b a)
  assoc : ∀ a b c, P a → P b → P c → eqv (join (join a b) c) (join a (join b c))
  idem : ∀ a, P a → eqv (join a a) a
  bot_left : ∀ a, P a → eqv (join bot a) a
  bot_right : ∀ a, P a → eqv (join a bot) a
  top_left : ∀ a, P a → eqv (join top a) top
  top_right : ∀ a, P a → eqv (join a top) top
  congr : ∀ a a' b b', P a → P a' → P b → P b' → eqv a a' → eqv b b' → eqv (join a b) (join a' b')

/-- The laws hold up to the equality of projections on which they hold as equations. -/
theorem JoinLaws.of_projection {join : α → α → α} {eqv : α → α → Prop} {π : α → β} {join' : β → β → β}
    {P : α → Prop} {Q : β → Prop} {bot top : α} (heqv : ∀ a b, eqv a b ↔ π a = π b)
    (hjoin : ∀ a b, π (join a b) = join' (π a) (π b)) (hP : ∀ a, P a ↔ Q (π a))
    (h : JoinLaws join' Eq Q (π bot) (π top)) : JoinLaws join eqv P bot top := by
  constructor
  · intro a b ha hb
    rw [hP, hjoin]
    exact h.closed _ _ ((hP a).mp ha) ((hP b).mp hb)
  · intro a b ha hb
    rw [heqv, hjoin, hjoin]
    exact h.comm _ _ ((hP a).mp ha) ((hP b).mp hb)
  · intro a b c ha hb hc
    simp only [heqv, hjoin]
    exact h.assoc _ _ _ ((hP a).mp ha) ((hP b).mp hb) ((hP c).mp hc)
  · intro a ha
    rw [heqv, hjoin]
    exact h.idem _ ((hP a).mp ha)
  · intro a ha
    rw [heqv, hjoin]
    exact h.bot_left _ ((hP a).mp ha)
  · intro a ha
    rw [heqv, hjoin]
    exact h.bot_right _ ((hP a).mp ha)
  · intro a ha
    rw [heqv, hjoin]
    exact h.top_left _ ((hP a).mp ha)
  · intro a ha
    rw [heqv, hjoin]
    exact h.top_right _ ((hP a).mp ha)
  · intro a a' b b' _ _ _ _ haa hbb
    rw [heqv] at haa hbb ⊢
    rw [hjoin, hjoin, haa, hbb]

section Sweep

variable [DecidableEq ι] (equal : α → α → Bool) (f : ι → α → α)

/-- One entry: store the new value and note the change when it differs from the old one. -/
def sweepStep (st : (ι → α) × Bool) (i : ι) : (ι → α) × Bool :=
  let nv := f i (st.1 i)
  if !equal nv (st.1 i) then (Function.update st.1 i nv, true) else st

variable {equal f} {l : List ι} {st : (ι → α) × Bool}

theorem sweepStep_of_ne {i j : ι} (hij : i ≠ j) : (sweepStep equal f st j).1 i = st.1 i := by
  unfold sweepStep
  dsimp only
  split
  · exact Function.update_of_ne hij _ _
  · rfl

theorem sweepStep_changed (j : ι) :
    (sweepStep equal f st j).2 = (st.2 || !equal (f j (st.1 j)) (st.1 j)) := by
  unfold sweepStep
  cases heq : equal (f j (st.1 j)) (st.1 j) <;> simp [heq]

/-- A sweep changes each entry from its own old value. -/
theorem sweep_apply (hl : l.Nodup) (i : ι) : (l.foldl (sweepStep equal f) st).1 i =
    if i ∈ l ∧ equal (f i (st.1 i)) (st.1 i) = false then f i (st.1 i) else st.1 i := by
  induction l generalizing st with
  | nil => simp
  | cons j l ih =>
    obtain ⟨hj, hl⟩ := List.nodup_cons.mp hl
    rw [List.foldl_cons, ih hl]
    by_cases hij : i = j
    · subst hij
      simp only [hj, false_and, if_false, List.mem_cons_self, true_and]
      cases heq : equal (f i (st.1 i)) (st.1 i) <;> simp [sweepStep, heq]
    · rw [sweepStep_of_ne hij]
      simp [hij]

theorem sweep_changed (hl : l.Nodup) : (l.foldl (sweepStep equal f) st).2 =
    (st.2 || l.any fun i => !equal (f i (st.1 i)) (st.1 i)) := by
  induction l generalizing st with
  | nil => simp
  | cons j l ih =>
    obtain ⟨hj, hl⟩ := List.nodup_cons.mp hl
    have hrest : (l.any fun i => !equal (f i ((sweepStep equal f st j).1 i)) ((sweepStep equal f st j).1 i)) =
        l.any fun i => !equal (f i (st.1 i)) (st.1 i) := by
      rw [Bool.eq_iff_iff, List.any_eq_true, List.any_eq_true]
      refine exists_congr fun i => and_congr_right fun hi => ?_
      have hij : i ≠ j := by
        rintro rfl
        exact hj hi
      rw [sweepStep_of_ne hij]
    rw [List.foldl_cons, ih hl, hrest, sweepStep_changed, List.any_cons, Bool.or_assoc]

/-- A sweep that starts without a change notes one exactly when it makes one. -/
theorem sweep_changed_iff (hrefl : ∀ a, equal a a = true) (hl : l.Nodup) (x : ι → α) :
    (l.foldl (sweepStep equal f) (x, false)).2 = true ↔ (l.foldl (sweepStep equal f) (x, false)).1 ≠ x := by
  rw [sweep_changed hl, Bool.false_or, List.any_eq_true]
  constructor
  · rintro ⟨i, hi, hne⟩ h
    have hdiff : equal (f i (x i)) (x i) = false := by simpa using hne
    have hx : f i (x i) = x i := by
      have hi' := congrFun h i
      rwa [sweep_apply hl, if_pos ⟨hi, hdiff⟩] at hi'
    rw [hx, hrefl] at hdiff
    cases hdiff
  · intro h
    by_contra hno
    push Not at hno
    apply h
    funext i
    rw [sweep_apply hl]
    by_cases hi : i ∈ l
    · have := hno i hi
      simp_all
    · simp [hi]

end Sweep

end MerlinV.Lib
