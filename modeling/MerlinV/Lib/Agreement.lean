import Mathlib.Data.List.Basic
import Mathlib.Order.Basic

/-! # Injective agreement

One party records what it sends, another what it accepts, each acceptance with the number of sendings that came
before it.  When every acceptance has an earlier sending with the same number in it, and the numbers accepted
increase, no sending is accepted twice; when the numbers sent increase too, the order is kept.
-/
namespace MerlinV.Lib

variable {α β κ : Type*}

/-- `f` assigns to each acceptance an earlier sending that stands in `R` to it, to no two the same. -/
structure Agreement (R : α → β → Prop) (sent : List α) (accepted : List (ℕ × β)) (f : ℕ → ℕ) : Prop where
  earlier : ∀ (i n : ℕ) (b : β), accepted[i]? = some (n, b) → f i < n ∧ ∃ a, sent[f i]? = some a ∧ R a b
  injective : ∀ i j, i < j → j < accepted.length → f i ≠ f j

variable [Preorder κ] {R : α → β → Prop} {sent : List α} {accepted : List (ℕ × β)} {num : α → κ} {num' : β → κ}
  {f : ℕ → ℕ}

theorem num_lt_of_lt (hinc : accepted.Pairwise fun x y => num' x.2 < num' y.2) {i j : ℕ} {x y : ℕ × β}
    (hij : i < j) (hx : accepted[i]? = some x) (hy : accepted[j]? = some y) : num' x.2 < num' y.2 := by
  obtain ⟨hi, rfl⟩ := List.getElem?_eq_some_iff.mp hx
  obtain ⟨hj, rfl⟩ := List.getElem?_eq_some_iff.mp hy
  exact List.pairwise_iff_getElem.mp hinc i j hi hj hij

/-- Increasing numbers make an agreement injective. -/
theorem exists_agreement (hnum : ∀ a b, R a b → num a = num' b)
    (hinc : accepted.Pairwise fun x y => num' x.2 < num' y.2)
    (hmatch : ∀ x ∈ accepted, ∃ m < x.1, ∃ a, sent[m]? = some a ∧ R a x.2) :
    ∃ f, Agreement R sent accepted f := by
  have hex : ∀ i : ℕ, ∃ m, ∀ (n : ℕ) (b : β), accepted[i]? = some (n, b) → m < n ∧ ∃ a, sent[m]? = some a ∧ R a b := by
    intro i
    cases hi : accepted[i]? with
    | none => exact ⟨0, nofun⟩
    | some x =>
      obtain ⟨m, hm, a, ha, hr⟩ := hmatch x (List.mem_of_getElem? hi)
      refine ⟨m, fun n b hx => ?_⟩
      obtain rfl := Option.some.inj hx
      exact ⟨hm, a, ha, hr⟩
  choose f hf using hex
  refine ⟨f, hf, fun i j hij hj heq => ?_⟩
  obtain ⟨x, hx⟩ : ∃ x, accepted[i]? = some x := ⟨_, List.getElem?_eq_getElem (Nat.lt_trans hij hj)⟩
  obtain ⟨y, hy⟩ : ∃ y, accepted[j]? = some y := ⟨_, List.getElem?_eq_getElem hj⟩
  obtain ⟨-, a, ha, hr⟩ := hf i x.1 x.2 hx
  obtain ⟨-, a', ha', hr'⟩ := hf j y.1 y.2 hy
  -- one sending has one number
  rw [heq] at ha
  obtain rfl := Option.some.inj (ha.symm.trans ha')
  have hlt := num_lt_of_lt hinc hij hx hy
  rw [← hnum a x.2 hr, ← hnum a y.2 hr'] at hlt
  exact lt_irrefl _ hlt

/-- When the numbers sent increase, sendings are accepted in their order. -/
theorem Agreement.inOrder (h : Agreement R sent accepted f) (hnum : ∀ a b, R a b → num a = num' b)
    (hinc : accepted.Pairwise fun x y => num' x.2 < num' y.2) (hsent : sent.Pairwise fun a a' => num a < num a')
    (i j : ℕ) (hij : i < j) (hj : j < accepted.length) : f i < f j := by
  obtain ⟨x, hx⟩ : ∃ x, accepted[i]? = some x := ⟨_, List.getElem?_eq_getElem (Nat.lt_trans hij hj)⟩
  obtain ⟨y, hy⟩ : ∃ y, accepted[j]? = some y := ⟨_, List.getElem?_eq_getElem hj⟩
  obtain ⟨-, a, ha, hr⟩ := h.earlier i x.1 x.2 hx
  obtain ⟨-, a', ha', hr'⟩ := h.earlier j y.1 y.2 hy
  have hlt := num_lt_of_lt hinc hij hx hy
  rw [← hnum a x.2 hr, ← hnum a' y.2 hr'] at hlt
  rcases Nat.lt_trichotomy (f i) (f j) with hfij | hfij | hfij
  · exact hfij
  · exact absurd hfij (h.injective i j hij hj)
  · obtain ⟨hm, rfl⟩ := List.getElem?_eq_some_iff.mp ha
    obtain ⟨hm', rfl⟩ := List.getElem?_eq_some_iff.mp ha'
    exact absurd (hlt.trans (List.pairwise_iff_getElem.mp hsent _ _ hm' hm hfij)) (lt_irrefl _)

end MerlinV.Lib
