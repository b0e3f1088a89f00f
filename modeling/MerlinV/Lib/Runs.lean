import Mathlib.Data.List.TakeWhile
import Mathlib.Tactic

/-! # Maximal runs

The maximal runs of elements of a list that are no separators: the pieces between separators that are not
empty.
-/
namespace MerlinV.Lib

variable {α : Type*} {sep : α → Bool} {l : List α}

/-- The maximal runs of elements that are no separators, in order. -/
def runs (sep : α → Bool) (l : List α) : List (List α) := (l.splitOnP sep).filter fun r => !r.isEmpty

@[simp] theorem runs_nil : runs sep [] = [] := rfl

/-- A list is cut behind its longest prefix of elements with `p`. -/
theorem exists_span (p : α → Bool) (l : List α) : ∃ g v, l = g ++ v ∧ (∀ a ∈ g, p a = true) ∧
    (v = [] ∨ ∃ a v', v = a :: v' ∧ p a = false) := by
  refine ⟨l.takeWhile p, l.dropWhile p, (List.takeWhile_append_dropWhile ..).symm,
    fun a ha => List.mem_takeWhile_imp ha, ?_⟩
  cases hv : l.dropWhile p with
  | nil => exact .inl rfl
  | cons a v' =>
    refine .inr ⟨a, v', rfl, ?_⟩
    have hhead := List.head?_dropWhile_not p l
    rw [hv] at hhead
    simpa using hhead

theorem runs_append_cons (xs as : List α) {c : α} (hc : sep c = true) :
    runs sep (xs ++ c :: as) = runs sep xs ++ runs sep as := by
  rw [runs, List.splitOnP_append_cons xs as hc, List.filter_append]
  rfl

theorem runs_of_forall_not_sep (h : ∀ a ∈ l, sep a = false) (hne : l ≠ []) : runs sep l = [l] := by
  rw [runs, List.splitOnP_eq_singleton h]
  simp [hne]

theorem runs_append_of_forall_sep {g : List α} (h : ∀ a ∈ g, sep a = true) : runs sep (g ++ l) = runs sep l := by
  induction g with
  | nil => rfl
  | cons a g ih =>
    obtain ⟨ha, hg⟩ := List.forall_mem_cons.mp h
    have hcut := runs_append_cons [] (g ++ l) ha
    rw [List.cons_append, ← ih hg]
    exact hcut

theorem flatten_runs : (runs sep l).flatten = l.filter fun a => !sep a := by
  have hsplit : ∀ l : List α, (l.splitOnP sep).flatten = l.filter fun a => !sep a := by
    intro l
    induction l with
    | nil => rfl
    | cons a l ih =>
      rw [List.splitOnP_cons_eq_if_modifyHead]
      cases ha : sep a with
      | true => simpa [ha] using ih
      | false =>
        cases hl : l.splitOnP sep with
        | nil => exact absurd hl (List.splitOnP_ne_nil _ _)
        | cons r rs =>
          rw [hl] at ih
          simpa [ha] using ih
  have hempty : ∀ rs : List (List α), (rs.filter fun r => !r.isEmpty).flatten = rs.flatten := by
    intro rs
    induction rs with
    | nil => rfl
    | cons r rs ih => cases r <;> simpa using ih
  rw [runs, hempty, hsplit]

theorem exists_mem_runs {a : α} : (∃ r ∈ runs sep l, a ∈ r) ↔ a ∈ l ∧ sep a = false := by
  rw [← List.mem_flatten, flatten_runs, List.mem_filter, Bool.not_eq_true']

end MerlinV.Lib
