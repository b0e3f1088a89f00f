import Mathlib.Tactic

/-! # Systems that wind down

Some steps of a system only finish what has been begun.  When each of them makes the state lighter, a run of such
steps is no longer than the state it begins with is heavy; when besides the system can only be stuck at rest, every
such run that cannot go on has come to rest, and one that does exists.
-/
namespace MerlinV.Lib

variable {W E : Type*} (step : W → E → Option W)

def runSteps (w : W) : List E → Option W
  | [] => some w
  | e :: es => (step w e).bind fun w' => runSteps w' es

def Stuck (kind : E → Bool) (w : W) : Prop := ∀ e, kind e = true → step w e = none

/-- The steps of the kind `winding` lead from good states to lighter good ones, and can end at rest only. -/
structure WindsDown (good : W → Prop) (winding : E → Bool) (weight : W → ℕ) (rest : W → Prop) : Prop where
  keeps : ∀ w e w', good w → winding e = true → step w e = some w' → good w'
  lighter : ∀ w e w', winding e = true → step w e = some w' → weight w' < weight w
  ends : ∀ w, good w → Stuck step winding w → rest w

variable {step} {good rest : W → Prop} {winding : E → Bool} {weight : W → ℕ} {w w' : W} {es : List E}

theorem runSteps_keeps {kind : E → Bool} (h : ∀ w e w', good w → kind e = true → step w e = some w' → good w')
    (hw : good w) (hes : ∀ e ∈ es, kind e = true) (hrun : runSteps step w es = some w') : good w' := by
  induction es generalizing w with
  | nil =>
    obtain rfl := Option.some.inj hrun
    exact hw
  | cons e es ih =>
    obtain ⟨w₁, hstep, hrest⟩ := Option.bind_eq_some_iff.mp hrun
    obtain ⟨he, hes⟩ := List.forall_mem_cons.mp hes
    exact ih (h w e w₁ hw he hstep) hes hrest

namespace WindsDown

theorem length_add_weight_le (h : WindsDown step good winding weight rest) (hes : ∀ e ∈ es, winding e = true)
    (hrun : runSteps step w es = some w') : es.length + weight w' ≤ weight w := by
  induction es generalizing w with
  | nil =>
    obtain rfl := Option.some.inj hrun
    rw [List.length_nil, Nat.zero_add]
  | cons e es ih =>
    obtain ⟨w₁, hstep, hrest⟩ := Option.bind_eq_some_iff.mp hrun
    obtain ⟨he, hes⟩ := List.forall_mem_cons.mp hes
    have hlighter := h.lighter w e w₁ he hstep
    have hle := ih hes hrest
    rw [List.length_cons]
    omega

/-- From every good state some run of winding steps comes to rest. -/
theorem exists_rest (h : WindsDown step good winding weight rest) (hw : good w) :
    ∃ es w', (∀ e ∈ es, winding e = true) ∧ runSteps step w es = some w' ∧ rest w' := by
  induction hn : weight w using Nat.strong_induction_on generalizing w with
  | _ n ih =>
    by_cases hstuck : Stuck step winding w
    · exact ⟨[], w, by simp, rfl, h.ends w hw hstuck⟩
    · simp only [Stuck, not_forall] at hstuck
      obtain ⟨e, he, hstep⟩ := hstuck
      obtain ⟨w₁, hstep⟩ := Option.ne_none_iff_exists'.mp hstep
      obtain ⟨es, w', hes, hrun, hrest⟩ :=
        ih (weight w₁) (hn ▸ h.lighter w e w₁ he hstep) (h.keeps w e w₁ hw he hstep) rfl
      refine ⟨e :: es, w', List.forall_mem_cons.mpr ⟨he, hes⟩, ?_, hrest⟩
      rw [runSteps, hstep]
      exact hrun

end WindsDown

section Weights

variable {α : Type*} {f : α → ℕ} {l : List α} {i : ℕ} {a b : α}

/-- Replacing an entry takes its weight out of the sum and puts the new one in. -/
theorem sum_set_add (h : l[i]? = some a) : ((l.set i b).map f).sum + f a = (l.map f).sum + f b := by
  induction l generalizing i with
  | nil => cases h
  | cons c l ih =>
    cases i with
    | zero =>
      obtain rfl := Option.some.inj h
      simp only [List.set_cons_zero, List.map_cons, List.sum_cons]
      omega
    | succ i =>
      have hrest := ih (i := i) h
      simp only [List.set_cons_succ, List.map_cons, List.sum_cons]
      omega

/-- A change of one entry, by its weight before and after. -/
theorem sum_modify_add {g : α → α} (h : l[i]? = some a) :
    ((l.modify i g).map f).sum + f a = (l.map f).sum + f (g a) := by
  rw [List.modify_eq_set_getElem?, h]
  exact sum_set_add h

/-- A change that makes its entry heavier by `n` at most. -/
theorem sum_modify_le {g : α → α} {n : ℕ} (h : ∀ a, f (g a) ≤ f a + n) :
    ((l.modify i g).map f).sum ≤ (l.map f).sum + n := by
  cases ha : l[i]? with
  | none =>
    rw [List.modify_eq_set_getElem?, ha]
    exact Nat.le_add_right _ _
  | some a =>
    have hsum := sum_modify_add (f := f) (g := g) ha
    have hle := h a
    omega

end Weights

end MerlinV.Lib
