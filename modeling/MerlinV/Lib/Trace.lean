import Mathlib.Tactic

/-! # Traces of loops

What the iterations of a loop touch, as one list in the order of the run.  A loop that may be
left early stops touching after the iteration that leaves it.
-/
namespace MerlinV.Lib

variable {σ α A ε : Type*}

/-- The trace of a fold whose step may fail; the failing step still touches. -/
def foldTrace (step : σ → α → Except ε σ) (touch : σ → α → List A) : σ → List α → List A
  | _, [] => []
  | s, a :: l => touch s a ++ match step s a with
    | .error _ => []
    | .ok s' => foldTrace step touch s' l

def loopTrace (step : σ → α → σ) (touch : σ → α → List A) : σ → List α → List A :=
  foldTrace (fun s a => (.ok (step s a) : Except Empty σ)) touch

/-- What holds of every touch under an invariant of the loop, over the part of the list that is
still to run, holds along the trace. -/
theorem foldTrace_forall {step : σ → α → Except ε σ} {touch : σ → α → List A} {P : A → Prop}
    (Inv : List α → σ → Prop)
    (hstep : ∀ a l s s', Inv (a :: l) s → step s a = .ok s' → Inv l s')
    (htouch : ∀ a l s, Inv (a :: l) s → ∀ x ∈ touch s a, P x) {l : List α} {s : σ} (h : Inv l s) :
    ∀ x ∈ foldTrace step touch s l, P x := by
  induction l generalizing s with
  | nil => simp [foldTrace]
  | cons a l ih =>
    intro x hx
    rw [foldTrace, List.mem_append] at hx
    rcases hx with hx | hx
    · exact htouch a l s h x hx
    · cases hs : step s a with
      | error e => simp [hs] at hx
      | ok s' =>
        rw [hs] at hx
        exact ih (hstep a l s s' h hs) x hx

theorem loopTrace_forall {step : σ → α → σ} {touch : σ → α → List A} {P : A → Prop}
    (Inv : List α → σ → Prop) (hstep : ∀ a l s, Inv (a :: l) s → Inv l (step s a))
    (htouch : ∀ a l s, Inv (a :: l) s → ∀ x ∈ touch s a, P x) {l : List α} {s : σ} (h : Inv l s) :
    ∀ x ∈ loopTrace step touch s l, P x := by
  apply foldTrace_forall Inv _ htouch h
  intro a l s s' hs heq
  obtain rfl := Except.ok.inj heq
  exact hstep a l s hs

theorem foldl_inv {step : σ → α → σ} (Inv : List α → σ → Prop)
    (hstep : ∀ a l s, Inv (a :: l) s → Inv l (step s a)) {l : List α} {s : σ} (h : Inv l s) :
    Inv [] (l.foldl step s) := by
  induction l generalizing s with
  | nil => exact h
  | cons a l ih => exact ih (hstep a l s h)

end MerlinV.Lib
