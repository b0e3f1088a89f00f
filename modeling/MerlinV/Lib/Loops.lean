import Mathlib.Tactic

/-! # Loops that run to their end

Big-step runs of `while` and `for` loops over relational bodies: a run is a finite
derivation, so a loop terminates when it has one.  Deterministic bodies give at most one
result.
-/
namespace MerlinV.Lib

variable {σ α : Type*}

/-- `while (cond) body` runs from `s` to its end in `t`. -/
inductive WhileRuns (cond : σ → Prop) (body : σ → σ → Prop) : σ → σ → Prop where
  | exit {s : σ} (hc : ¬ cond s) : WhileRuns cond body s s
  | next {s u t : σ} (hc : cond s) (hb : body s u) (h : WhileRuns cond body u t) :
      WhileRuns cond body s t

/-- `for (a in l) body` runs from `s` to its end in `t`. -/
inductive ForRuns (body : α → σ → σ → Prop) : List α → σ → σ → Prop where
  | done (s : σ) : ForRuns body [] s s
  | next {a : α} {l : List α} {s u t : σ} (hb : body a s u) (h : ForRuns body l u t) :
      ForRuns body (a :: l) s t

section While

variable {cond : σ → Prop} {body : σ → σ → Prop}

theorem WhileRuns.unique {s t t' : σ} (h : WhileRuns cond body s t) (h' : WhileRuns cond body s t')
    (hbody : ∀ s u v, body s u → body s v → u = v) : t = t' := by
  induction h with
  | exit hc =>
    cases h' with
    | exit => rfl
    | next hc' => exact absurd hc' hc
  | next hc hb _ ih =>
    cases h' with
    | exit hc' => exact absurd hc hc'
    | next _ hb' h' =>
      rw [hbody _ _ _ hb hb'] at ih
      exact ih h'

theorem WhileRuns.eq_of_not_cond {s t : σ} (h : WhileRuns cond body s t) (hc : ¬ cond s) : t = s := by
  cases h with
  | exit => rfl
  | next hc' => exact absurd hc' hc

end While

section For

variable {body : α → σ → σ → Prop}

theorem ForRuns.unique {l : List α} {s t t' : σ} (h : ForRuns body l s t) (h' : ForRuns body l s t')
    (hbody : ∀ a s u v, body a s u → body a s v → u = v) : t = t' := by
  induction h with
  | done s =>
    cases h'
    rfl
  | next hb _ ih =>
    cases h' with
    | next hb' h' =>
      rw [hbody _ _ _ _ hb hb'] at ih
      exact ih h'

/-- A loop whose body follows a function computes its fold, as long as an invariant of the
elements before and the elements to come keeps the body defined. -/
theorem forRuns_foldl {P : List α → List α → σ → Prop} {f : σ → α → σ}
    (hstep : ∀ l₁ a l₂ s, P l₁ (a :: l₂) s → body a s (f s a) ∧ P (l₁ ++ [a]) l₂ (f s a))
    (l₁ l₂ : List α) (s : σ) (h : P l₁ l₂ s) :
    ForRuns body l₂ s (l₂.foldl f s) ∧ P (l₁ ++ l₂) [] (l₂.foldl f s) := by
  induction l₂ generalizing l₁ s with
  | nil =>
    rw [List.append_nil]
    exact ⟨.done s, h⟩
  | cons a l₂ ih =>
    obtain ⟨hb, hP⟩ := hstep l₁ a l₂ s h
    obtain ⟨hrun, hend⟩ := ih (l₁ ++ [a]) (f s a) hP
    rw [List.append_assoc, List.singleton_append] at hend
    exact ⟨.next hb hrun, hend⟩

/-- A property that each iteration keeps exactly under a condition of its own is kept throughout exactly
when every iteration meets its condition. -/
theorem forall_le_iff_of_step {P C : ℕ → Prop} (hinit : P 0) (hstep : ∀ {n}, P n → (P (n + 1) ↔ C n)) (N : ℕ) :
    (∀ n ≤ N, P n) ↔ ∀ i < N, C i := by
  induction N with
  | zero => simp [hinit]
  | succ N ih =>
    rw [Nat.forall_lt_succ_right, ← ih]
    constructor
    · intro h
      exact ⟨fun n hn => h n (by omega), (hstep (h N (by omega))).mp (h (N + 1) le_rfl)⟩
    · rintro ⟨hle, hC⟩ n hn
      rcases Nat.lt_or_eq_of_le hn with hlt | rfl
      · exact hle n (by omega)
      · exact (hstep (hle N le_rfl)).mpr hC

end For

end MerlinV.Lib
