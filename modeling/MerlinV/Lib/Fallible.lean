import Mathlib.Tactic

/-! # Folds that may fail

Inversion of a successful `Except` computation, the invariant rule for a fallible loop
over `0, …, n - 1`, the simulation rule for two loops over one list and when a fallible map
succeeds.
-/
namespace MerlinV.Lib

variable {ε α β : Type}

theorem bind_eq_ok {x : Except ε α} {f : α → Except ε β} {b : β} :
    x >>= f = .ok b ↔ ∃ a, x = .ok a ∧ f a = .ok b := by
  cases x with
  | error e => simp [bind, Except.bind]
  | ok a => simp [bind, Except.bind]

theorem bind_eq_error {x : Except ε α} {f : α → Except ε β} {e : ε} :
    x >>= f = .error e ↔ x = .error e ∨ ∃ a, x = .ok a ∧ f a = .error e := by
  cases x with
  | error e' => simp [bind, Except.bind]
  | ok a => simp [bind, Except.bind]

theorem toOption_eq_some {x : Except ε α} {a : α} : x.toOption = some a ↔ x = .ok a := by
  cases x with
  | error e => simp [Except.toOption]
  | ok b => simp [Except.toOption]

/-- Two computations that differ in their error messages, continued by two that do. -/
theorem bind_toOption_congr {x y : Except ε α} {f g : α → Except ε β} (h : x.toOption = y.toOption)
    (hfg : ∀ a, y = .ok a → (f a).toOption = (g a).toOption) :
    (x >>= f).toOption = (y >>= g).toOption := by
  cases x with
  | error e =>
    cases y with
    | error e' => rfl
    | ok b => cases h
  | ok a =>
    cases y with
    | error e' => cases h
    | ok b =>
      obtain rfl : a = b := Option.some.inj h
      exact hfg a rfl

theorem foldlM_toOption_congr {δ : Type} {f g : β → δ → Except ε β}
    (h : ∀ b k, (f b k).toOption = (g b k).toOption) (l : List δ) (b : β) :
    (l.foldlM f b).toOption = (l.foldlM g b).toOption := by
  induction l generalizing b with
  | nil => rfl
  | cons k l ih =>
    rw [List.foldlM_cons, List.foldlM_cons]
    exact bind_toOption_congr (h b k) fun c _ => ih c

/-- An invariant kept by each successful iteration holds after the loop. -/
theorem foldlM_range_inv {f : β → ℕ → Except ε β} (P : ℕ → β → Prop) {n : ℕ}
    {b : β} (h₀ : P 0 b) (hstep : ∀ k < n, ∀ b b', P k b → f b k = .ok b' → P (k + 1) b') :
    ∀ {r : β}, (List.range n).foldlM f b = .ok r → P n r := by
  induction n with
  | zero =>
    intro r h
    obtain rfl : b = r := by simpa [pure, Except.pure] using h
    exact h₀
  | succ n ih =>
    intro r h
    rw [List.range_succ, List.foldlM_append, bind_eq_ok] at h
    obtain ⟨b', h₁, h₂⟩ := h
    have hb' := ih (fun k hk => hstep k (by omega)) h₁
    have hlast : f b' n = .ok r := by
      simpa [bind_eq_ok, pure, Except.pure] using h₂
    exact hstep n (by omega) b' r hb' hlast

/-- Two loops in step: when the first succeeds, so does the second. -/
theorem foldlM_sim {γ δ : Type} {f : β → δ → Except ε β} {g : γ → δ → Except ε γ} (R : β → γ → Prop)
    (hstep : ∀ k b b' c, R b c → f b k = .ok b' → ∃ c', g c k = .ok c' ∧ R b' c') (l : List δ)
    {b b' : β} {c : γ} (hR : R b c) (h : l.foldlM f b = .ok b') :
    ∃ c', l.foldlM g c = .ok c' ∧ R b' c' := by
  induction l generalizing b c with
  | nil =>
    cases h
    exact ⟨c, rfl, hR⟩
  | cons k l ih =>
    rw [List.foldlM_cons, bind_eq_ok] at h
    obtain ⟨b₁, h₁, h₂⟩ := h
    obtain ⟨c₁, hc₁, hR₁⟩ := hstep k b b₁ c hR h₁
    obtain ⟨c', hc', hR'⟩ := ih hR₁ h₂
    exact ⟨c', by rw [List.foldlM_cons, bind_eq_ok]; exact ⟨c₁, hc₁, hc'⟩, hR'⟩

theorem mapM_isSome {γ δ : Type} {f : γ → Option δ} {l : List γ} :
    (l.mapM f).isSome = true ↔ ∀ a ∈ l, (f a).isSome = true := by
  induction l with
  | nil => simp
  | cons a l ih =>
    rw [List.forall_mem_cons, ← ih, List.mapM_cons]
    cases f a with
    | none => simp
    | some b => cases l.mapM f <;> simp

end MerlinV.Lib
