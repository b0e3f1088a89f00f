import Mathlib.Logic.Function.Iterate
import Mathlib.Tactic

/-! # Machines that need several cycles for a step

An abstract machine whose steps have a price, and a clocked machine that needs as many cycles as the
price says.  The clocked machine stops exactly when the abstract one does, with the same result, and at
the cycle that is the sum of the prices.
-/
namespace MerlinV.Lib

variable {S A V : Type*}

/-- One step of an abstract machine: a result, or a next state; both with their price in cycles. -/
inductive Timed (A V : Type*) where
  | halt (v : V) (cost : ℕ)
  | next (a : A) (cost : ℕ)
  deriving DecidableEq

def Timed.cost : Timed A V → ℕ
  | .halt _ c => c
  | .next _ c => c

/-- The total price and the result of at most `fuel` steps. -/
def timedRun (step : A → Timed A V) : ℕ → A → Option (ℕ × V)
  | 0, _ => none
  | fuel + 1, a =>
    match step a with
    | .halt v c => some (c, v)
    | .next a' c => (timedRun step fuel a').map fun r => (r.1 + c, r.2)

def HaltsAt (step : A → Timed A V) (a : A) (n : ℕ) (v : V) : Prop :=
  ∃ fuel, timedRun step fuel a = some (n, v)

section Abstract

variable {step : A → Timed A V} {a a' : A} {v w : V} {c n m : ℕ}

theorem haltsAt_of_halt (h : step a = .halt v c) : HaltsAt step a c v := ⟨1, by simp [timedRun, h]⟩

theorem haltsAt_halt_iff (h : step a = .halt v c) : HaltsAt step a n w ↔ n = c ∧ w = v := by
  constructor
  · rintro ⟨fuel, hrun⟩
    cases fuel with
    | zero => cases hrun
    | succ fuel =>
      rw [timedRun, h] at hrun
      obtain ⟨rfl, rfl⟩ := Prod.mk.injEq .. ▸ Option.some.inj hrun
      exact ⟨rfl, rfl⟩
  · rintro ⟨rfl, rfl⟩
    exact haltsAt_of_halt h

theorem haltsAt_next_iff (h : step a = .next a' c) :
    HaltsAt step a n v ↔ ∃ m, n = m + c ∧ HaltsAt step a' m v := by
  constructor
  · rintro ⟨fuel, hrun⟩
    cases fuel with
    | zero => cases hrun
    | succ fuel =>
      rw [timedRun, h] at hrun
      obtain ⟨⟨m, w⟩, hrest, heq⟩ := Option.map_eq_some_iff.mp hrun
      obtain ⟨rfl, rfl⟩ := Prod.mk.injEq .. ▸ heq
      exact ⟨m, rfl, fuel, hrest⟩
  · rintro ⟨m, rfl, fuel, hrest⟩
    exact ⟨fuel + 1, by simp [timedRun, h, hrest]⟩

end Abstract

/-- A clocked machine that carries out each step of an abstract one in as many cycles as it costs, and
does not stop on the way. -/
structure Clocked (next : S → S) (done : S → Option V) (step : A → Timed A V) (R : S → A → Prop) : Prop where
  stays : ∀ {s v}, done s = some v → done (next s) = some v
  busy : ∀ {s a}, R s a → ∀ k < (step a).cost, done (next^[k] s) = none
  halt : ∀ {s a v c}, R s a → step a = .halt v c → done (next^[c] s) = some v
  next : ∀ {s a a' c}, R s a → step a = .next a' c → R (next^[c] s) a'

section Clocked

variable {next : S → S} {done : S → Option V} {step : A → Timed A V} {R : S → A → Prop} {s : S} {a : A} {v : V}

theorem Clocked.stays_iterate (hC : Clocked next done step R) (h : done s = some v) (t : ℕ) :
    done (next^[t] s) = some v := by
  induction t with
  | zero => exact h
  | succ t ih =>
    rw [Function.iterate_succ_apply']
    exact hC.stays ih

/-- The clocked machine has stopped in cycle `t` exactly when the abstract one stops at a price of at most
`t`, and with the same result.  A step is free of charge nowhere. -/
theorem Clocked.done_iff (hC : Clocked next done step R) (hpos : ∀ a, 0 < (step a).cost) (hR : R s a) (t : ℕ) :
    done (next^[t] s) = some v ↔ ∃ n ≤ t, HaltsAt step a n v := by
  induction t using Nat.strong_induction_on generalizing s a with
  | _ t ih =>
  have hbusy := hC.busy hR
  have hcost := hpos a
  cases hstep : step a with
  | halt w c =>
    rw [hstep, Timed.cost] at hbusy
    by_cases hct : c ≤ t
    · have hdone : done (next^[t] s) = some w := by
        rw [← Nat.sub_add_cancel hct, Function.iterate_add_apply]
        exact hC.stays_iterate (hC.halt hR hstep) _
      rw [hdone]
      constructor
      · intro h
        exact ⟨c, hct, (haltsAt_halt_iff hstep).mpr ⟨rfl, (Option.some.inj h).symm⟩⟩
      · rintro ⟨n, -, hn⟩
        rw [((haltsAt_halt_iff hstep).mp hn).2]
    · rw [hbusy t (by omega)]
      constructor
      · intro h
        cases h
      · rintro ⟨n, hle, hn⟩
        obtain ⟨rfl, -⟩ := (haltsAt_halt_iff hstep).mp hn
        exact absurd hle hct
  | next a' c =>
    rw [hstep, Timed.cost] at hbusy hcost
    by_cases hct : c ≤ t
    · rw [← Nat.sub_add_cancel hct, Function.iterate_add_apply, ih (t - c) (by omega) (hC.next hR hstep)]
      constructor
      · rintro ⟨m, hm, hhalt⟩
        exact ⟨m + c, by omega, (haltsAt_next_iff hstep).mpr ⟨m, rfl, hhalt⟩⟩
      · rintro ⟨n, hn, hhalt⟩
        obtain ⟨m, rfl, hm⟩ := (haltsAt_next_iff hstep).mp hhalt
        exact ⟨m, by omega, hm⟩
    · rw [hbusy t (by omega)]
      constructor
      · intro h
        cases h
      · rintro ⟨n, hn, hhalt⟩
        obtain ⟨m, rfl, -⟩ := (haltsAt_next_iff hstep).mp hhalt
        exact absurd hn (by omega)

end Clocked

end MerlinV.Lib
