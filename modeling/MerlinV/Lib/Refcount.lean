import Mathlib.Tactic

/-! # Reference counts

Saturating counters, and how the number of entries of a list that hold something changes when one
entry is replaced.
-/
namespace MerlinV.Lib

/-- A saturating reference count: raised from zero or lowered below it, it is stuck for good.  An upper
limit is left out. -/
inductive Refcount where
  | counted (n : ℕ)
  | saturated
  deriving DecidableEq

namespace Refcount

def inc : Refcount → Refcount
  | counted 0 => saturated
  | counted (n + 1) => counted (n + 2)
  | saturated => saturated

def incNotZero : Refcount → Refcount × Bool
  | counted 0 => (counted 0, false)
  | counted (n + 1) => (counted (n + 2), true)
  | saturated => (saturated, true)

def decAndTest : Refcount → Refcount × Bool
  | counted 0 => (saturated, false)
  | counted 1 => (counted 0, true)
  | counted (n + 2) => (counted (n + 1), false)
  | saturated => (saturated, false)

theorem incNotZero_eq_inc {r : Refcount} (h : r.incNotZero.2 = true) : r.incNotZero.1 = r.inc := by
  match r, h with
  | counted (n + 1), _ => rfl
  | saturated, _ => rfl

end Refcount

section Counting
variable {α : Type*} {p : α → Bool} {l : List α} {i : ℕ} {a b : α}

/-- Replacing an entry takes it out of the count and puts the new one in. -/
theorem countP_set_add (h : l[i]? = some a) :
    (l.set i b).countP p + (if p a then 1 else 0) = l.countP p + if p b then 1 else 0 := by
  obtain ⟨hi, rfl⟩ := List.getElem?_eq_some_iff.mp h
  have hpos : p l[i] = true → 0 < l.countP p := fun hp => List.countP_pos_iff.mpr ⟨l[i], List.getElem_mem hi, hp⟩
  rw [List.countP_set hi]
  split_ifs with ha
  · have := hpos ha
    omega
  · have := hpos ha
    omega
  · rfl
  · rfl

theorem countP_pos_of_getElem? (h : l[i]? = some a) (ha : p a = true) : 0 < l.countP p :=
  List.countP_pos_iff.mpr ⟨a, List.mem_of_getElem? h, ha⟩

end Counting

end MerlinV.Lib
