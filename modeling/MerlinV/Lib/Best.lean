import Mathlib.Data.Set.Lattice
import Mathlib.Order.Lattice

/-! # Best descriptions

A description `t` stands for the set `γ t` of values.  The best description of a set is one that contains it and
is contained in every description that does.  Where a description fixes some coordinates of a value and leaves
the others open, it is best as soon as every open coordinate takes two values.
-/
namespace MerlinV.Lib

variable {V T : Type*} {γ : T → Set V} {S S' : Set V} {t t' : T}

/-- `t` describes `S` and loses nothing that a description can say. -/
structure Best (γ : T → Set V) (S : Set V) (t : T) : Prop where
  sound : S ⊆ γ t
  least : ∀ t', S ⊆ γ t' → γ t ⊆ γ t'

theorem Best.self (γ : T → Set V) (t : T) : Best γ (γ t) t := ⟨subset_rfl, fun _ h => h⟩

/-- A description that contains two others and is contained in all that do is best for their union. -/
theorem Best.union {u : T} (h : Best γ S t) (h' : Best γ S' t') (hu : Best γ (γ t ∪ γ t') u) : Best γ (S ∪ S') u where
  sound := (Set.union_subset_union h.sound h'.sound).trans hu.sound
  least v hv := hu.least v (Set.union_subset (h.least v (Set.subset_union_left.trans hv))
    (h'.least v (Set.subset_union_right.trans hv)))

section Coordinates

variable {ι β : Type*} {coord : V → ι → β} {known : T → Set ι} {val : T → ι → β}

/-- A description of some coordinates is best for the values of a set that it contains when every other
coordinate takes two values in the set. -/
theorem Best.of_coords
    (hγ : ∀ t, (γ t).Nonempty → ∀ z, z ∈ γ t ↔ ∀ i ∈ known t, coord z i = val t i)
    (hne : S.Nonempty) (hsound : S ⊆ γ t)
    (hopen : ∀ t', ∀ i ∈ known t', i ∉ known t → ∃ z ∈ S, ∃ z' ∈ S, coord z i ≠ coord z' i) : Best γ S t where
  sound := hsound
  least t' hS z hz := by
    obtain ⟨s, hs⟩ := hne
    have ht := hγ t ⟨s, hsound hs⟩
    have ht' := hγ t' ⟨s, hS hs⟩
    rw [ht' z]
    intro i hi
    by_cases hknown : i ∈ known t
    · calc coord z i = val t i := (ht z).mp hz i hknown
        _ = coord s i := ((ht s).mp (hsound hs) i hknown).symm
        _ = val t' i := (ht' s).mp (hS hs) i hi
    · obtain ⟨x, hx, y, hy, hxy⟩ := hopen t' i hi hknown
      have hxi := (ht' x).mp (hS hx) i hi
      have hyi := (ht' y).mp (hS hy) i hi
      exact absurd (hxi.trans hyi.symm) hxy

end Coordinates

end MerlinV.Lib
