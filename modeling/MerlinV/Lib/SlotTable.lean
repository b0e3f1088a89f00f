import Mathlib.Tactic

/-! # Associative arrays with holes

A table is a fixed array of slots that hold a key and a value or are free.  Keys are found
by a scan from the first slot, new keys go to the first free slot, and a deletion frees its
slot in place.  As long as no key occupies two slots the table is a finite partial function.
-/
namespace MerlinV.Lib

/-- A slot; a free one keeps the key and value it was freed with. -/
structure Slot (K V : Type*) where
  used : Bool
  key : K
  value : V
  deriving DecidableEq

abbrev Table (n : ℕ) (K V : Type*) := Fin n → Slot K V

namespace Table

variable {n : ℕ} {K V : Type*}

section

variable (t : Table n K V)

def free : Option (Fin n) := (List.finRange n).find? fun i => !(t i).used

def Unique : Prop := ∀ i j, (t i).used = true → (t j).used = true → (t i).key = (t j).key → i = j

variable {t} {k : K} {i : Fin n}

theorem of_free (h : t.free = some i) : (t i).used = false := by
  have := List.find?_some h
  simpa using this

/-- A write of `k` to slot `i` keeps keys unique when no other slot holds `k`. -/
theorem Unique.write (hu : t.Unique) (hi : ∀ j, (t j).used = true → (t j).key = k → j = i) (v : V) :
    Unique (Function.update t i ⟨true, k, v⟩) := by
  intro a b ha hb hab
  by_cases hai : a = i
  · by_cases hbi : b = i
    · rw [hai, hbi]
    · simp only [hai, Function.update_self, Function.update_of_ne hbi] at hab hb
      exact absurd (hi b hb hab.symm) hbi
  · by_cases hbi : b = i
    · simp only [hbi, Function.update_self, Function.update_of_ne hai] at hab ha
      exact absurd (hi a ha hab) hai
    · simp only [Function.update_of_ne hai, Function.update_of_ne hbi] at ha hb hab
      exact hu a b ha hb hab

theorem Unique.erase (hu : t.Unique) (i : Fin n) :
    Unique (Function.update t i { t i with used := false }) := by
  intro a b ha hb hab
  have hne : ∀ {c : Fin n}, (Function.update t i { t i with used := false } c).used = true → c ≠ i := by
    rintro c hc rfl
    simp at hc
  simp only [Function.update_of_ne (hne ha), Function.update_of_ne (hne hb)] at ha hb hab
  exact hu a b ha hb hab

def usedCount (t : Table n K V) : ℕ := (Finset.univ.filter fun i => (t i).used = true).card

theorem usedCount_le (t : Table n K V) : t.usedCount ≤ n := by
  simpa [usedCount] using Finset.card_filter_le Finset.univ fun i => (t i).used = true

theorem usedCount_occupy {s : Slot K V} (hi : (t i).used = false) (hs : s.used = true) :
    usedCount (Function.update t i s) = t.usedCount + 1 := by
  have hins : (Finset.univ.filter fun j => (Function.update t i s j).used = true) =
      insert i (Finset.univ.filter fun j => (t j).used = true) := by
    ext j
    by_cases hj : j = i <;> simp [hj, hs]
  rw [usedCount, hins, Finset.card_insert_of_notMem (by simp [hi]), usedCount]

theorem usedCount_vacate {s : Slot K V} (hi : (t i).used = true) (hs : s.used = false) :
    usedCount (Function.update t i s) + 1 = t.usedCount := by
  have hback : Function.update (Function.update t i s) i (t i) = t := by simp
  calc usedCount (Function.update t i s) + 1
      = usedCount (Function.update (Function.update t i s) i (t i)) :=
        (usedCount_occupy (by simpa using hs) hi).symm
    _ = t.usedCount := by rw [hback]

theorem usedCount_overwrite {s : Slot K V} (hi : (t i).used = true) (hs : s.used = true) :
    usedCount (Function.update t i s) = t.usedCount := by
  unfold usedCount
  congr 1
  ext j
  by_cases hj : j = i <;> simp [hj, hi, hs]

/-- A slot may take `k` when no other slot holds `k` and it holds no other key itself. -/
structure Fits (t : Table n K V) (k : K) (i : Fin n) : Prop where
  only : ∀ j, (t j).used = true → (t j).key = k → j = i
  vacant : (t i).used = true → (t i).key = k

end

variable [DecidableEq K] (t : Table n K V)

def slotOf (k : K) : Option (Fin n) := (List.finRange n).find? fun i => (t i).used && (t i).key = k

/-- The partial function a table stands for. -/
def contents (k : K) : Option V := (t.slotOf k).map fun i => (t i).value

variable {t} {k : K} {i : Fin n} {v : V}

theorem slotOf_eq_none : t.slotOf k = none ↔ ∀ i, (t i).used = true → (t i).key ≠ k := by
  simp [slotOf, List.find?_eq_none]

theorem of_slotOf (h : t.slotOf k = some i) : (t i).used = true ∧ (t i).key = k := by
  have := List.find?_some h
  simpa using this

theorem Unique.slotOf_eq_some (hu : t.Unique) :
    t.slotOf k = some i ↔ (t i).used = true ∧ (t i).key = k := by
  constructor
  · exact of_slotOf
  · rintro ⟨hused, hkey⟩
    cases h : t.slotOf k with
    | none => exact absurd hkey (slotOf_eq_none.mp h i hused)
    | some j =>
      obtain ⟨hj, hjk⟩ := of_slotOf h
      rw [hu j i hj hused (hjk.trans hkey.symm)]

theorem contents_eq_none : t.contents k = none ↔ t.slotOf k = none := by
  simp [contents]

theorem Unique.contents_eq_some (hu : t.Unique) :
    t.contents k = some v ↔ ∃ i, (t i).used = true ∧ (t i).key = k ∧ (t i).value = v := by
  simp only [contents, Option.map_eq_some_iff, hu.slotOf_eq_some, and_assoc]

theorem Unique.fits_slotOf (hu : t.Unique) (h : t.slotOf k = some i) : t.Fits k i := by
  obtain ⟨hused, hkey⟩ := of_slotOf h
  exact ⟨fun j hj hjk => hu j i hj hused (hjk.trans hkey.symm), fun _ => hkey⟩

theorem fits_free (hk : t.slotOf k = none) (h : t.free = some i) : t.Fits k i := by
  constructor
  · intro j hj hjk
    exact absurd hjk (slotOf_eq_none.mp hk j hj)
  · intro hi
    rw [of_free h] at hi
    cases hi

/-- Writing a fitting slot sets the key and nothing else. -/
theorem contents_write (hu : t.Unique) (h : t.Fits k i) (v : V) :
    contents (Function.update t i ⟨true, k, v⟩) = Function.update t.contents k (some v) := by
  have hu' := hu.write h.only v
  funext k'
  apply Option.ext
  intro w
  rw [hu'.contents_eq_some]
  by_cases hk : k' = k
  · subst hk
    rw [Function.update_self]
    constructor
    · rintro ⟨j, hj, hjk, hjv⟩
      by_cases hji : j = i
      · simpa [hji] using hjv
      · simp only [Function.update_of_ne hji] at hj hjk
        exact absurd (h.only j hj hjk) hji
    · intro hw
      exact ⟨i, by simp, by simp, by simpa using hw⟩
  · rw [Function.update_of_ne hk, hu.contents_eq_some]
    constructor
    · rintro ⟨j, hj, hjk, hjv⟩
      by_cases hji : j = i
      · simp only [hji, Function.update_self] at hjk
        exact absurd hjk.symm hk
      · simp only [Function.update_of_ne hji] at hj hjk hjv
        exact ⟨j, hj, hjk, hjv⟩
    · rintro ⟨j, hj, hjk, hjv⟩
      have hji : j ≠ i := by
        rintro rfl
        exact hk (hjk.symm.trans (h.vacant hj))
      exact ⟨j, by simpa [hji] using hj, by simpa [hji] using hjk, by simpa [hji] using hjv⟩

/-- Freeing the slot of a key removes the key and nothing else. -/
theorem contents_erase (hu : t.Unique) (h : t.slotOf k = some i) :
    contents (Function.update t i { t i with used := false }) = Function.update t.contents k none := by
  obtain ⟨hused, hkey⟩ := of_slotOf h
  funext k'
  apply Option.ext
  intro w
  rw [(hu.erase i).contents_eq_some]
  by_cases hk : k' = k
  · subst hk
    rw [Function.update_self]
    constructor
    · rintro ⟨j, hj, hjk, -⟩
      by_cases hji : j = i
      · simp [hji] at hj
      · simp only [Function.update_of_ne hji] at hj hjk
        exact absurd (hu j i hj hused (hjk.trans hkey.symm)) hji
    · intro hw
      cases hw
  · rw [Function.update_of_ne hk, hu.contents_eq_some]
    apply exists_congr
    intro j
    by_cases hji : j = i
    · simp only [hji, Function.update_self, Bool.false_eq_true, false_and, hkey, false_iff, not_and]
      intro _ hkk
      exact absurd hkk.symm hk
    · simp only [Function.update_of_ne hji]

end Table

end MerlinV.Lib
