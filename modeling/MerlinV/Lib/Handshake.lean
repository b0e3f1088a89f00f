import Mathlib.Tactic

/-! # One request at a time

A server takes a request when it is idle and is busy until its answer is taken.  Time is counted in
cycles.  Requests and answers then alternate: each request is answered once, before the next one
is accepted, and the answers taken are the requests accepted up to one that is outstanding.
-/
namespace MerlinV.Lib

/-- `busy` follows the requests that are accepted and the answers that are taken. -/
structure OneShot (busy accept done : ℕ → Prop) : Prop where
  idle : ¬ busy 0
  of_accept : ∀ t, accept t → ¬ busy t
  of_done : ∀ t, done t → busy t
  next : ∀ t, busy (t + 1) ↔ accept t ∨ (busy t ∧ ¬ done t)

/-- A response flag that a request raises and `ready` lowers, where no request is accepted while the
flag is up. -/
theorem oneShot_of_flag {up fire ready : ℕ → Bool} (h₀ : up 0 = false)
    (hfire : ∀ t, fire t = true → up t = false)
    (hnext : ∀ t, up (t + 1) = if up t && ready t then false else fire t || up t) :
    OneShot (fun t => up t = true) (fun t => fire t = true) (fun t => (up t && ready t) = true) := by
  constructor
  · rw [h₀]
    exact Bool.false_ne_true
  · intro t ht
    rw [hfire t ht]
    exact Bool.false_ne_true
  · intro t ht
    exact (Bool.and_eq_true _ _ ▸ ht).1
  · intro t
    have hlow := hfire t
    rw [hnext]
    cases hf : fire t with
    | true =>
      rw [hlow hf]
      simp
    | false =>
      cases up t <;> cases ready t <;> simp

namespace OneShot

variable {busy accept done : ℕ → Prop} (h : OneShot busy accept done)

include h

/-- The answer to a request is offered until it is taken. -/
theorem busy_of_accept {t u : ℕ} (ht : accept t) (htu : t < u) (hno : ∀ s, t < s → s < u → ¬ done s) :
    busy u := by
  induction u, htu using Nat.le_induction with
  | base => exact (h.next t).mpr (.inl ht)
  | succ u hu ih =>
    have hbusy := ih fun s h₁ h₂ => hno s h₁ (Nat.lt_succ_of_lt h₂)
    exact (h.next u).mpr (.inr ⟨hbusy, hno u hu (Nat.lt_succ_self u)⟩)

/-- Behind an answer the server is idle until it accepts a request. -/
theorem idle_of_done {u v : ℕ} (hu : done u) (huv : u < v) (hno : ∀ s, u < s → s < v → ¬ accept s) :
    ¬ busy v := by
  induction v, huv using Nat.le_induction with
  | base =>
    rw [h.next]
    rintro (hacc | hbusy)
    · exact h.of_accept u hacc (h.of_done u hu)
    · exact hbusy.2 hu
  | succ v hv ih =>
    have hidle := ih fun s h₁ h₂ => hno s h₁ (Nat.lt_succ_of_lt h₂)
    rw [h.next]
    rintro (hacc | hbusy)
    · exact hno v hv (Nat.lt_succ_self v) hacc
    · exact hidle hbusy.1

/-- Between two requests that follow each other exactly one answer is taken. -/
theorem existsUnique_done {t t' : ℕ} (ht : accept t) (ht' : accept t') (hlt : t < t')
    (hno : ∀ s, t < s → s < t' → ¬ accept s) : ∃! u, (t < u ∧ u < t') ∧ done u := by
  have hex : ∃ u, (t < u ∧ u < t') ∧ done u := by
    by_contra hnone
    refine h.of_accept t' ht' (h.busy_of_accept ht hlt fun s h₁ h₂ hs => ?_)
    exact hnone ⟨s, ⟨h₁, h₂⟩, hs⟩
  obtain ⟨u, ⟨htu, hut⟩, hu⟩ := hex
  -- a second answer would find the server idle
  have horder : ∀ {a b : ℕ}, t < a → b < t' → done a → done b → ¬ a < b := by
    intro a b hta hbt ha hb hab
    refine h.idle_of_done ha hab (fun s h₁ h₂ => ?_) (h.of_done b hb)
    exact hno s (hta.trans h₁) (h₂.trans hbt)
  refine ⟨u, ⟨⟨htu, hut⟩, hu⟩, ?_⟩
  rintro v ⟨⟨htv, hvt⟩, hv⟩
  exact le_antisymm (not_lt.mp (horder htu hvt hu hv)) (not_lt.mp (horder htv hut hv hu))

/-- The requests accepted are the answers taken and the one that is outstanding. -/
theorem count_accept [DecidablePred busy] [DecidablePred accept] [DecidablePred done] (t : ℕ) :
    Nat.count accept t = Nat.count done t + if busy t then 1 else 0 := by
  induction t with
  | zero => simp [h.idle]
  | succ t ih =>
    rw [Nat.count_succ, Nat.count_succ, ih]
    by_cases hacc : accept t
    · have hbusy := h.of_accept t hacc
      have hdone : ¬ done t := fun hd => hbusy (h.of_done t hd)
      rw [if_pos hacc, if_neg hbusy, if_neg hdone, if_pos ((h.next t).mpr (.inl hacc))]
    · by_cases hdone : done t
      · have hidle : ¬ busy (t + 1) := by
          rw [h.next]
          rintro (ha | hb)
          · exact hacc ha
          · exact hb.2 hdone
        rw [if_neg hacc, if_pos (h.of_done t hdone), if_pos hdone, if_neg hidle]
      · have hsame : busy (t + 1) ↔ busy t := by
          rw [h.next]
          exact ⟨fun hb => (hb.resolve_left hacc).1, fun hb => .inr ⟨hb, hdone⟩⟩
        rw [if_neg hacc, if_neg hdone]
        simp only [hsame, Nat.add_zero]

theorem stored {α : Type*} (value new : ℕ → α)
    (hvalue : ∀ t, (accept t → value (t + 1) = new t) ∧ (¬ accept t → value (t + 1) = value t)) {t u : ℕ}
    (ht : accept t) (htu : t < u) (hno : ∀ s, t < s → s < u → ¬ done s) : value u = new t := by
  induction u, htu using Nat.le_induction with
  | base => exact (hvalue t).1 ht
  | succ u hu ih =>
    have hrest : ∀ s, t < s → s < u → ¬ done s := fun s h₁ h₂ => hno s h₁ (Nat.lt_succ_of_lt h₂)
    have hacc : ¬ accept u := fun ha => h.of_accept u ha (h.busy_of_accept ht hu hrest)
    rw [(hvalue u).2 hacc, ih hrest]

end OneShot

end MerlinV.Lib
