import Mathlib.Tactic

/-! # Requests that are held until they are acknowledged

A master raises a request, holds it until it sees an acknowledgement and then drops it for
a cycle.  A server that is idle when a request comes and acknowledges it a number of cycles
later gives every request exactly one acknowledgement.  Time is counted in cycles.
-/
namespace MerlinV.Lib

/-- The master: a request stays until it is acknowledged and is then dropped. -/
structure Held (req ack : ℕ → Bool) : Prop where
  hold : ∀ t, req t = true → ack t = false → req (t + 1) = true
  drop : ∀ t, req t = true → ack t = true → req (t + 1) = false

def Begins (req : ℕ → Bool) (t : ℕ) : Prop := req t = true ∧ ∀ u, u + 1 = t → req u = false

instance (req : ℕ → Bool) (t : ℕ) : Decidable (Begins req t) :=
  decidable_of_iff (req t = true ∧ (t = 0 ∨ req (t - 1) = false)) <| by
    refine and_congr_right fun _ => ⟨?_, fun h => ?_⟩
    · rintro (rfl | h) u hu
      · omega
      · rwa [← hu, Nat.add_sub_cancel] at h
    · rcases Nat.eq_zero_or_pos t with h0 | hpos
      · exact .inl h0
      · exact .inr (h (t - 1) (by omega))

def During (req : ℕ → Bool) (t u : ℕ) : Prop := t ≤ u ∧ ∀ v, t ≤ v → v ≤ u → req v = true

/-- The server: idle without a request, it stays idle; a request in an idle cycle `t` keeps it
busy up to cycle `t + lat t`, when the acknowledgement comes. -/
structure Serves (req ack : ℕ → Bool) (idle : ℕ → Prop) (lat : ℕ → ℕ) : Prop where
  start : idle 0
  wait : ∀ t, idle t → req t = false → ack t = false ∧ idle (t + 1)
  pos : ∀ t, 0 < lat t
  quiet : ∀ t, idle t → req t = true → ∀ k < lat t, ack (t + k) = false
  busy : ∀ t, idle t → req t = true → ∀ k < lat t, ¬ idle (t + k + 1)
  served : ∀ t, idle t → req t = true → ack (t + lat t) = true ∧ idle (t + lat t + 1)

namespace Serves

variable {req ack : ℕ → Bool} {idle : ℕ → Prop} {lat : ℕ → ℕ} (h : Serves req ack idle lat)
  (hm : Held req ack)

include h hm

theorem during_lat {t : ℕ} (hi : idle t) (hr : req t = true) {k : ℕ} (hk : k ≤ lat t) :
    During req t (t + k) := by
  have hreq : ∀ k ≤ lat t, req (t + k) = true := by
    intro k
    induction k with
    | zero => exact fun _ => hr
    | succ k ih => exact fun hk => hm.hold _ (ih (by omega)) (h.quiet t hi hr k hk)
  refine ⟨by omega, fun v hv hvu => ?_⟩
  obtain ⟨j, rfl⟩ := Nat.exists_eq_add_of_le hv
  exact hreq j (by omega)

/-- Every cycle is idle or lies between the beginning and the end of a request. -/
theorem cover (u : ℕ) : (idle u ∧ (req u = true → Begins req u)) ∨
    ∃ t, Begins req t ∧ idle t ∧ t < u ∧ u ≤ t + lat t := by
  induction u with
  | zero => exact .inl ⟨h.start, fun hr => ⟨hr, fun u hu => by omega⟩⟩
  | succ u ih =>
    rcases ih with ⟨hi, hb⟩ | ⟨t, hb, hi, htu, hle⟩
    · cases hr : req u with
      | true =>
        have hpos := h.pos u
        exact .inr ⟨u, hb hr, hi, by omega, by omega⟩
      | false =>
        refine .inl ⟨(h.wait u hi hr).2, fun hr' => ⟨hr', fun v hv => ?_⟩⟩
        obtain rfl : v = u := by omega
        exact hr
    · by_cases hlast : u = t + lat t
      · subst hlast
        obtain ⟨hack, hidle⟩ := h.served t hi hb.1
        have hreq := (h.during_lat hm hi hb.1 le_rfl).2 (t + lat t) (by omega) le_rfl
        have hdrop := hm.drop _ hreq hack
        exact .inl ⟨hidle, fun hr => by simp [hdrop] at hr⟩
      · exact .inr ⟨t, hb, hi, by omega, by omega⟩

theorem idle_of_begins {t : ℕ} (hb : Begins req t) : idle t := by
  rcases h.cover hm t with ⟨hi, -⟩ | ⟨u, hu, hi, hlt, hle⟩
  · exact hi
  · have hreq := (h.during_lat hm hi hu.1 (k := t - 1 - u) (by omega)).2 (t - 1) (by omega) (by omega)
    rw [hb.2 (t - 1) (by omega)] at hreq
    cases hreq

theorem begins_iff {t : ℕ} : Begins req t ↔ idle t ∧ req t = true := by
  constructor
  · exact fun hb => ⟨h.idle_of_begins hm hb, hb.1⟩
  · rintro ⟨hi, hr⟩
    rcases h.cover hm t with ⟨-, hb⟩ | ⟨u, hu, hui, hlt, hle⟩
    · exact hb hr
    · have hno := h.busy u hui hu.1 (t - u - 1) (by omega)
      rw [show u + (t - u - 1) + 1 = t by omega] at hno
      exact absurd hi hno

theorem begins_unique {t t' u : ℕ} (hb : Begins req t) (hd : During req t u) (hb' : Begins req t')
    (hle : t' ≤ u) (hlat : u ≤ t' + lat t') : t' = t := by
  rcases lt_trichotomy t' t with hlt | heq | hgt
  · have hi := h.idle_of_begins hm hb'
    have htu := hd.1
    have hreq := (h.during_lat hm hi hb'.1 (k := t - 1 - t') (by omega)).2 (t - 1) (by omega) (by omega)
    rw [hb.2 (t - 1) (by omega)] at hreq
    cases hreq
  · exact heq
  · have hreq := hd.2 (t' - 1) (by omega) (by omega)
    rw [hb'.2 (t' - 1) (by omega)] at hreq
    cases hreq

/-- The acknowledgements come `lat` cycles behind the beginnings. -/
theorem ack_iff (u : ℕ) : ack u = true ↔ ∃ t, Begins req t ∧ u = t + lat t := by
  constructor
  · intro ha
    rcases h.cover hm u with ⟨hi, -⟩ | ⟨t, hb, hi, htu, hle⟩
    · have hno : ack u = false := by
        cases hr : req u with
        | true => exact h.quiet u hi hr 0 (h.pos u)
        | false => exact (h.wait u hi hr).1
      rw [hno] at ha
      cases ha
    · refine ⟨t, hb, ?_⟩
      by_contra hne
      have hno := h.quiet t hi hb.1 (u - t) (by omega)
      rw [show t + (u - t) = u by omega, ha] at hno
      cases hno
  · rintro ⟨t, hb, rfl⟩
    exact (h.served t (h.idle_of_begins hm hb) hb.1).1

/-- A signal that is raised a fixed time behind the beginning of some requests, and at no other
time, is raised exactly once during each of them. -/
theorem pulse_once {p : ℕ → Prop} {W : ℕ → Prop} {off : ℕ → ℕ} (hoff : ∀ t, off t ≤ lat t)
    (hp : ∀ u, p u ↔ ∃ t, Begins req t ∧ W t ∧ u = t + off t) {t : ℕ} (hb : Begins req t) (hw : W t) :
    ∃! u, During req t u ∧ p u := by
  have hi := h.idle_of_begins hm hb
  refine ⟨t + off t, ⟨h.during_lat hm hi hb.1 (hoff t), (hp _).mpr ⟨t, hb, hw, rfl⟩⟩, ?_⟩
  rintro u ⟨hd, hpu⟩
  obtain ⟨t', hb', -, rfl⟩ := (hp u).mp hpu
  have hle := hoff t'
  rw [h.begins_unique hm hb hd hb' (by omega) (by omega)]

theorem ack_once {t : ℕ} (hb : Begins req t) : ∃! u, During req t u ∧ ack u = true := by
  refine h.pulse_once (W := fun _ => True) hm (fun t => le_rfl) (fun u => ?_) hb trivial
  rw [h.ack_iff hm]
  simp

end Serves

end MerlinV.Lib
