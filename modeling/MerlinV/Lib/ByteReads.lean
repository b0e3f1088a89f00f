import MerlinV.Lib.Packed

/-! # Computations that read a byte string

A computation returns a value or an error, and with it the offsets that it has read.  An offset
behind the end reads as zero; `Within` says that this has not happened.  The two string
functions read as their C namesakes do: up to the first byte that decides.
-/
namespace MerlinV.Lib

/-- The value or the error of a computation, with the offsets read on the way. -/
structure Rd (ε α : Type) where
  val : Except ε α
  reads : List ℕ

namespace Rd

variable {ε α β σ : Type}

instance : Monad (Rd ε) where
  pure a := ⟨.ok a, []⟩
  bind x f := match x.val with
    | .error e => ⟨.error e, x.reads⟩
    | .ok a => ⟨(f a).val, x.reads ++ (f a).reads⟩

def fail (e : ε) : Rd ε α := ⟨.error e, []⟩

def require (c : Prop) [Decidable c] (e : ε) : Rd ε Unit := if c then pure () else fail e

def byte (bs : Bytes) (off : ℕ) : Rd ε Byte := ⟨.ok (bs.getD off 0), [off]⟩

def word (k : ℕ) (bs : Bytes) (off : ℕ) : Rd ε ℕ := ⟨.ok (leValue k (bs.drop off)), List.range' off k⟩

def slice (bs : Bytes) (off len : ℕ) : Rd ε Bytes := ⟨.ok ((bs.drop off).take len), List.range' off len⟩

/-- Whether the string at `off` starts with `p`, as `strncmp(s, p, strlen(p)) == 0`. -/
def strncmp (bs : Bytes) : Bytes → ℕ → Rd ε Bool
  | [], _ => pure true
  | c :: cs, off => do
    let b ← byte bs off
    if b = c then strncmp bs cs (off + 1) else pure false

/-- The string at `off`, read up to its terminator but no more than `k` bytes, as a bounded copy
reads it. -/
def copyString (bs : Bytes) : ℕ → ℕ → Rd ε Bytes
  | 0, _ => pure []
  | k + 1, off => do
    let b ← byte bs off
    if b = 0 then pure [] else do
      let rest ← copyString bs k (off + 1)
      pure (b :: rest)

section Values

@[simp] theorem val_pure (a : α) : (pure a : Rd ε α).val = .ok a := rfl

@[simp] theorem val_fail (e : ε) : (fail e : Rd ε α).val = .error e := rfl

theorem val_bind (x : Rd ε α) (f : α → Rd ε β) : (x >>= f).val = x.val >>= fun a => (f a).val := by
  change (match x.val with
    | .error e => (⟨.error e, x.reads⟩ : Rd ε β)
    | .ok a => ⟨(f a).val, x.reads ++ (f a).reads⟩).val = _
  cases x.val with
  | error e => rfl
  | ok a => rfl

theorem val_bind_ok {x : Rd ε α} {a : α} (h : x.val = .ok a) (f : α → Rd ε β) :
    (x >>= f).val = (f a).val := by
  rw [val_bind, h]
  rfl

theorem val_bind_error {x : Rd ε α} {e : ε} (h : x.val = .error e) (f : α → Rd ε β) :
    (x >>= f).val = .error e := by
  rw [val_bind, h]
  rfl

@[simp] theorem val_word (k : ℕ) (bs : Bytes) (off : ℕ) :
    (word k bs off : Rd ε ℕ).val = .ok (leValue k (bs.drop off)) := rfl

@[simp] theorem val_byte (bs : Bytes) (off : ℕ) : (byte bs off : Rd ε Byte).val = .ok (bs.getD off 0) := rfl

@[simp] theorem val_slice (bs : Bytes) (off len : ℕ) :
    (slice bs off len : Rd ε Bytes).val = .ok ((bs.drop off).take len) := rfl

theorem val_require_pos {c : Prop} [Decidable c] (h : c) (e : ε) : (require c e).val = .ok () := by
  rw [require, if_pos h]
  rfl

theorem val_require_neg {c : Prop} [Decidable c] (h : ¬ c) (e : ε) : (require c e).val = .error e := by
  rw [require, if_neg h]
  rfl

@[simp] theorem val_word_bind (k : ℕ) (bs : Bytes) (off : ℕ) (f : ℕ → Rd ε β) :
    (word k bs off >>= f).val = (f (leValue k (bs.drop off))).val :=
  val_bind_ok (val_word k bs off) f

@[simp] theorem val_byte_bind (bs : Bytes) (off : ℕ) (f : Byte → Rd ε β) :
    (byte bs off >>= f).val = (f (bs.getD off 0)).val :=
  val_bind_ok (val_byte bs off) f

@[simp] theorem val_slice_bind (bs : Bytes) (off len : ℕ) (f : Bytes → Rd ε β) :
    (slice bs off len >>= f).val = (f ((bs.drop off).take len)).val :=
  val_bind_ok (val_slice bs off len) f

@[simp] theorem val_require_bind (c : Prop) [Decidable c] (e : ε) (f : Unit → Rd ε β) :
    (require c e >>= f).val = if c then (f ()).val else .error e := by
  split
  · rename_i h
    exact val_bind_ok (val_require_pos h e) f
  · rename_i h
    exact val_bind_error (val_require_neg h e) f

theorem val_strncmp {p : Bytes} (hp : 0 ∉ p) (bs : Bytes) (off : ℕ) :
    (strncmp bs p off : Rd ε Bool).val = .ok (decide (p <+: bs.drop off)) := by
  induction p generalizing off with
  | nil => simp [strncmp]
  | cons c cs ih =>
    rw [List.mem_cons, not_or] at hp
    rw [strncmp, val_bind_ok (val_byte bs off)]
    by_cases hoff : off < bs.length
    · have hget : bs.getD off 0 = bs[off] := by simp [hoff]
      rw [hget, List.drop_eq_getElem_cons hoff]
      by_cases hc : bs[off] = c
      · rw [if_pos hc, ih hp.2]
        simp [hc]
      · have hnot : ¬ c :: cs <+: bs[off] :: bs.drop (off + 1) := fun h =>
          hc (List.cons_prefix_cons.mp h).1.symm
        rw [if_neg hc, decide_eq_false hnot]
        rfl
    · have hnil : bs.drop off = [] := List.drop_eq_nil_of_le (not_lt.mp hoff)
      have hget : bs.getD off 0 = 0 := by simp [not_lt.mp hoff]
      rw [hget, if_neg hp.1, hnil]
      simp

theorem exists_val_copyString (bs : Bytes) (k off : ℕ) :
    ∃ s, (copyString bs k off : Rd ε Bytes).val = .ok s := by
  induction k generalizing off with
  | zero => exact ⟨[], rfl⟩
  | succ k ih =>
    rw [copyString, val_byte_bind]
    split
    · exact ⟨[], rfl⟩
    · obtain ⟨s, hs⟩ := ih (off + 1)
      exact ⟨_, val_bind_ok hs _⟩

end Values

section Within

def Within (n : ℕ) (x : Rd ε α) : Prop := ∀ r ∈ x.reads, r < n

variable {n : ℕ}

@[simp] theorem within_pure (a : α) : Within n (pure a : Rd ε α) := nofun

@[simp] theorem within_fail (e : ε) : Within n (fail e : Rd ε α) := nofun

@[simp] theorem within_require (c : Prop) [Decidable c] (e : ε) : Within n (require c e) := by
  unfold require
  split
  · exact within_pure ()
  · exact within_fail e

theorem within_bind {x : Rd ε α} {f : α → Rd ε β} :
    Within n (x >>= f) ↔ Within n x ∧ ∀ a, x.val = .ok a → Within n (f a) := by
  have hreads : (x >>= f).reads = x.reads ++ match x.val with
      | .error _ => []
      | .ok a => (f a).reads := by
    change (match x.val with
      | .error e => (⟨.error e, x.reads⟩ : Rd ε β)
      | .ok a => ⟨(f a).val, x.reads ++ (f a).reads⟩).reads = _
    cases x.val with
    | error e => exact (List.append_nil _).symm
    | ok a => rfl
  unfold Within
  rw [hreads]
  cases x.val with
  | error e => simp
  | ok a => simp [or_imp, forall_and]

theorem within_bind_ok {x : Rd ε α} {a : α} (hx : x.val = .ok a) (h : Within n x) {f : α → Rd ε β} :
    Within n (x >>= f) ↔ Within n (f a) := by
  rw [within_bind, hx]
  constructor
  · exact fun hf => hf.2 a rfl
  · intro hf
    refine ⟨h, fun b hb => ?_⟩
    obtain rfl := Except.ok.inj hb
    exact hf

theorem within_byte {bs : Bytes} {off : ℕ} : Within n (byte bs off : Rd ε Byte) ↔ off < n := by
  simp [Within, byte]

theorem within_word {k : ℕ} {bs : Bytes} {off : ℕ} (h : off + k ≤ n) :
    Within n (word k bs off : Rd ε ℕ) := by
  intro r hr
  have := List.mem_range'_1.mp hr
  omega

theorem within_word_iff {k : ℕ} {bs : Bytes} {off : ℕ} (hk : 0 < k) :
    Within n (word k bs off : Rd ε ℕ) ↔ off + k ≤ n := by
  refine ⟨fun h => ?_, within_word⟩
  have hlast := h (off + (k - 1)) (List.mem_range'_1.mpr (by omega))
  omega

theorem within_slice {bs : Bytes} {off len : ℕ} (h : off + len ≤ n) :
    Within n (slice bs off len : Rd ε Bytes) := by
  intro r hr
  have := List.mem_range'_1.mp hr
  omega

theorem within_byte_bind {bs : Bytes} {off : ℕ} {f : Byte → Rd ε β} (h : off < n) :
    Within n (byte bs off >>= f) ↔ Within n (f (bs.getD off 0)) :=
  within_bind_ok (val_byte bs off) (within_byte.mpr h)

theorem within_word_bind {k : ℕ} {bs : Bytes} {off : ℕ} {f : ℕ → Rd ε β} (h : off + k ≤ n) :
    Within n (word k bs off >>= f) ↔ Within n (f (leValue k (bs.drop off))) :=
  within_bind_ok (val_word k bs off) (within_word h)

theorem within_slice_bind {bs : Bytes} {off len : ℕ} {f : Bytes → Rd ε β} (h : off + len ≤ n) :
    Within n (slice bs off len >>= f) ↔ Within n (f ((bs.drop off).take len)) :=
  within_bind_ok (val_slice bs off len) (within_slice h)

theorem within_require_bind {c : Prop} [Decidable c] {e : ε} {f : Unit → Rd ε β} :
    Within n (require c e >>= f) ↔ (c → Within n (f ())) := by
  by_cases hc : c
  · rw [within_bind_ok (val_require_pos hc e) (within_require c e)]
    exact ⟨fun h _ => h, fun h => h hc⟩
  · rw [within_bind, val_require_neg hc e]
    simp [hc]

def CutShort (bs : Bytes) (p : Bytes) (off : ℕ) : Prop :=
  bs.drop off <+: p ∧ (bs.drop off).length < p.length

instance (bs p : Bytes) (off : ℕ) : Decidable (CutShort bs p off) := inferInstanceAs (Decidable (_ ∧ _))

/-- The comparison leaves the byte string exactly when the string ends inside the prefix. -/
theorem within_strncmp {bs : Bytes} (p : Bytes) {off : ℕ} (hoff : off ≤ bs.length) :
    Within bs.length (strncmp bs p off : Rd ε Bool) ↔ ¬ CutShort bs p off := by
  induction p generalizing off with
  | nil => simp [strncmp, CutShort]
  | cons c cs ih =>
    rw [strncmp, within_bind, within_byte]
    rcases Nat.lt_or_eq_of_le hoff with hlt | rfl
    · have hget : bs.getD off 0 = bs[off] := by simp [hlt]
      have hcut : CutShort bs (c :: cs) off ↔ bs[off] = c ∧ CutShort bs cs (off + 1) := by
        unfold CutShort
        rw [List.drop_eq_getElem_cons hlt]
        simp only [List.cons_prefix_cons, List.length_cons, Nat.succ_lt_succ_iff]
        tauto
      rw [hcut]
      simp only [val_byte, Except.ok.injEq, forall_eq', hget, hlt, true_and]
      by_cases hc : bs[off] = c
      · rw [if_pos hc, ih (by omega)]
        simp [hc]
      · rw [if_neg hc]
        simp [hc]
    · simp [CutShort]

/-- The copy leaves the byte string exactly when neither a terminator nor `k` bytes are left. -/
theorem within_copyString {bs : Bytes} (k : ℕ) {off : ℕ} (hoff : off ≤ bs.length) :
    Within bs.length (copyString bs k off : Rd ε Bytes) ↔ 0 ∈ bs.drop off ∨ off + k ≤ bs.length := by
  induction k generalizing off with
  | zero => simp [copyString, hoff]
  | succ k ih =>
    rw [copyString, within_bind, within_byte]
    rcases Nat.lt_or_eq_of_le hoff with hlt | rfl
    · have hget : bs.getD off 0 = bs[off] := by simp [hlt]
      rw [List.drop_eq_getElem_cons hlt]
      simp only [val_byte, Except.ok.injEq, forall_eq', hget, hlt, true_and]
      by_cases hz : bs[off] = 0
      · simp [hz]
      · have hmem : 0 ∈ bs[off] :: bs.drop (off + 1) ↔ 0 ∈ bs.drop (off + 1) :=
          List.mem_cons.trans (or_iff_right (Ne.symm hz))
        have hsum : off + (k + 1) = off + 1 + k := by omega
        rw [if_neg hz, within_bind, ih (by omega), hmem, hsum]
        simp
    · simp

end Within

end Rd

/-- What holds of `k + 1` positions holds of the first and of the `k` behind it. -/
theorem forall_window_succ {P : ℕ → Prop} {s k : ℕ} : (∀ i, s ≤ i → i < s + (k + 1) → P i) ↔
    P s ∧ ∀ i, s + 1 ≤ i → i < s + 1 + k → P i := by
  constructor
  · exact fun hall => ⟨hall s le_rfl (by omega), fun i h₁ h₂ => hall i (by omega) (by omega)⟩
  · rintro ⟨hhere, hrest⟩ i h₁ h₂
    rcases Nat.lt_or_eq_of_le h₁ with hlt | rfl
    · exact hrest i hlt (by omega)
    · exact hhere

end MerlinV.Lib
