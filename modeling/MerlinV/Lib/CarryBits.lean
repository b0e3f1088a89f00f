import Mathlib.Tactic

/-! # Bitwise bounds, appended fields and the carries of an addition

`lo ⊆ x` below means that every bit of `lo` is a bit of `x`, written as an equation
on `&&&`.  The carry into a position is monotone for this order, so a bit of a sum is
determined as soon as both extreme sums agree on it.
-/
namespace MerlinV.Lib

variable {w : ℕ}

/-- A bitwise part has a smaller residue modulo every power of two. -/
theorem mod_two_pow_le_of_and_eq {x y : BitVec w} (h : x &&& y = x) (i : ℕ) :
    x.toNat % 2 ^ i ≤ y.toNat % 2 ^ i := by
  have hn : x.toNat &&& y.toNat = x.toNat := by
    rw [← BitVec.toNat_and, h]
  calc x.toNat % 2 ^ i = (x.toNat &&& y.toNat) % 2 ^ i := by rw [hn]
    _ = (x.toNat % 2 ^ i) &&& (y.toNat % 2 ^ i) := Nat.and_mod_two_pow
    _ ≤ y.toNat % 2 ^ i := Nat.and_le_right

theorem carry_mono {x x' y y' : BitVec w} (hx : x &&& x' = x) (hy : y &&& y' = y) (i : ℕ)
    (h : BitVec.carry i x y false = true) : BitVec.carry i x' y' false = true := by
  have hx' := mod_two_pow_le_of_and_eq hx i
  have hy' := mod_two_pow_le_of_and_eq hy i
  simp only [BitVec.carry, decide_eq_true_eq] at h ⊢
  omega

/-- Bit `i` of `x + y` is that of the two extreme sums when these agree and neither operand
leaves bit `i` open. -/
theorem add_bit_of_bounds {lo x hi lo' y hi' : BitVec w} {i : ℕ} (hi_lt : i < w)
    (hlx : lo &&& x = lo) (hxh : x &&& hi = x) (hly : lo' &&& y = lo') (hyh : y &&& hi' = y)
    (hb : lo.getLsbD i = hi.getLsbD i) (hb' : lo'.getLsbD i = hi'.getLsbD i)
    (hsum : (lo + lo').getLsbD i = (hi + hi').getLsbD i) :
    (x + y).getLsbD i = (lo + lo').getLsbD i := by
  have bit {a b c : BitVec w} (h₁ : a &&& b = a) (h₂ : b &&& c = b)
      (h₃ : a.getLsbD i = c.getLsbD i) : b.getLsbD i = a.getLsbD i := by
    have e₁ := congrArg (fun v => v.getLsbD i) h₁
    have e₂ := congrArg (fun v => v.getLsbD i) h₂
    simp only [BitVec.getLsbD_and] at e₁ e₂
    cases ha : a.getLsbD i <;> cases hb : b.getLsbD i <;> simp_all
  have hxi := bit hlx hxh hb
  have hyi := bit hly hyh hb'
  have hup := carry_mono hlx hly i
  have hdn := carry_mono hxh hyh i
  rw [BitVec.getLsbD_add hi_lt, BitVec.getLsbD_add hi_lt] at hsum ⊢
  rw [← hb, ← hb'] at hsum
  rw [hxi, hyi]
  cases hc : BitVec.carry i lo lo' false <;> cases hd : BitVec.carry i hi hi' false <;>
    cases he : BitVec.carry i x y false <;> simp_all

theorem not_and_not {x y : BitVec w} (h : x &&& y = x) : ~~~y &&& ~~~x = ~~~y := by
  apply BitVec.eq_of_getLsbD_eq
  intro i hi
  have hbit := congrArg (fun v => v.getLsbD i) h
  simp only [BitVec.getLsbD_and] at hbit
  simp only [BitVec.getLsbD_and, BitVec.getLsbD_not, hi, decide_true, Bool.true_and]
  revert hbit
  cases x.getLsbD i <;> cases y.getLsbD i <;> simp

/-- Bit `i` of `x - y` is that of the two extreme differences, which are the complements of the extreme
sums of `~x` and `y`. -/
theorem sub_bit_of_bounds {lo x hi lo' y hi' : BitVec w} {i : ℕ} (hi_lt : i < w)
    (hlx : lo &&& x = lo) (hxh : x &&& hi = x) (hly : lo' &&& y = lo') (hyh : y &&& hi' = y)
    (hb : lo.getLsbD i = hi.getLsbD i) (hb' : lo'.getLsbD i = hi'.getLsbD i)
    (hdiff : (hi - lo').getLsbD i = (lo - hi').getLsbD i) :
    (x - y).getLsbD i = (hi - lo').getLsbD i := by
  have hnot : ∀ v : BitVec w, (~~~v).getLsbD i = !v.getLsbD i := by
    intro v
    rw [BitVec.getLsbD_not, decide_eq_true hi_lt, Bool.true_and]
  have hadd := add_bit_of_bounds hi_lt (not_and_not hxh) (not_and_not hlx) hly hyh
    (by rw [hnot, hnot, hb]) hb'
    (by rw [← BitVec.not_sub_eq_not_add, ← BitVec.not_sub_eq_not_add, hnot, hnot, hdiff])
  rw [← BitVec.not_sub_eq_not_add, ← BitVec.not_sub_eq_not_add, hnot, hnot] at hadd
  exact Bool.not_inj hadd

/-- Adding a part to a disjoint part is taking their union. -/
theorem add_eq_or {x y : BitVec w} (h : x &&& y = 0#w) : x + y = x ||| y :=
  BitVec.add_eq_or_of_and_eq_zero x y h

theorem toNat_append_eq {m n : ℕ} (x : BitVec m) (y : BitVec n) :
    (x ++ y).toNat = x.toNat * 2 ^ n + y.toNat := by
  rw [BitVec.toNat_append, ← Nat.shiftLeft_add_eq_or_of_lt y.isLt, Nat.shiftLeft_eq]

/-- A word in two parts is the parts it is made of. -/
theorem append_eq_iff {m n : ℕ} {a : BitVec m} {b : BitVec n} {w : BitVec (m + n)} :
    a ++ b = w ↔ a = w.extractLsb' n m ∧ b = w.extractLsb' 0 n := by
  constructor
  · rintro rfl
    exact ⟨BitVec.extractLsb'_append_eq_left.symm, BitVec.extractLsb'_append_eq_right.symm⟩
  · rintro ⟨rfl, rfl⟩
    exact BitVec.extractLsb'_append_extractLsb'

theorem extractLsb'_nested {n s l s' l' : ℕ} (w : BitVec n) (h : s' + l' ≤ l) :
    (w.extractLsb' s l).extractLsb' s' l' = w.extractLsb' (s + s') l' := by
  apply BitVec.eq_of_getLsbD_eq
  intro i hi
  have hlt : s' + i < l := by omega
  simp only [BitVec.getLsbD_extractLsb', hi, hlt, decide_true, Bool.true_and, Nat.add_assoc]

end MerlinV.Lib
