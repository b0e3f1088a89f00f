import Mathlib.Tactic

/-! # Packed records

Little-endian words and byte arrays laid out one after the other.  A codec writes a value in a fixed
number of bytes and reads it back from any byte string that starts with them.
-/
namespace MerlinV.Lib

abbrev Byte := BitVec 8

abbrev Bytes := List Byte

structure Codec (α : Type*) where
  width : ℕ
  put : α → Bytes
  get : Bytes → α
  length_put : ∀ a, (put a).length = width
  get_put : ∀ a rest, get (put a ++ rest) = a

section Words

/-- The `k` low bytes of `n`, the lowest first. -/
def leBytes : ℕ → ℕ → Bytes
  | 0, _ => []
  | k + 1, n => BitVec.ofNat 8 n :: leBytes k (n / 256)

/-- The number in the first `k` bytes, the lowest first; missing bytes are zero. -/
def leValue : ℕ → Bytes → ℕ
  | 0, _ => 0
  | _ + 1, [] => 0
  | k + 1, b :: bs => b.toNat + 256 * leValue k bs

theorem length_leBytes (k n : ℕ) : (leBytes k n).length = k := by
  induction k generalizing n with
  | zero => rfl
  | succ k ih => rw [leBytes, List.length_cons, ih]

theorem leValue_leBytes (k n : ℕ) (rest : Bytes) : leValue k (leBytes k n ++ rest) = n % 256 ^ k := by
  induction k generalizing n with
  | zero => rw [leValue, pow_zero, Nat.mod_one]
  | succ k ih =>
    have hbyte : (BitVec.ofNat 8 n).toNat = n % 256 := BitVec.toNat_ofNat n 8
    rw [leBytes, List.cons_append, leValue, ih, hbyte, pow_succ', Nat.mod_mul]

end Words

namespace Codec

variable {α β : Type*}

def word (k : ℕ) : Codec (BitVec (8 * k)) where
  width := k
  put w := leBytes k w.toNat
  get bs := BitVec.ofNat (8 * k) (leValue k bs)
  length_put w := length_leBytes k w.toNat
  get_put w rest := by
    have hpow : (256 : ℕ) ^ k = 2 ^ (8 * k) := by rw [pow_mul]; norm_num
    apply BitVec.eq_of_toNat_eq
    rw [leValue_leBytes, hpow, BitVec.toNat_ofNat, Nat.mod_mod, Nat.mod_eq_of_lt w.isLt]

def u32 : Codec (BitVec 32) := word 4

def u64 : Codec (BitVec 64) := word 8

def bytes (n : ℕ) : Codec (Vector Byte n) where
  width := n
  put v := v.toList
  get bs := Vector.ofFn fun i : Fin n => bs.getD i.val 0
  length_put v := by simp
  get_put v rest := by
    apply Vector.ext
    intro i hi
    have hlen : i < v.toList.length := by simpa using hi
    simp [List.getElem?_append_left hlen, hi]

def pair (c : Codec α) (d : Codec β) : Codec (α × β) where
  width := c.width + d.width
  put p := c.put p.1 ++ d.put p.2
  get bs := (c.get bs, d.get (bs.drop c.width))
  length_put p := by rw [List.length_append, c.length_put, d.length_put]
  get_put p rest := by
    rw [List.append_assoc, c.get_put, List.drop_append_of_le_length (c.length_put p.1).ge,
      List.drop_of_length_le (c.length_put p.1).le, List.nil_append, d.get_put]

def array (c : Codec α) (n : ℕ) : Codec (Vector α n) where
  width := n * c.width
  put v := v.toList.flatMap c.put
  get bs := Vector.ofFn fun i : Fin n => c.get (bs.drop (i.val * c.width))
  length_put v := by
    have hsum : ∀ l : List α, (l.flatMap c.put).length = l.length * c.width := by
      intro l
      induction l with
      | nil => simp
      | cons a l ih => rw [List.flatMap_cons, List.length_append, c.length_put, ih, List.length_cons, Nat.succ_mul,
          Nat.add_comm]
    rw [hsum, Vector.length_toList]
  get_put v rest := by
    have hdrop : ∀ (l : List α) (i : ℕ) (hi : i < l.length) (r : Bytes),
        c.get ((l.flatMap c.put ++ r).drop (i * c.width)) = l[i] := by
      intro l
      induction l with
      | nil => exact fun i hi => absurd hi (Nat.not_lt_zero i)
      | cons a l ih =>
        intro i hi r
        cases i with
        | zero =>
          rw [Nat.zero_mul, List.drop_zero, List.flatMap_cons, List.append_assoc, c.get_put]
          rfl
        | succ i =>
          have hlen : (i + 1) * c.width = (c.put a).length + i * c.width := by
            rw [c.length_put, Nat.succ_mul, Nat.add_comm]
          rw [List.flatMap_cons, List.append_assoc, hlen, ← List.drop_drop, List.drop_left, ih i (Nat.lt_of_succ_lt_succ hi) r]
          rfl
    apply Vector.ext
    intro i hi
    rw [Vector.getElem_ofFn, hdrop v.toList i (by simpa using hi) rest, Vector.getElem_toList]

def transport (c : Codec α) (e : α ≃ β) : Codec β where
  width := c.width
  put b := c.put (e.symm b)
  get bs := e (c.get bs)
  length_put b := c.length_put (e.symm b)
  get_put b rest := by rw [c.get_put, e.apply_symm_apply]

theorem take_put (c : Codec α) (a : α) (rest : Bytes) : (c.put a ++ rest).take c.width = c.put a := by
  rw [← c.length_put a, List.take_left]

theorem drop_put (c : Codec α) (a : α) (rest : Bytes) : (c.put a ++ rest).drop c.width = rest := by
  rw [← c.length_put a, List.drop_left]

end Codec

end MerlinV.Lib
