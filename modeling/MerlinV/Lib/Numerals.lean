import Mathlib.Data.Nat.Digits.Defs
import MerlinV.Lib.Packed

/-! # Numerals of the C library

Numbers as `printf` prints them in a base, and `strtoul` and `strtoull` with base 0 as they read them: blanks,
a sign, the prefix that selects the base, and the digits.  Printed numbers read back.
-/
namespace MerlinV.Lib

def isSpaceByte (c : Byte) : Bool := c == 0x20 || (0x09 ≤ c.toNat && c.toNat ≤ 0x0d)

def digitOf (c : Byte) : Option ℕ :=
  if 48 ≤ c.toNat ∧ c.toNat ≤ 57 then some (c.toNat - 48)
  else if 97 ≤ c.toNat ∧ c.toNat ≤ 122 then some (c.toNat - 87)
  else if 65 ≤ c.toNat ∧ c.toNat ≤ 90 then some (c.toNat - 55)
  else none

def isDigitIn (base : ℕ) (c : Byte) : Bool := (digitOf c).any (· < base)

def numberOf (base : ℕ) (ds : Bytes) : ℕ := ds.foldl (fun n c => base * n + (digitOf c).getD 0) 0

/-- The base that the prefix selects, and what is left to read: `0x` counts only in front of a digit, and the `0`
of an octal number is a digit of it. -/
def cutPrefix (s : Bytes) : ℕ × Bytes :=
  if s.head? = some 0x30 then
    if (s[1]? = some 0x78 ∨ s[1]? = some 0x58) ∧ s[2]?.any (isDigitIn 16) then (16, s.drop 2) else (8, s)
  else (10, s)

/-- `strtoul(s, &end, 0)`: the value and what stands at `end`.  Without a digit it is zero and `end` is `s`; a
number that does not fit is the largest one; a minus sign negates modulo `2 ^ 64`. -/
def strtoul (s : Bytes) : BitVec 64 × Bytes :=
  let t := s.dropWhile isSpaceByte
  let neg : Bool := t.head? = some 0x2d
  let u := if neg ∨ t.head? = some 0x2b then t.drop 1 else t
  let (base, d) := cutPrefix u
  let ds := d.takeWhile (isDigitIn base)
  if ds = [] then (0, s)
  else
    let v := numberOf base ds
    (if 2 ^ 64 ≤ v then BitVec.allOnes 64 else if neg then -BitVec.ofNat 64 v else BitVec.ofNat 64 v,
      d.dropWhile (isDigitIn base))

def digitByte (d : ℕ) : Byte := BitVec.ofNat 8 (if d < 10 then 48 + d else 87 + d)

/-- A number as `printf` prints it with `%u` and, in base 16, with `%x`. -/
def printNat (base n : ℕ) : Bytes :=
  if n = 0 then [0x30] else (Nat.digits base n).reverse.map digitByte

def ascii (s : String) : Bytes := s.toList.map fun c => BitVec.ofNat 8 c.toNat

section Digits

variable {base n d : ℕ}

theorem digitOf_digitByte (hd : d < 36) : digitOf (digitByte d) = some d := by
  have hall : ∀ d < 36, digitOf (digitByte d) = some d := by decide
  exact hall d hd

theorem isDigitIn_digitByte (hbase : base ≤ 36) (hd : d < base) : isDigitIn base (digitByte d) = true := by
  rw [isDigitIn, digitOf_digitByte (by omega)]
  simpa using hd

theorem numberOf_append (ds : Bytes) (c : Byte) :
    numberOf base (ds ++ [c]) = base * numberOf base ds + (digitOf c).getD 0 := by
  simp [numberOf, List.foldl_append]

/-- The value of digits that are printed with the last one first. -/
theorem numberOf_reverse {ds : List ℕ} (hds : ∀ d ∈ ds, d < 36) :
    numberOf base (ds.reverse.map digitByte) = Nat.ofDigits base ds := by
  induction ds with
  | nil => rfl
  | cons d ds ih =>
    obtain ⟨hd, hrest⟩ := List.forall_mem_cons.mp hds
    rw [List.reverse_cons, List.map_append, List.map_singleton, numberOf_append, ih hrest, digitOf_digitByte hd,
      Nat.ofDigits_cons]
    simp [Nat.add_comm]

theorem numberOf_printNat (h2 : 2 ≤ base) (hbase : base ≤ 36) (n : ℕ) : numberOf base (printNat base n) = n := by
  unfold printNat
  split
  · rename_i hn
    rw [hn]
    rfl
  · rw [numberOf_reverse, Nat.ofDigits_digits]
    intro d hd
    exact lt_of_lt_of_le (Nat.digits_lt_base h2 hd) hbase

theorem printNat_digits (h2 : 2 ≤ base) (hbase : base ≤ 36) (n : ℕ) :
    ∀ c ∈ printNat base n, ∃ d < base, c = digitByte d := by
  unfold printNat
  split
  · intro c hc
    exact ⟨0, by omega, List.mem_singleton.mp hc⟩
  · intro c hc
    obtain ⟨d, hd, rfl⟩ := List.mem_map.mp hc
    exact ⟨d, Nat.digits_lt_base h2 (List.mem_reverse.mp hd), rfl⟩

theorem printNat_ne_nil (base n : ℕ) : printNat base n ≠ [] := by
  unfold printNat
  split
  · exact List.cons_ne_nil _ _
  · rename_i hn
    rw [ne_eq, List.map_eq_nil_iff, List.reverse_eq_nil_iff]
    exact Nat.digits_ne_nil_iff_ne_zero.mpr hn

/-- A printed number starts with a digit, which is a zero for zero only. -/
theorem printNat_head (h2 : 2 ≤ base) (hbase : base ≤ 36) (n : ℕ) :
    ∃ d ds, printNat base n = digitByte d :: ds ∧ d < base ∧ (d = 0 → n = 0) := by
  obtain ⟨c, ds, hcons⟩ := List.exists_cons_of_ne_nil (printNat_ne_nil base n)
  obtain ⟨d, hd, rfl⟩ := printNat_digits h2 hbase n c (by rw [hcons]; exact List.mem_cons_self)
  refine ⟨d, ds, hcons, hd, ?_⟩
  rintro rfl
  by_contra hn
  rw [printNat, if_neg hn] at hcons
  have hne := (@Nat.digits_ne_nil_iff_ne_zero base n).mpr hn
  have hlast := Nat.getLast_digit_ne_zero base hn
  have hhead := congrArg List.head? hcons
  rw [List.head?_map, List.head?_reverse, List.getLast?_eq_getLast_of_ne_nil hne, Option.map_some, List.head?_cons,
    Option.some.injEq] at hhead
  have hlt := Nat.digits_lt_base h2 (List.getLast_mem hne)
  have hval := congrArg digitOf hhead
  rw [digitOf_digitByte (by omega), digitOf_digitByte (by omega), Option.some.injEq] at hval
  exact hlast hval

end Digits

section Reading

variable {base n : ℕ} {r s : Bytes}

def EndsNumber (r : Bytes) : Prop := ∀ c ∈ r.head?, digitOf c = none

theorem EndsNumber.not_digit (hr : EndsNumber r) (base : ℕ) : r.takeWhile (isDigitIn base) = [] ∧
    r.dropWhile (isDigitIn base) = r := by
  cases r with
  | nil => exact ⟨rfl, rfl⟩
  | cons c r =>
    have hc : isDigitIn base c = false := by rw [isDigitIn, hr c rfl]; rfl
    exact ⟨List.takeWhile_cons_of_neg (by simp [hc]), List.dropWhile_cons_of_neg (by simp [hc])⟩

theorem printNat_span (h2 : 2 ≤ base) (hbase : base ≤ 36) (n : ℕ) (hr : EndsNumber r) :
    (printNat base n ++ r).takeWhile (isDigitIn base) = printNat base n ∧
    (printNat base n ++ r).dropWhile (isDigitIn base) = r := by
  have hall : ∀ c ∈ printNat base n, isDigitIn base c = true := by
    intro c hc
    obtain ⟨d, hd, rfl⟩ := printNat_digits h2 hbase n c hc
    exact isDigitIn_digitByte hbase hd
  rw [List.takeWhile_append_of_pos hall, List.dropWhile_append_of_pos hall, (hr.not_digit base).1,
    (hr.not_digit base).2, List.append_nil]
  exact ⟨rfl, rfl⟩

/-- A number without blank and sign in front. -/
theorem strtoul_unsigned {c : Byte} (hspace : isSpaceByte c = false) (hminus : c ≠ 0x2d) (hplus : c ≠ 0x2b)
    {d : Bytes} (hcut : cutPrefix (c :: s) = (base, d)) (hne : d.takeWhile (isDigitIn base) ≠ [])
    (hlt : numberOf base (d.takeWhile (isDigitIn base)) < 2 ^ 64) :
    strtoul (c :: s) = (BitVec.ofNat 64 (numberOf base (d.takeWhile (isDigitIn base))), d.dropWhile (isDigitIn base)) := by
  have hdrop : (c :: s).dropWhile isSpaceByte = c :: s := List.dropWhile_cons_of_neg (by simp [hspace])
  unfold strtoul
  simp only [hdrop, List.head?_cons, Option.some.injEq, hminus, hplus, decide_false, Bool.false_eq_true, or_self,
    if_false, hcut]
  rw [if_neg hne, if_neg (not_le.mpr hlt)]

/-- A number printed with `0x%x` reads back. -/
theorem strtoul_printNat_sixteen (hn : n < 2 ^ 64) (hr : EndsNumber r) :
    strtoul (0x30 :: 0x78 :: (printNat 16 n ++ r)) = (BitVec.ofNat 64 n, r) := by
  have hspan := @printNat_span 16 r (by decide) (by decide) n hr
  obtain ⟨d, ds, hcons, hd, -⟩ := @printNat_head 16 (by decide) (by decide) n
  have hcut : cutPrefix (0x30 :: 0x78 :: (printNat 16 n ++ r)) = (16, printNat 16 n ++ r) := by
    have hdigit : (0x30 :: 0x78 :: (printNat 16 n ++ r))[2]?.any (isDigitIn 16) = true := by
      rw [hcons]
      exact isDigitIn_digitByte (by decide) hd
    unfold cutPrefix
    rw [if_pos (show (0x30 :: 0x78 :: (printNat 16 n ++ r)).head? = some 0x30 from rfl), if_pos ⟨.inl rfl, hdigit⟩]
    rfl
  have hnum := @numberOf_printNat 16 (by decide) (by decide) n
  have hread := strtoul_unsigned (by decide) (by decide) (by decide) hcut
    (by rw [hspan.1]; exact printNat_ne_nil 16 n) (by rw [hspan.1, hnum]; exact hn)
  rw [hspan.1, hspan.2, hnum] at hread
  exact hread

-- a prefix without a digit behind it, and a number that is too large
example : (strtoul (0x30 :: 0x78 :: [0x2c])).2 = [0x78, 0x2c] := by decide
example : (strtoul (printNat 10 (2 ^ 64))).1 = BitVec.allOnes 64 := by decide +kernel

end Reading

end MerlinV.Lib
