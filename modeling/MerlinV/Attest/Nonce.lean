import MerlinV.Attest.Quote
import MerlinV.Lib.Fallible

/-! # Hexadecimal arguments

`hex_to_bytes` of `tools/merlin-attest/merlin-attest.c` checks the length of its argument and leaves each
pair of digits to `sscanf`, whose rules for blanks, signs and prefixes apply at every position.
-/
namespace MerlinV

open Lib

/-- A C string: no NUL before its end, and its length fits a `size_t`. -/
structure CString where
  chars : FileText
  noNul : '\x00' ∉ chars
  short : chars.length < 2 ^ 64

namespace Hex

def digits : FileText := "0123456789abcdefABCDEF".toList

def isXDigit (c : Char) : Bool := c ∈ digits

def digitValue (c : Char) : ℕ := if c.isDigit then c.toNat - 48 else c.toLower.toNat - 87

def hexValue (ds : FileText) : ℕ := ds.foldl (fun n c => 16 * n + digitValue c) 0

/-- The digits of an input item, behind an optional sign. -/
def itemDigits (item : FileText) : FileText :=
  (if item.head? = some '-' ∨ item.head? = some '+' then item.tail else item).takeWhile isXDigit

/-- The prefix of a number, with no room left in two characters for a digit behind it. -/
def isBarePrefix (item : FileText) : Bool := item = ['0', 'x'] || item = ['0', 'X']

/-- `sscanf` with the format `%2x`: white space, then an item of at most two characters.  A minus sign
negates, and an item without digits fails.  Of a bare `0x` the library makes `bare`: by the C standard it does
not match, and glibc reads a zero. -/
def scan2x (bare : Option (BitVec 32)) (t : FileText) : Option (BitVec 32) :=
  let item := (t.dropWhile isSpace).take 2
  let ds := itemDigits item
  if isBarePrefix item then bare
  else if ds = [] then none
  else if item.head? = some '-' then some (-BitVec.ofNat 32 (hexValue ds))
  else some (BitVec.ofNat 32 (hexValue ds))

def scanBytes (bare : Option (BitVec 32)) (s : FileText) (n : ℕ) : Option Bytes :=
  (List.range n).mapM fun i => (scan2x bare (s.drop (2 * i))).map (BitVec.setWidth 8)

def hexToBytes (bare : Option (BitVec 32)) (s : CString) (outLen : BitVec 64) : Option Bytes :=
  if BitVec.ofNat 64 s.chars.length ≠ outLen * 2 then none else scanBytes bare s.chars outLen.toNat

def printByte (b : Byte) : FileText := [Nat.digitChar (b.toNat / 16), Nat.digitChar (b.toNat % 16)]

def bytesToHex (p : Bytes) : FileText := p.flatMap printByte

/-- The text starts with a digit, or with a sign and a digit.  A digit that begins a `0x` counts where the library
reads a bare one. -/
def startsNumber (bare : Option (BitVec 32)) : FileText → Bool
  | [] => false
  | [c] => isXDigit c
  | c :: d :: _ =>
    if c = '+' ∨ c = '-' then isXDigit d else isXDigit c && (bare.isSome || !decide (c = '0' ∧ (d = 'x' ∨ d = 'X')))

section Scan

variable {bare : Option (BitVec 32)}

theorem isXDigit_spec {c : Char} (h : isXDigit c = true) : isSpace c = false ∧ c ≠ '+' ∧ c ≠ '-' ∧ c ≠ 'x' ∧
    c ≠ 'X' ∧ digitValue c < 16 ∧ Nat.digitChar (digitValue c) = c.toLower := by
  -- checked over the list, not over all characters
  have hall : digits.all (fun c => isSpace c = false ∧ c ≠ '+' ∧ c ≠ '-' ∧ c ≠ 'x' ∧ c ≠ 'X' ∧
      digitValue c < 16 ∧ Nat.digitChar (digitValue c) = c.toLower) = true := by decide
  exact of_decide_eq_true (List.all_eq_true.mp hall c (of_decide_eq_true h))

theorem isBarePrefix_pair (c d : Char) : isBarePrefix [c, d] = decide (c = '0' ∧ (d = 'x' ∨ d = 'X')) := by
  rw [isBarePrefix, Bool.eq_iff_iff]
  simp only [List.cons.injEq, and_true, Bool.or_eq_true, decide_eq_true_iff]
  tauto

theorem itemDigits_sign {c : Char} (hsign : c = '+' ∨ c = '-') (ds : FileText) :
    itemDigits (c :: ds) = ds.takeWhile isXDigit := by
  rw [itemDigits, if_pos (by simpa [or_comm] using hsign), List.tail_cons]

theorem itemDigits_of_not_sign {c : Char} (hsign : ¬ (c = '+' ∨ c = '-')) (ds : FileText) :
    itemDigits (c :: ds) = (c :: ds).takeWhile isXDigit := by
  rw [itemDigits, if_neg (by simpa [or_comm] using hsign)]

theorem takeWhile_cons_ne_nil (c : Char) (ds : FileText) :
    (c :: ds).takeWhile isXDigit ≠ [] ↔ isXDigit c = true := by
  rw [List.takeWhile_cons]
  split <;> simp_all

/-- An item converts exactly when a number starts there. -/
theorem item_converts (u : FileText) :
    (if isBarePrefix (u.take 2) then bare.isSome = true else itemDigits (u.take 2) ≠ []) ↔
      startsNumber bare u = true := by
  match u with
  | [] => simp [itemDigits, isBarePrefix, startsNumber]
  | [c] =>
    rw [List.take_of_length_le (by simp), if_neg (by simp [isBarePrefix]), startsNumber]
    by_cases hsign : c = '+' ∨ c = '-'
    · rcases hsign with rfl | rfl <;> decide
    · rw [itemDigits_of_not_sign hsign, takeWhile_cons_ne_nil]
  | c :: d :: r =>
    rw [List.take_succ_cons, List.take_succ_cons, List.take_zero, startsNumber, isBarePrefix_pair]
    by_cases hsign : c = '+' ∨ c = '-'
    · have hzero : ¬ (c = '0' ∧ (d = 'x' ∨ d = 'X')) := by
        rcases hsign with rfl | rfl <;> simp
      rw [itemDigits_sign hsign, if_pos hsign, decide_eq_false hzero, if_neg (by simp), takeWhile_cons_ne_nil]
    · rw [itemDigits_of_not_sign hsign, if_neg hsign, takeWhile_cons_ne_nil]
      by_cases hbare : c = '0' ∧ (d = 'x' ∨ d = 'X')
      · have hdigit : isXDigit '0' = true := by decide
        simp [hbare, hdigit]
      · simp [hbare]

/-- `sscanf` reads a number exactly when one starts behind the blanks. -/
theorem scan2x_isSome (t : FileText) : (scan2x bare t).isSome = startsNumber bare (t.dropWhile isSpace) := by
  rw [Bool.eq_iff_iff, ← item_converts, scan2x]
  split
  · rfl
  · split
    · simp_all
    · split <;> simp_all

/-- Two digits give the byte that prints them in lower case. -/
theorem scan2x_digits {c d : Char} (hc : isXDigit c = true) (hd : isXDigit d = true) (r : FileText) :
    ∃ v, scan2x bare (c :: d :: r) = some v ∧ printByte (v.setWidth 8) = [c.toLower, d.toLower] := by
  obtain ⟨hspace, hplus, hminus, -, -, hclt, hcprint⟩ := isXDigit_spec hc
  obtain ⟨-, -, -, hx, hX, hdlt, hdprint⟩ := isXDigit_spec hd
  have hsign : ¬ (c = '+' ∨ c = '-') := not_or.mpr ⟨hplus, hminus⟩
  have hitem : ((c :: d :: r).dropWhile isSpace).take 2 = [c, d] := by
    rw [List.dropWhile_cons_of_neg (by simp [hspace])]
    rfl
  have hbare : isBarePrefix [c, d] = false := by
    rw [isBarePrefix_pair]
    exact decide_eq_false fun h => not_or.mpr ⟨hx, hX⟩ h.2
  have hdigits : itemDigits [c, d] = [c, d] := by
    rw [itemDigits_of_not_sign hsign]
    simp [hc, hd]
  have hvalue : hexValue [c, d] = 16 * digitValue c + digitValue d := by simp [hexValue]
  refine ⟨BitVec.ofNat 32 (hexValue [c, d]), ?_, ?_⟩
  · simp only [scan2x, hitem, hdigits, hbare]
    simp [hminus]
  · have hnat : ((BitVec.ofNat 32 (hexValue [c, d])).setWidth 8).toNat = 16 * digitValue c + digitValue d := by
      rw [BitVec.toNat_setWidth, BitVec.toNat_ofNat, hvalue]
      omega
    rw [printByte, hnat, ← hcprint, ← hdprint]
    congr 2
    · omega
    · congr 1
      omega

end Scan

section Bytes

variable {bare : Option (BitVec 32)}

theorem bytesToHex_digits {p : Bytes} {c : Char} (h : c ∈ bytesToHex p) :
    isXDigit c = true ∧ c.toLower = c := by
  have hall : ∀ k < 16, isXDigit (Nat.digitChar k) = true ∧ (Nat.digitChar k).toLower = Nat.digitChar k := by
    decide
  obtain ⟨b, -, hb⟩ := List.mem_flatMap.mp h
  rcases List.mem_pair.mp hb with rfl | rfl
  · exact hall _ (by omega)
  · exact hall _ (by omega)

theorem printByte_injective : Function.Injective printByte := by
  have hall : ∀ k < 16, ∀ l < 16, Nat.digitChar k = Nat.digitChar l → k = l := by decide
  intro a b h
  simp only [printByte, List.cons.injEq, and_true] at h
  have hhi := hall _ (by omega) _ (by omega) h.1
  have hlo := hall _ (by omega) _ (by omega) h.2
  exact BitVec.eq_of_toNat_eq (by omega)

theorem bytesToHex_cons (b : Byte) (p : Bytes) : bytesToHex (b :: p) = printByte b ++ bytesToHex p := rfl

theorem bytesToHex_injective : Function.Injective bytesToHex := by
  intro p
  induction p with
  | nil =>
    intro q h
    cases q with
    | nil => rfl
    | cons b q => cases h
  | cons a p ih =>
    intro q h
    cases q with
    | nil => cases h
    | cons b q =>
      rw [bytesToHex_cons, bytesToHex_cons] at h
      obtain ⟨hab, hpq⟩ := List.append_inj h rfl
      rw [printByte_injective hab, ih hpq]

theorem scanBytes_of_digits {n : ℕ} {s : FileText} (hlen : s.length = 2 * n)
    (hs : ∀ c ∈ s, isXDigit c = true) :
    ∃ out, scanBytes bare s n = some out ∧ out.length = n ∧ bytesToHex out = s.map Char.toLower := by
  induction n generalizing s with
  | zero =>
    obtain rfl := List.length_eq_zero_iff.mp hlen
    exact ⟨[], rfl, rfl, rfl⟩
  | succ n ih =>
    obtain ⟨c, d, r, rfl⟩ : ∃ c d r, s = c :: d :: r := by
      match s, hlen with
      | c :: d :: r, _ => exact ⟨c, d, r, rfl⟩
      | [c], h => simp at h; omega
    rw [List.forall_mem_cons, List.forall_mem_cons] at hs
    obtain ⟨hc, hd, hr⟩ := hs
    obtain ⟨v, hv, hprint⟩ := @scan2x_digits bare c d hc hd r
    obtain ⟨out, hout, hout', hhex⟩ := ih (s := r) (by simpa [Nat.mul_succ] using hlen) hr
    refine ⟨v.setWidth 8 :: out, ?_, by rw [List.length_cons, hout'], ?_⟩
    · have htail : (fun i => (scan2x bare ((c :: d :: r).drop (2 * i))).map (BitVec.setWidth 8)) ∘ Nat.succ =
          fun i => (scan2x bare (r.drop (2 * i))).map (BitVec.setWidth 8) := rfl
      unfold scanBytes at hout ⊢
      rw [List.range_succ_eq_map, List.mapM_cons, List.mapM_map]
      simp only [htail, hout]
      simp [hv]
    · rw [bytesToHex_cons, hprint, hhex]
      rfl

/-- The loop succeeds when a number starts at every even position. -/
theorem scanBytes_isSome (s : FileText) (n : ℕ) : (scanBytes bare s n).isSome = true ↔
    ∀ i < n, startsNumber bare ((s.drop (2 * i)).dropWhile isSpace) = true := by
  rw [scanBytes, mapM_isSome]
  simp only [List.mem_range, Option.isSome_map, scan2x_isSome]

end Bytes

end Hex

section Exact

open Hex

def HexString (s : CString) (n : BitVec 64) : Prop :=
  s.chars.length = 2 * n.toNat ∧ ∀ c ∈ s.chars, isXDigit c = true

/-- `hex_to_bytes` takes exactly the digit strings and inverts the printing of bytes. -/
structure ParsesExactly (bare : Option (BitVec 32)) (s : CString) (n : BitVec 64) : Prop where
  accepts : (hexToBytes bare s n).isSome = true ↔ HexString s n
  prints : ∀ out, hexToBytes bare s n = some out →
    out.length = n.toNat ∧ bytesToHex out = s.chars.map Char.toLower
  inverts : ∀ p : Bytes, p.length = n.toNat → bytesToHex p = s.chars → hexToBytes bare s n = some p

/-- A string of the right length that is not all digits, but at whose even positions a number starts
behind blanks and a sign. -/
def Misread (bare : Option (BitVec 32)) (s : CString) (n : BitVec 64) : Prop :=
  s.chars.length = 2 * n.toNat ∧ (∃ c ∈ s.chars, isXDigit c = false) ∧
    ∀ i < n.toNat, startsNumber bare ((s.chars.drop (2 * i)).dropWhile isSpace) = true

variable {bare : Option (BitVec 32)} {s : CString} {n : BitVec 64}

/-- The product in the test of the length may wrap around; then the loop meets the end of the string. -/
theorem hexToBytes_of_length_ne (h : s.chars.length ≠ 2 * n.toNat) : hexToBytes bare s n = none := by
  have hs := s.short
  have hn := n.isLt
  unfold hexToBytes
  split
  · rfl
  · rename_i heq
    have heq := congrArg BitVec.toNat (not_not.mp heq)
    rw [BitVec.toNat_ofNat, BitVec.toNat_mul, Nat.mod_eq_of_lt hs] at heq
    change s.chars.length = n.toNat * 2 % 2 ^ 64 at heq
    rw [← Option.not_isSome_iff_eq_none, scanBytes_isSome]
    intro hall
    have hend := hall (s.chars.length / 2) (by omega)
    rw [List.drop_of_length_le (by omega)] at hend
    cases hend

theorem hexToBytes_of_length (h : s.chars.length = 2 * n.toNat) :
    hexToBytes bare s n = scanBytes bare s.chars n.toNat := by
  have hs := s.short
  rw [hexToBytes, if_neg]
  rw [not_not]
  apply BitVec.eq_of_toNat_eq
  rw [BitVec.toNat_ofNat, BitVec.toNat_mul, h]
  change _ = n.toNat * 2 % 2 ^ 64
  rw [mul_comm]

theorem HexString.parses (h : HexString s n) : ∃ out, hexToBytes bare s n = some out ∧ out.length = n.toNat ∧
    bytesToHex out = s.chars.map Char.toLower := by
  rw [hexToBytes_of_length h.1]
  exact scanBytes_of_digits h.1 h.2

theorem hexString_of_bytesToHex {p : Bytes} (hp : p.length = n.toNat) (h : bytesToHex p = s.chars) :
    HexString s n := by
  constructor
  · rw [← h, ← hp, bytesToHex, List.length_flatMap]
    simp [printByte, mul_comm]
  · intro c hc
    rw [← h] at hc
    exact (bytesToHex_digits hc).1

theorem parsesExactly_of_accepts (h : (hexToBytes bare s n).isSome = true ↔ HexString s n) :
    ParsesExactly bare s n where
  accepts := h
  prints out hout := by
    obtain ⟨out', hout', hlen, hhex⟩ := (h.mp (by rw [hout]; rfl)).parses
    obtain rfl := Option.some.inj (hout.symm.trans hout')
    exact ⟨hlen, hhex⟩
  inverts p hp hhex := by
    obtain ⟨out, hout, -, hprint⟩ := (hexString_of_bytesToHex hp hhex).parses
    have hlower : s.chars.map Char.toLower = s.chars := by
      rw [← hhex]
      exact (List.map_congr_left fun c hc => (bytesToHex_digits hc).2).trans (List.map_id' _)
    rw [hlower, ← hhex] at hprint
    rw [hout, bytesToHex_injective hprint]

theorem parsesExactly_iff : ParsesExactly bare s n ↔ ¬ Misread bare s n := by
  constructor
  · rintro h ⟨hlen, ⟨c, hc, hx⟩, hall⟩
    have hsome : (hexToBytes bare s n).isSome = true := by
      rw [hexToBytes_of_length hlen, scanBytes_isSome]
      exact hall
    have hdigit := (h.accepts.mp hsome).2 c hc
    rw [hx] at hdigit
    cases hdigit
  · intro hnot
    apply parsesExactly_of_accepts
    constructor
    · intro hsome
      by_cases hlen : s.chars.length = 2 * n.toNat
      · rw [hexToBytes_of_length hlen, scanBytes_isSome] at hsome
        refine ⟨hlen, fun c hc => ?_⟩
        by_contra hx
        exact hnot ⟨hlen, ⟨c, hc, Bool.eq_false_of_not_eq_true hx⟩, hsome⟩
      · rw [hexToBytes_of_length_ne hlen] at hsome
        cases hsome
    · intro h
      obtain ⟨out, hout, -⟩ := h.parses
      rw [hout]
      rfl

/-- `hex_to_bytes` is exact on the strings that it does not misread, and two different lower-case strings
among these give different bytes. -/
theorem hexToBytes_exact_iff (bare : Option (BitVec 32)) (s s' : CString) (n : BitVec 64) :
    (ParsesExactly bare s n ↔ ¬ Misread bare s n) ∧
    (¬ Misread bare s n → ¬ Misread bare s' n → s.chars.map Char.toLower = s.chars →
      s'.chars.map Char.toLower = s'.chars → ∀ out, hexToBytes bare s n = some out → hexToBytes bare s' n = some out →
        s.chars = s'.chars) := by
  refine ⟨parsesExactly_iff, fun hs hs' hlow hlow' out hout hout' => ?_⟩
  have hprint := ((parsesExactly_iff.mpr hs).prints out hout).2
  have hprint' := ((parsesExactly_iff.mpr hs').prints out hout').2
  rw [← hlow, ← hlow', ← hprint, ← hprint']

/-- `-f` and `f1`, each in front of 62 zeros. -/
def signedNonce : CString := ⟨'-' :: 'f' :: List.replicate 62 '0', by decide, by decide⟩

def plainNonce : CString := ⟨'f' :: '1' :: List.replicate 62 '0', by decide, by decide⟩

/-- `0x` in front of 62 zeros. -/
def prefixedNonce : CString := ⟨'0' :: 'x' :: List.replicate 62 '0', by decide, by decide⟩

/-- The sign is accepted by every library, the bare `0x` where it is read as a zero. -/
theorem signedNonce_collides :
    hexToBytes none signedNonce 32 = some (0xf1 :: List.replicate 31 0) ∧
      hexToBytes none plainNonce 32 = hexToBytes none signedNonce 32 ∧ signedNonce.chars ≠ plainNonce.chars ∧
      ¬ HexString signedNonce 32 ∧
      hexToBytes (some 0) prefixedNonce 32 = some (List.replicate 32 0) ∧ ¬ HexString prefixedNonce 32 := by
  refine ⟨by decide +kernel, by decide +kernel, by decide, ?_, by decide +kernel, ?_⟩
  · rintro ⟨-, h⟩
    exact absurd (h '-' (by decide)) (by decide)
  · rintro ⟨-, h⟩
    exact absurd (h 'x' (by decide)) (by decide)

end Exact

end MerlinV
