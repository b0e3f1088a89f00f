import MerlinV.Isa.Decode

/-! # Bit fields and sign extensions

`bits` cuts a field out of a word and `sext` extends its sign by a subtraction.  Both are
stated here as the operations of `BitVec`, which is how the encoder and the second decoder
are compared with the first.
-/
namespace MerlinV

variable {w v : BitVec 32}

theorem bits_toNat (w : BitVec 32) {hi lo : ℕ} (h : hi < 32) (hlo : lo ≤ hi) :
    (bits w hi lo).toNat = w.toNat / 2 ^ lo % 2 ^ (hi - lo + 1) := by
  have hmask : (1#32 <<< (hi - lo + 1) - 1#32).toNat = 2 ^ (hi - lo + 1) - 1 := by
    have hle : hi - lo + 1 ≤ 32 := by omega
    generalize hi - lo + 1 = n at hle
    interval_cases n <;> rfl
  rw [bits, BitVec.toNat_and, hmask, BitVec.toNat_ushiftRight, Nat.and_two_pow_sub_one_eq_mod,
    Nat.shiftRight_eq_div_pow]

theorem bits_eq_extract (w : BitVec 32) {hi lo : ℕ} (h : hi < 32) (hlo : lo ≤ hi) :
    bits w hi lo = (w.extractLsb' lo (hi - lo + 1)).setWidth 32 := by
  apply BitVec.eq_of_toNat_eq
  rw [bits_toNat w h hlo, BitVec.toNat_setWidth, BitVec.extractLsb'_toNat, Nat.shiftRight_eq_div_pow]
  have hlt : w.toNat / 2 ^ lo % 2 ^ (hi - lo + 1) < 2 ^ (hi - lo + 1) := Nat.mod_lt _ (by positivity)
  have hle : 2 ^ (hi - lo + 1) ≤ 2 ^ 32 := Nat.pow_le_pow_right (by norm_num) (by omega)
  rw [Nat.mod_eq_of_lt (lt_of_lt_of_le hlt hle)]

theorem xor_two_pow_of_lt {n k : ℕ} (h : n < 2 ^ k) : n ^^^ 2 ^ k = 2 ^ k + n := by
  rw [← Nat.mul_one (2 ^ k), Nat.two_pow_add_eq_or_of_lt h 1, Nat.mul_one]
  apply Nat.eq_of_testBit_eq
  intro i
  rw [Nat.testBit_xor, Nat.testBit_or, Nat.testBit_two_pow]
  by_cases hi : k = i
  · subst hi
    simp [Nat.testBit_lt_two_pow h]
  · simp [hi]

/-- Flipping the sign bit and subtracting it again extends the sign. -/
theorem sext_eq_signExtend {k : ℕ} (hk : k < 32) (hv : v.toNat < 2 ^ (k + 1)) :
    sext v (k + 1) = (v.setWidth (k + 1)).signExtend 32 := by
  have hpow : 2 ^ k ≤ 2 ^ 31 := Nat.pow_le_pow_right (by norm_num) (by omega)
  have hsign : (1#32 <<< k).toNat = 2 ^ k := by
    rw [BitVec.toNat_shiftLeft, Nat.shiftLeft_eq]
    exact (Nat.mod_eq_of_lt (by simpa using lt_of_le_of_lt hpow (by norm_num))).trans (one_mul _)
  have hxor : (v ^^^ 1#32 <<< k).toNat = if v.toNat < 2 ^ k then 2 ^ k + v.toNat else v.toNat - 2 ^ k := by
    rw [BitVec.toNat_xor, hsign]
    split
    · rename_i hlt
      exact xor_two_pow_of_lt hlt
    · rename_i hge
      have hlow : v.toNat - 2 ^ k < 2 ^ k := by
        rw [Nat.pow_succ] at hv
        omega
      have hsplit := xor_two_pow_of_lt hlow
      rw [Nat.add_sub_of_le (Nat.le_of_not_lt hge)] at hsplit
      rw [← hsplit, Nat.xor_assoc, Nat.xor_self, Nat.xor_zero, hsplit]
  have hset : (v.setWidth (k + 1)).toNat = v.toNat := by
    rw [BitVec.toNat_setWidth, Nat.mod_eq_of_lt hv]
  apply BitVec.eq_of_toInt_eq
  rw [BitVec.toInt_signExtend_of_le (by omega), BitVec.toInt_eq_toNat_cond, BitVec.toInt_eq_toNat_cond, hset,
    sext, Nat.add_sub_cancel, BitVec.toNat_sub, hxor, hsign]
  have hpos : 0 < 2 ^ k := by positivity
  have hsucc : 2 ^ (k + 1) = 2 ^ k * 2 := pow_succ 2 k
  rw [hsucc] at hv ⊢
  generalize 2 ^ k = p at *
  push_cast
  split_ifs <;> omega

theorem field_lt {a b n m : ℕ} (ha : a < 32) (hb : b ≤ a) (hm : a - b + 1 + n ≤ m) :
    (bits w a b <<< n).toNat < 2 ^ m := by
  rw [BitVec.toNat_shiftLeft, Nat.shiftLeft_eq, bits_toNat w ha hb]
  have hlt : w.toNat / 2 ^ b % 2 ^ (a - b + 1) < 2 ^ (a - b + 1) := Nat.mod_lt _ (by positivity)
  calc _ ≤ w.toNat / 2 ^ b % 2 ^ (a - b + 1) * 2 ^ n := Nat.mod_le _ _
    _ < 2 ^ (a - b + 1) * 2 ^ n := by gcongr
    _ = 2 ^ (a - b + 1 + n) := (pow_add 2 _ n).symm
    _ ≤ 2 ^ m := Nat.pow_le_pow_right (by norm_num) hm

theorem rawI_lt (w : BitVec 32) : (bits w 31 20).toNat < 2 ^ 12 := by
  rw [bits_toNat w (by omega) (by omega)]
  exact Nat.mod_lt _ (by norm_num)

theorem rawS_lt (w : BitVec 32) : ((bits w 31 25 <<< 5) ||| bits w 11 7).toNat < 2 ^ 12 := by
  have hlow : (bits w 11 7 <<< 0).toNat < 2 ^ 12 := field_lt (by omega) (by omega) (by omega)
  rw [BitVec.shiftLeft_zero] at hlow
  rw [BitVec.toNat_or]
  exact Nat.or_lt_two_pow (field_lt (by omega) (by omega) (by omega)) hlow

theorem rawB_lt (w : BitVec 32) : ((bits w 31 31 <<< 12) ||| (bits w 7 7 <<< 11) ||| (bits w 30 25 <<< 5) |||
    (bits w 11 8 <<< 1)).toNat < 2 ^ 13 := by
  simp only [BitVec.toNat_or]
  refine Nat.or_lt_two_pow (Nat.or_lt_two_pow (Nat.or_lt_two_pow ?_ ?_) ?_) ?_
  all_goals exact field_lt (by omega) (by omega) (by omega)

theorem rawJ_lt (w : BitVec 32) : ((bits w 31 31 <<< 20) ||| (bits w 19 12 <<< 12) ||| (bits w 20 20 <<< 11) |||
    (bits w 30 21 <<< 1)).toNat < 2 ^ 21 := by
  simp only [BitVec.toNat_or]
  refine Nat.or_lt_two_pow (Nat.or_lt_two_pow (Nat.or_lt_two_pow ?_ ?_) ?_) ?_
  all_goals exact field_lt (by omega) (by omega) (by omega)

theorem opcode_low_of_compressed (h : w &&& 3 ≠ 3) : (bits w 6 0).toNat % 4 ≠ 3 := by
  intro hmod
  apply h
  apply BitVec.eq_of_toNat_eq
  rw [BitVec.toNat_and]
  change w.toNat &&& (2 ^ 2 - 1) = 3
  rw [Nat.and_two_pow_sub_one_eq_mod]
  rw [bits_toNat w (by omega) (by omega)] at hmod
  omega

theorem funct3_cases (w : BitVec 32) :
    bits w 14 12 = 0 ∨ bits w 14 12 = 1 ∨ bits w 14 12 = 2 ∨ bits w 14 12 = 3 ∨
      bits w 14 12 = 4 ∨ bits w 14 12 = 5 ∨ bits w 14 12 = 6 ∨ bits w 14 12 = 7 := by
  rw [bits_eq_extract w (by omega) (by omega)]
  generalize w.extractLsb' 12 (14 - 12 + 1) = e
  revert e
  decide

end MerlinV
