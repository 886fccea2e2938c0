import NekoProto.Binary.Writer
import Mathlib.Data.BitVec
import Mathlib.Tactic.Ring
/-!
# Zigzag codes

The Reader decodes a signed integer of every width from the zigzag code of the Writer
(`decodeInteger_zigzag`), the least one included.
-/

namespace NekoProto.Binary

open Reader

theorem two_pow_eq {n : ℕ} (hn : 0 < n) : 2 ^ n = 2 * 2 ^ (n - 1) := by
  rw [← Nat.pow_succ', Nat.succ_eq_add_one, Nat.sub_add_cancel hn]

/-- The code of a number: its double, or for a negative one the double of its magnitude less 1. -/
theorem toNat_zigzag {n : ℕ} (hn : 0 < n) (v : BitVec n) :
    (zigzag v).toNat =
      if v.toNat < 2 ^ (n - 1) then 2 * v.toNat else 2 * (2 ^ n - v.toNat) - 1 := by
  have hlt := v.isLt
  have htwo := two_pow_eq hn
  have hpos := Nat.two_pow_pos (n - 1)
  have hneg : v.slt 0 = decide (2 ^ (n - 1) ≤ v.toNat) := by
    change v.slt 0#n = _
    rw [BitVec.slt_zero_eq_msb, BitVec.msb_eq_decide]
  have hzero : (0 : BitVec n).toNat = 0 := Nat.zero_mod _
  have hone : (1 : BitVec n).toNat = 1 := by
    change 1 % 2 ^ n = 1
    exact Nat.mod_eq_of_lt (by omega)
  unfold zigzag
  rw [hneg]
  by_cases h : v.toNat < 2 ^ (n - 1)
  · rw [if_pos h]
    simp only [Nat.not_le.mpr h, decide_false, Bool.false_eq_true, if_false, BitVec.toNat_sub,
      BitVec.toNat_shiftLeft, Nat.shiftLeft_eq, hzero]
    rw [Nat.sub_zero, Nat.pow_one, Nat.mod_eq_of_lt (by omega : v.toNat * 2 < 2 ^ n),
      Nat.add_mod_left, Nat.mod_eq_of_lt (by omega)]
    omega
  · rw [if_neg h]
    have hmag : -(v + 1) + 1 = -v := by ring
    simp only [Nat.not_lt.mp h, decide_true, if_true, hmag, BitVec.toNat_sub,
      BitVec.toNat_shiftLeft, BitVec.toNat_neg, Nat.shiftLeft_eq, Nat.pow_one, hone]
    rw [Nat.mod_eq_of_lt (by omega : 2 ^ n - v.toNat < 2 ^ n)]
    by_cases hmin : v.toNat = 2 ^ (n - 1)
    · rw [show (2 ^ n - v.toNat) * 2 = 2 ^ n by omega, Nat.mod_self,
        Nat.add_zero, Nat.mod_eq_of_lt (by omega)]
      omega
    · rw [Nat.mod_eq_of_lt (by omega : (2 ^ n - v.toNat) * 2 < 2 ^ n),
        show 2 ^ n - 1 + (2 ^ n - v.toNat) * 2 = (2 ^ n - v.toNat) * 2 - 1 + 2 ^ n by omega,
        Nat.add_mod_right, Nat.mod_eq_of_lt (by omega)]
      omega

theorem decodeInteger_zigzag {n : ℕ} (hn : 0 < n) (v : BitVec n) :
    decodeInteger true (zigzag v) = pure v := by
  have hlt := v.isLt
  have htwo := two_pow_eq hn
  have hpos := Nat.two_pow_pos (n - 1)
  have hzero : (0 : BitVec n).toNat = 0 := Nat.zero_mod _
  have hone : (1 : BitVec n).toNat = 1 := by
    change 1 % 2 ^ n = 1
    exact Nat.mod_eq_of_lt (by omega)
  have hz := toNat_zigzag hn v
  have hlow : (zigzag v &&& 1).toNat = (zigzag v).toNat % 2 := by
    rw [BitVec.toNat_and, hone]
    exact Nat.and_one_is_mod _
  have hmax : (BitVec.intMax n).toNat = 2 ^ (n - 1) - 1 := by
    simp [BitVec.toNat_intMax]
  have hmin : (BitVec.intMax n + 1).toNat = 2 ^ (n - 1) := by
    rw [BitVec.toNat_add, hmax, hone, Nat.mod_eq_of_lt (by omega)]
    omega
  have hmag : ((zigzag v >>> 1) + (zigzag v &&& 1)).toNat =
      (zigzag v).toNat / 2 + (zigzag v).toNat % 2 := by
    have := (zigzag v).isLt
    rw [BitVec.toNat_add, hlow, BitVec.toNat_ushiftRight, Nat.shiftRight_eq_div_pow, Nat.pow_one]
    exact Nat.mod_eq_of_lt (by omega)
  unfold decodeInteger
  rw [if_pos rfl]
  by_cases h : v.toNat < 2 ^ (n - 1)
  · rw [if_pos h] at hz
    have heven : zigzag v &&& 1 = 0 := by
      apply BitVec.eq_of_toNat_eq
      rw [hlow, hz, hzero]
      omega
    have hv : (zigzag v >>> 1) + (zigzag v &&& 1) = v := by
      apply BitVec.eq_of_toNat_eq
      rw [hmag, hz]
      omega
    simp only [hv]
    rw [if_neg (not_not.mpr heven), if_neg]
    rw [BitVec.lt_def, hmax]
    omega
  · rw [if_neg h] at hz
    have hodd : zigzag v &&& 1 ≠ 0 := by
      intro h0
      have := congrArg BitVec.toNat h0
      rw [hlow, hz, hzero] at this
      omega
    have hg : ((zigzag v >>> 1) + (zigzag v &&& 1)).toNat = 2 ^ n - v.toNat := by
      rw [hmag, hz]
      omega
    simp only [if_pos hodd]
    rw [if_neg (by rw [BitVec.lt_def, hmin, hg]; omega)]
    by_cases heq : v.toNat = 2 ^ (n - 1)
    · rw [if_pos (BitVec.eq_of_toNat_eq (by rw [hg, hmin]; omega))]
      congr 1
      apply BitVec.eq_of_toNat_eq
      rw [BitVec.toNat_intMin, heq, Nat.mod_eq_of_lt (by omega)]
    · rw [if_neg (fun h' => heq (by
        have := congrArg BitVec.toNat h'
        rw [hg, hmin] at this
        omega))]
      congr 1
      apply BitVec.eq_of_toNat_eq
      rw [BitVec.toNat_neg, hg, Nat.mod_eq_of_lt (by omega)]
      omega

end NekoProto.Binary
