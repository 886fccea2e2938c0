import Mathlib.Algebra.Order.Ring.Nat
import Mathlib.Tactic.Common

/-!
# LEB128 numbers

The minimal base-128 encoding of a natural number, least significant digit first, where the high
bit of a byte says that another byte follows. No encoding is a prefix of another
(`encode_append_inj`), and no other digits of the number are fewer (`length_encode_value_le`).
`decode` takes the number at the start of some bytes (`decode_encode_append`).
-/

namespace Leb128

/-- The minimal encoding. -/
def encode (n : ℕ) : List UInt8 :=
  if n < 128 then [UInt8.ofNat n] else UInt8.ofNat (n % 128 + 128) :: encode (n / 128)
termination_by n
decreasing_by omega

theorem encode_of_lt {n : ℕ} (h : n < 128) : encode n = [UInt8.ofNat n] := by
  rw [encode, if_pos h]

theorem encode_of_le {n : ℕ} (h : 128 ≤ n) :
    encode n = UInt8.ofNat (n % 128 + 128) :: encode (n / 128) := by
  rw [encode, if_neg (by omega)]

/-- Putting a digit in front. -/
theorem encode_digit {d n : ℕ} (hd : d < 128) (hn : n ≠ 0) :
    encode (d + 128 * n) = UInt8.ofNat (d + 128) :: encode n := by
  rw [encode_of_le (by omega)]
  congr 2
  · omega
  · omega

theorem encode_ne_nil (n : ℕ) : encode n ≠ [] := by
  rw [encode]
  split_ifs <;> exact List.cons_ne_nil _ _

theorem length_encode_pos (n : ℕ) : 0 < (encode n).length :=
  List.length_pos_iff.mpr (encode_ne_nil n)

/-- A number below `128 ^ (k + 1)` takes at most `k + 1` bytes. -/
theorem length_encode_le {k : ℕ} : ∀ {n : ℕ}, n < 128 ^ (k + 1) → (encode n).length ≤ k + 1 := by
  induction k with
  | zero =>
    intro n h
    rw [encode_of_lt (by omega)]
    exact le_refl 1
  | succ k ih =>
    intro n h
    by_cases hn : n < 128
    · rw [encode_of_lt hn, List.length_singleton]
      omega
    · rw [encode_of_le (by omega), List.length_cons]
      have hdiv : n / 128 < 128 ^ (k + 1) :=
        Nat.div_lt_of_lt_mul (by rw [Nat.mul_comm]; exact h)
      exact Nat.succ_le_succ (ih hdiv)

theorem toNat_digit {d : ℕ} (h : d < 256) : (UInt8.ofNat d).toNat = d := by
  rw [UInt8.toNat_ofNat']
  exact Nat.mod_eq_of_lt h

/-- **Prefix freedom.** Where two encodings begin alike, they are the same. -/
theorem encode_append_inj (n : ℕ) : ∀ {m : ℕ} {s t : List UInt8},
    encode n ++ s = encode m ++ t → n = m ∧ s = t := by
  induction n using Nat.strongRecOn with
  | ind n ih =>
    intro m s t h
    by_cases hn : n < 128 <;> by_cases hm : m < 128
    · rw [encode_of_lt hn, encode_of_lt hm] at h
      have hbyte := congrArg UInt8.toNat (List.cons.inj h).1
      rw [toNat_digit (by omega), toNat_digit (by omega)] at hbyte
      exact ⟨hbyte, (List.cons.inj h).2⟩
    · rw [encode_of_lt hn, encode_of_le (Nat.not_lt.mp hm)] at h
      have hbyte := congrArg UInt8.toNat (List.cons.inj h).1
      rw [toNat_digit (by omega), toNat_digit (by omega)] at hbyte
      omega
    · rw [encode_of_le (Nat.not_lt.mp hn), encode_of_lt hm] at h
      have hbyte := congrArg UInt8.toNat (List.cons.inj h).1
      rw [toNat_digit (by omega), toNat_digit (by omega)] at hbyte
      omega
    · rw [encode_of_le (Nat.not_lt.mp hn), encode_of_le (Nat.not_lt.mp hm)] at h
      have hbyte := congrArg UInt8.toNat (List.cons.inj h).1
      rw [toNat_digit (by omega), toNat_digit (by omega)] at hbyte
      obtain ⟨hdiv, hst⟩ := ih (n / 128) (by omega) (List.cons.inj h).2
      exact ⟨by omega, hst⟩

/-! ## Values -/

/-- The number that some digits stand for, minimal or not. -/
def value : List UInt8 → ℕ
  | [] => 0
  | byte :: bytes => byte.toNat % 128 + 128 * value bytes

theorem value_encode (n : ℕ) : value (encode n) = n := by
  induction n using Nat.strongRecOn with
  | ind n ih =>
    by_cases hn : n < 128
    · rw [encode_of_lt hn, value, value, toNat_digit (by omega)]
      omega
    · rw [encode_of_le (Nat.not_lt.mp hn), value, ih (n / 128) (by omega),
        toNat_digit (by omega)]
      omega

theorem value_lt (bytes : List UInt8) : value bytes < 128 ^ bytes.length := by
  induction bytes with
  | nil => exact Nat.one_pos
  | cons byte bytes ih =>
    have hdigit := Nat.mod_lt byte.toNat (show 0 < 128 by decide)
    rw [value, List.length_cons, Nat.pow_succ]
    omega

/-- **Minimality.** No digits of a number are fewer than those of its encoding. -/
theorem length_encode_value_le {bytes : List UInt8} (h : bytes ≠ []) :
    (encode (value bytes)).length ≤ bytes.length := by
  obtain ⟨k, hk⟩ := Nat.exists_eq_succ_of_ne_zero (List.length_pos_iff.mpr h).ne'
  rw [hk]
  refine length_encode_le ?_
  rw [← Nat.succ_eq_add_one, ← hk]
  exact value_lt bytes

/-! ## Decoding -/

/-- The number at the start of some bytes, minimal or not, and the bytes it takes. -/
def decode : List UInt8 → Option (ℕ × ℕ)
  | [] => none
  | byte :: bytes =>
    if byte.toNat < 128 then some (byte.toNat, 1)
    else (decode bytes).map fun (n, size) => (byte.toNat - 128 + 128 * n, size + 1)

theorem decode_last {byte : UInt8} {bytes : List UInt8} (h : byte.toNat < 128) :
    decode (byte :: bytes) = some (byte.toNat, 1) := if_pos h

theorem decode_more {byte : UInt8} {bytes : List UInt8} (h : ¬byte.toNat < 128) :
    decode (byte :: bytes) =
      (decode bytes).map fun (n, size) => (byte.toNat - 128 + 128 * n, size + 1) := if_neg h

theorem decode_encode_append (n : ℕ) (bytes : List UInt8) :
    decode (encode n ++ bytes) = some (n, (encode n).length) := by
  induction n using Nat.strongRecOn with
  | ind n ih =>
    by_cases hn : n < 128
    · rw [encode_of_lt hn, List.singleton_append, decode_last, toNat_digit (by omega)]
      · rfl
      · rw [toNat_digit (by omega)]
        exact hn
    · rw [encode_of_le (Nat.not_lt.mp hn), List.cons_append, decode_more, ih (n / 128) (by omega),
        toNat_digit (by omega)]
      · simp only [Option.map_some, List.length_cons]
        congr 2
        omega
      · rw [toNat_digit (by omega)]
        omega

end Leb128
