import Mathlib.Tactic.Ring
import Mathlib.Algebra.Order.Ring.Int
import Mathlib.Data.Nat.Log

/-!
# Binary floating-point numbers

The value of the bits of a binary interchange format, as a multiple of its smallest positive
number (`units`), so that values are compared as integers. All values are below a bound
(`units_bounded`), and a single is widened to a double of the same value (`units_widen`).
-/

namespace Ieee754

/-- A binary interchange format, by the widths of its exponent and of its fraction. -/
structure Format where
  exponentBits : ℕ
  fractionBits : ℕ

/-- The format of 32 bits. -/
def single : Format := ⟨8, 23⟩

/-- The format of 64 bits. -/
def double : Format := ⟨11, 52⟩

namespace Format

/-- The magnitude with an exponent and a fraction: a subnormal one, or one with the hidden bit. -/
def magnitude (F : Format) (exponent fraction : ℕ) : ℕ :=
  if exponent = 0 then fraction else (2 ^ F.fractionBits + fraction) * 2 ^ (exponent - 1)

/-- A signed magnitude. -/
def signed (negative : Bool) (magnitude : ℕ) : ℤ :=
  if negative then -(magnitude : ℤ) else magnitude

/-- The fraction of some bits. -/
def fraction (F : Format) (bits : ℕ) : ℕ := bits % 2 ^ F.fractionBits

/-- The exponent of some bits, with its bias. -/
def exponent (F : Format) (bits : ℕ) : ℕ := bits / 2 ^ F.fractionBits % 2 ^ F.exponentBits

/-- The sign of some bits. -/
def negative (F : Format) (bits : ℕ) : Bool :=
  bits / 2 ^ (F.fractionBits + F.exponentBits) % 2 = 1

/-- The value of some bits, in units of the smallest positive number. Infinities and what is not a
number have none. -/
def units (F : Format) (bits : ℕ) : Option ℤ :=
  if F.exponent bits = 2 ^ F.exponentBits - 1 then none
  else some (signed (F.negative bits) (F.magnitude (F.exponent bits) (F.fraction bits)))

theorem units_none {F : Format} {bits : ℕ} (h : F.exponent bits = 2 ^ F.exponentBits - 1) :
    F.units bits = none := if_pos h

theorem units_some {F : Format} {bits : ℕ} (h : F.exponent bits ≠ 2 ^ F.exponentBits - 1) :
    F.units bits =
      some (signed (F.negative bits) (F.magnitude (F.exponent bits) (F.fraction bits))) := if_neg h

/-- The place of some bits in the order of the numbers. The infinities are beyond all values, and
what is not a number has no place. -/
def place (F : Format) (bits : ℕ) : Option ℤ :=
  if F.exponent bits = 2 ^ F.exponentBits - 1 ∧ F.fraction bits ≠ 0 then none
  else some (signed (F.negative bits) (F.magnitude (F.exponent bits) (F.fraction bits)))

/-- Two numbers compare as their places do; what is not a number does not compare. -/
def compares (F : Format) (relation : ℤ → ℤ → Bool) (bits bits' : ℕ) : Bool :=
  match F.place bits, F.place bits' with
  | some place, some place' => relation place place'
  | _, _ => false

/-- The largest value. -/
def maximum (F : Format) : ℕ :=
  (2 ^ (F.fractionBits + 1) - 1) * 2 ^ (2 ^ F.exponentBits - 3)

theorem magnitude_le (F : Format) {exponent fraction : ℕ}
    (hexponent : exponent + 2 ≤ 2 ^ F.exponentBits) (hfraction : fraction < 2 ^ F.fractionBits) :
    F.magnitude exponent fraction ≤ F.maximum := by
  have hpow : 2 ^ (F.fractionBits + 1) = 2 * 2 ^ F.fractionBits := by ring
  unfold magnitude maximum
  split_ifs with hzero
  · exact (by omega : fraction ≤ 2 ^ (F.fractionBits + 1) - 1).trans
      (Nat.le_mul_of_pos_right _ (Nat.two_pow_pos _))
  · exact Nat.mul_le_mul (by omega) (Nat.pow_le_pow_right (by decide) (by omega))

/-- **All values are bounded.** -/
theorem units_bounded (F : Format) {bits : ℕ} {value : ℤ} (h : F.units bits = some value) :
    -(F.maximum : ℤ) ≤ value ∧ value ≤ F.maximum := by
  unfold units at h
  split_ifs at h with hfinite
  have hexponent : F.exponent bits < 2 ^ F.exponentBits := Nat.mod_lt _ (Nat.two_pow_pos _)
  have hfraction : F.fraction bits < 2 ^ F.fractionBits := Nat.mod_lt _ (Nat.two_pow_pos _)
  have hle := F.magnitude_le (by omega : F.exponent bits + 2 ≤ 2 ^ F.exponentBits) hfraction
  obtain rfl := Option.some.inj h
  unfold signed
  split_ifs
  · omega
  · omega

end Format

/-! ## Widening -/

/-- The bits of a double. -/
def assemble (sign exponent fraction : ℕ) : ℕ := sign * 2 ^ 63 + (exponent * 2 ^ 52 + fraction)

theorem assemble_fields {sign exponent fraction : ℕ} (hsign : sign < 2)
    (hexponent : exponent < 2 ^ 11) (hfraction : fraction < 2 ^ 52) :
    double.exponent (assemble sign exponent fraction) = exponent ∧
      double.negative (assemble sign exponent fraction) = decide (sign = 1) ∧
      double.fraction (assemble sign exponent fraction) = fraction := by
  have hbits : assemble sign exponent fraction / 2 ^ 52 % 2 ^ 11 = exponent ∧
      assemble sign exponent fraction / 2 ^ 63 % 2 = sign ∧
      assemble sign exponent fraction % 2 ^ 52 = fraction := by
    unfold assemble
    omega
  obtain ⟨hexp, hneg, hfrac⟩ := hbits
  exact ⟨hexp, congrArg (fun n => decide (n = 1)) hneg, hfrac⟩

/-- The double of a natural number, rounded to the nearest one and from halfway to the even one.
What the rounding carries goes into the exponent. -/
def ofNat (n : ℕ) : ℕ :=
  if n = 0 then 0
  else if n.log2 ≤ 52 then assemble 0 (n.log2 + 1023) ((n - 2 ^ n.log2) * 2 ^ (52 - n.log2))
  else
    let kept := n / 2 ^ (n.log2 - 52)
    let lost := n % 2 ^ (n.log2 - 52)
    let up := 2 ^ (n.log2 - 52) < 2 * lost ∨ (2 ^ (n.log2 - 52) = 2 * lost ∧ kept % 2 = 1)
    assemble 0 (n.log2 + 1023) (if up then kept + 1 - 2 ^ 52 else kept - 2 ^ 52)

/-- The double of an integer. -/
def ofInt (z : ℤ) : ℕ := assemble (if z < 0 then 1 else 0) 0 0 + ofNat z.natAbs

/-- The double of a single with an exponent and a fraction. -/
def widenFields (exponent fraction : ℕ) : ℕ × ℕ :=
  if exponent = 255 then (2047, fraction * 2 ^ 29)
  else if exponent ≠ 0 then (exponent + 896, fraction * 2 ^ 29)
  else if fraction = 0 then (0, 0)
  else (fraction.log2 + 874, (fraction - 2 ^ fraction.log2) * 2 ^ (52 - fraction.log2))

/-- The double of a single. -/
def widen (bits : ℕ) : ℕ :=
  assemble (bits / 2 ^ 31 % 2) (widenFields (bits / 2 ^ 23 % 2 ^ 8) (bits % 2 ^ 23)).1
    (widenFields (bits / 2 ^ 23 % 2 ^ 8) (bits % 2 ^ 23)).2

/-- The units of a double in one of a single. -/
@[irreducible] def unitsInSingle : ℕ := 2 ^ 925

theorem unitsInSingle_eq {n : ℕ} (h : n = 925) : unitsInSingle = 2 ^ n := by
  unfold unitsInSingle
  exact congrArg (2 ^ ·) h.symm

theorem scale_normal (e f n : ℕ) :
    (2 ^ 52 + f * 2 ^ 29) * 2 ^ (e + n) = (2 ^ 23 + f) * 2 ^ e * 2 ^ (29 + n) := by
  ring

theorem magnitude_normal {exponent fraction : ℕ} (h : exponent ≠ 0) :
    double.magnitude (exponent + 896) (fraction * 2 ^ 29) =
      single.magnitude exponent fraction * unitsInSingle := by
  obtain ⟨e, rfl⟩ := Nat.exists_eq_succ_of_ne_zero h
  unfold Format.magnitude
  rw [if_neg (by omega), if_neg (Nat.succ_ne_zero _),
    show e.succ + 896 - 1 = e + 896 by omega, unitsInSingle_eq (show 29 + 896 = 925 by rfl)]
  exact scale_normal e fraction 896

theorem magnitude_subnormal {fraction : ℕ} (h : fraction ≠ 0) (hlt : fraction < 2 ^ 23) :
    (fraction - 2 ^ fraction.log2) * 2 ^ (52 - fraction.log2) < 2 ^ 52 ∧
      double.magnitude (fraction.log2 + 874)
          ((fraction - 2 ^ fraction.log2) * 2 ^ (52 - fraction.log2)) =
        fraction * unitsInSingle := by
  have hle : 2 ^ fraction.log2 ≤ fraction := Nat.log2_self_le h
  have hlog : fraction.log2 < 23 := (Nat.log2_lt h).mpr hlt
  have hnext : fraction < 2 ^ (fraction.log2 + 1) := Nat.lt_log2_self
  generalize fraction.log2 = k at hle hlog hnext
  have hsplit : 2 ^ k * 2 ^ (52 - k) = 2 ^ 52 := by
    rw [← pow_add]
    congr 1
    omega
  have hunits : 2 ^ (52 - k) * 2 ^ (k + 873) = unitsInSingle := by
    rw [← pow_add]
    exact (unitsInSingle_eq (by omega)).symm
  constructor
  · rw [← hsplit]
    exact Nat.mul_lt_mul_of_pos_right (by omega) (Nat.two_pow_pos _)
  · unfold Format.magnitude
    rw [if_neg (Nat.succ_ne_zero _)]
    change (2 ^ 52 + (fraction - 2 ^ k) * 2 ^ (52 - k)) * 2 ^ (k + 873) = _
    rw [← hsplit, ← add_mul, Nat.add_sub_cancel' hle, mul_assoc, hunits]

theorem magnitude_widenFields {exponent fraction : ℕ} (hexponent : exponent < 255)
    (hfraction : fraction < 2 ^ 23) :
    (widenFields exponent fraction).1 < 2047 ∧ (widenFields exponent fraction).2 < 2 ^ 52 ∧
      double.magnitude (widenFields exponent fraction).1 (widenFields exponent fraction).2 =
        single.magnitude exponent fraction * unitsInSingle := by
  unfold widenFields
  rw [if_neg hexponent.ne]
  split_ifs with hnormal hzero
  · exact ⟨by omega, by omega, magnitude_normal hnormal⟩
  · subst hzero
    obtain rfl := not_not.mp hnormal
    refine ⟨by decide, by decide, ?_⟩
    unfold Format.magnitude
    rw [if_pos rfl, if_pos rfl, Nat.zero_mul]
  · obtain rfl := not_not.mp hnormal
    obtain ⟨hlt, hmagnitude⟩ := magnitude_subnormal hzero hfraction
    have hlog : fraction.log2 < 23 := (Nat.log2_lt hzero).mpr hfraction
    exact ⟨by omega, hlt, hmagnitude⟩

/-- **Widening keeps the value.** -/
theorem units_widen (bits : ℕ) :
    double.units (widen bits) = (single.units bits).map (· * (unitsInSingle : ℤ)) := by
  have hsign : bits / 2 ^ 31 % 2 < 2 := Nat.mod_lt _ (by decide)
  have hexp : single.exponent bits < 2 ^ 8 := Nat.mod_lt _ (by decide)
  have hfraction : single.fraction bits < 2 ^ 23 := Nat.mod_lt _ (by decide)
  have hneg : single.negative bits = decide (bits / 2 ^ 31 % 2 = 1) := rfl
  change double.units (assemble (bits / 2 ^ 31 % 2)
    (widenFields (single.exponent bits) (single.fraction bits)).1
    (widenFields (single.exponent bits) (single.fraction bits)).2) = _
  by_cases hnan : single.exponent bits = 255
  · have hfields : widenFields (single.exponent bits) (single.fraction bits) =
        (2047, single.fraction bits * 2 ^ 29) := if_pos hnan
    have hexponent := (@assemble_fields (bits / 2 ^ 31 % 2) 2047 (single.fraction bits * 2 ^ 29)
      hsign (by decide) (by omega)).1
    rw [hfields, Format.units_none hexponent, Format.units_none hnan]
    rfl
  · obtain ⟨hlt, hfrac, hmagnitude⟩ :=
      magnitude_widenFields (by omega : single.exponent bits < 255) hfraction
    obtain ⟨hexponent, hnegative, hfraction'⟩ :=
      assemble_fields hsign (hlt.trans (by decide)) hfrac
    rw [Format.units_some (hexponent.trans_ne hlt.ne), Format.units_some hnan, hexponent,
      hnegative, hfraction', hmagnitude, hneg, Option.map_some]
    unfold Format.signed
    split_ifs
    · push_cast
      rw [neg_mul]
    · push_cast
      rfl

theorem widenFields_lt {exponent fraction : ℕ} (hexponent : exponent < 2 ^ 8)
    (hfraction : fraction < 2 ^ 23) :
    (widenFields exponent fraction).1 < 2 ^ 11 ∧ (widenFields exponent fraction).2 < 2 ^ 52 := by
  by_cases hnan : exponent = 255
  · unfold widenFields
    rw [if_pos hnan]
    exact ⟨(by decide : 2047 < 2 ^ 11), by omega⟩
  · obtain ⟨hlt, hfrac, -⟩ := magnitude_widenFields (by omega : exponent < 255) hfraction
    exact ⟨hlt.trans (by decide), hfrac⟩

theorem widen_lt (bits : ℕ) : widen bits < 2 ^ 64 := by
  have hsign : bits / 2 ^ 31 % 2 < 2 := Nat.mod_lt _ (by decide)
  obtain ⟨hexponent, hfraction⟩ := @widenFields_lt (bits / 2 ^ 23 % 2 ^ 8) (bits % 2 ^ 23)
    (Nat.mod_lt _ (by decide)) (Nat.mod_lt _ (by decide))
  unfold widen assemble
  omega

end Ieee754
