import NekoProto.Binary.Parse
import NekoProto.Lib.Leb128
import NekoProto.Lib.Outcome
import NekoProto.Lib.Segment
import Mathlib.Data.Nat.Bitwise
import Mathlib.Tactic.Ring

/-!
# Varints of the Reader

`readUleb` returns exactly the values whose minimal encoding stands at the cursor
(`readUleb_returns`), and otherwise fails with an error of the source (`readUleb_failsOnly`). The
invariant of its loop is that the digits read so far are below `2 ^ shift`, so that the rest of the
number is added to them.
-/

namespace NekoProto.Binary

open Outcome Segment

variable {σ : Type} {inp : Input} {s t : σ}

/-- The errors of the source. -/
def IsError : Stop → Prop
  | .error _ => True
  | _ => False

/-! ## Machine operations -/

@[simp] theorem returns_fail {α : Type} {code : ErrorCode} {msg : String} {a : α} :
    ¬Returns (fail code msg : EStateM Stop σ α) s a t := returns_throw

theorem failsOnly_fail {α : Type} {code : ErrorCode} {msg : String} :
    FailsOnly IsError (fail code msg : EStateM Stop σ α) s := .throw trivial

theorem addSize_eq {a b : ℕ} (h : a + b < 2 ^ 64) :
    (addSize a b : EStateM Stop σ ℕ) = pure (a + b) := if_pos h

theorem subSize_eq {a b : ℕ} (h : b ≤ a) : (subSize a b : EStateM Stop σ ℕ) = pure (a - b) :=
  if_pos h

theorem byteAt_eq {i : ℕ} {byte : UInt8} (h : inp.data[i]? = some byte) :
    (byteAt inp i : EStateM Stop σ UInt8) = pure byte := by
  unfold byteAt
  rw [h]

theorem bytesAt_eq {i n : ℕ} (h : i + n ≤ inp.size) :
    (bytesAt inp i n : EStateM Stop σ Bytes) = pure ((inp.data.drop i).take n) := if_pos h

theorem exists_byte {i limit : ℕ} (hi : i < limit) (hlimit : limit ≤ inp.size) :
    ∃ byte, inp.data[i]? = some byte :=
  ⟨_, List.getElem?_eq_getElem (lt_of_lt_of_le hi hlimit)⟩

/-! ## Digits -/

theorem chunk_eq (byte : UInt8) : (byte &&& 0x7F).toNat = byte.toNat % 128 := by
  rw [UInt8.toNat_and]
  exact Nat.and_two_pow_sub_one_eq_mod byte.toNat 7

theorem last_iff (byte : UInt8) : byte &&& 0x80 = 0 ↔ byte.toNat < 128 := by
  have hbits : ∀ n < 256, n &&& 128 = 0 ↔ n < 128 := by decide +kernel
  rw [← hbits byte.toNat byte.toNat_lt, ← UInt8.toNat_inj, UInt8.toNat_and]
  rfl

theorem or_chunk {value shift : ℕ} (chunk : ℕ) (h : value < 2 ^ shift) :
    value ||| (chunk <<< shift) = value + chunk * 2 ^ shift := by
  rw [Nat.lor_comm, ← Nat.shiftLeft_add_eq_or_of_lt h, Nat.shiftLeft_eq, Nat.add_comm]

theorem two_pow_split {bits shift : ℕ} (hshift : shift ≤ bits) :
    2 ^ bits = 2 ^ (bits - shift) * 2 ^ shift := by
  rw [← Nat.pow_add, Nat.sub_add_cancel hshift]

theorem in_range_iff {bits shift chunk : ℕ} (hshift : shift < bits) :
    (2 ^ bits - 1) >>> shift < chunk ↔ 2 ^ (bits - shift) ≤ chunk := by
  have hpos := Nat.two_pow_pos shift
  rw [Nat.shiftRight_eq_div_pow, Nat.div_lt_iff_lt_mul hpos, two_pow_split hshift.le]
  constructor
  · intro h
    exact Nat.le_of_mul_le_mul_right (by omega) hpos
  · intro h
    have := Nat.mul_le_mul_right (2 ^ shift) h
    have := Nat.mul_pos (Nat.two_pow_pos (bits - shift)) hpos
    omega

/-- A number fits in its type when its high part does. -/
theorem add_mul_lt_iff {bits shift value n : ℕ} (hshift : shift < bits)
    (hvalue : value < 2 ^ shift) :
    value + n * 2 ^ shift < 2 ^ bits ↔ n < 2 ^ (bits - shift) := by
  rw [two_pow_split hshift.le]
  constructor
  · intro h
    by_contra hn
    have := Nat.mul_le_mul_right (2 ^ shift) (Nat.not_lt.mp hn)
    omega
  · intro h
    have := Nat.mul_le_mul_right (2 ^ shift) (Nat.succ_le_of_lt h)
    rw [Nat.succ_mul] at this
    omega

/-- A last digit is a whole encoding. -/
theorem at_encode_last {i n : ℕ} {byte : UInt8} (hbyte : inp.data[i]? = some byte)
    (hlast : byte.toNat < 128) : At inp.data i (Leb128.encode n) ↔ n = byte.toNat := by
  constructor
  · intro h
    by_cases hn : n < 128
    · rw [Leb128.encode_of_lt hn, at_singleton, hbyte] at h
      rw [Option.some.inj h, Leb128.toNat_digit (by omega)]
    · rw [Leb128.encode_of_le (by omega), at_cons, hbyte] at h
      rw [Option.some.inj h.1, Leb128.toNat_digit (by omega)] at hlast
      omega
  · rintro rfl
    rw [Leb128.encode_of_lt hlast, at_singleton, UInt8.ofNat_toNat, hbyte]

/-- A digit that is not the last is followed by the encoding of a number that is not 0. -/
theorem at_encode_more {i n : ℕ} {byte : UInt8} (hbyte : inp.data[i]? = some byte)
    (hmore : 128 ≤ byte.toNat) :
    At inp.data i (Leb128.encode n) ↔
      ∃ m, m ≠ 0 ∧ n = byte.toNat % 128 + 128 * m ∧ At inp.data (i + 1) (Leb128.encode m) := by
  have hlt := byte.toNat_lt
  constructor
  · intro h
    by_cases hn : n < 128
    · rw [Leb128.encode_of_lt hn, at_singleton, hbyte] at h
      rw [Option.some.inj h, Leb128.toNat_digit (by omega)] at hmore
      omega
    · rw [Leb128.encode_of_le (by omega), at_cons, hbyte] at h
      have hdigit := congrArg UInt8.toNat (Option.some.inj h.1)
      rw [Leb128.toNat_digit (by omega)] at hdigit
      exact ⟨n / 128, by omega, by omega, h.2⟩
  · rintro ⟨m, hm, rfl, hat⟩
    rw [Leb128.encode_digit (Nat.mod_lt _ (by omega)) hm, at_cons]
    refine ⟨?_, hat⟩
    rw [hbyte, show byte.toNat % 128 + 128 = byte.toNat by omega, UInt8.ofNat_toNat]

theorem length_encode_more {d m : ℕ} (hd : d < 128) (hm : m ≠ 0) :
    (Leb128.encode (d + 128 * m)).length = (Leb128.encode m).length + 1 := by
  rw [Leb128.encode_digit hd hm, List.length_cons]

/-! ## The loop -/

/-- The loop reads the rest `n` of the number, which is not 0 when a digit was read before. -/
theorem readUlebLoop_returns {bits start limit : ℕ} (hbits : 0 < bits) (hlimit : limit ≤ inp.size)
    {r : ℕ × ℕ} (fuel : ℕ) : ∀ {cursor shift value : ℕ}, limit - cursor ≤ fuel → start ≤ cursor →
      (start = cursor → shift = 0) → value < 2 ^ shift →
      (Returns (readUlebLoop inp bits start limit fuel cursor shift value) s r t ↔
        t = s ∧ ∃ n, (start < cursor → n ≠ 0) ∧ value + n * 2 ^ shift < 2 ^ bits ∧
          At inp.data cursor (Leb128.encode n) ∧ cursor + (Leb128.encode n).length ≤ limit ∧
          r = (value + n * 2 ^ shift, cursor + (Leb128.encode n).length)) := by
  induction fuel with
  | zero =>
    intro cursor shift value hfuel hstart hshift hvalue
    have hend : ¬cursor < limit := by omega
    simp only [readUlebLoop, if_neg hend, returns_fail, false_iff]
    rintro ⟨-, n, -, -, -, hle, -⟩
    have := Leb128.length_encode_pos n
    omega
  | succ fuel ih =>
    intro cursor shift value hfuel hstart hshift hvalue
    by_cases hend : cursor < limit
    · obtain ⟨byte, hbyte⟩ := exists_byte hend hlimit
      have hsize : cursor + 1 < 2 ^ 64 := by
        have := inp.size_lt
        unfold Input.size at hlimit
        omega
      have hbound : byte.toNat < 256 := byte.toNat_lt
      simp only [readUlebLoop, if_pos hend, byteAt_eq hbyte, addSize_eq hsize, pure_bind, chunk_eq]
      by_cases hwidth : bits ≤ shift
      · -- A number of this many digits is too large, unless it was the first one.
        rw [if_pos (.inl hwidth)]
        simp only [returns_fail, false_iff]
        rintro ⟨-, n, hn, hlt, -⟩
        have hpos : 0 < n := by
          refine Nat.pos_of_ne_zero (hn (lt_of_le_of_ne hstart fun h => ?_))
          have := hshift h
          omega
        have := Nat.pow_le_pow_right (n := 2) (by omega) hwidth
        have := Nat.le_mul_of_pos_left (2 ^ shift) hpos
        omega
      · have hdigit : byte.toNat % 128 < 128 := Nat.mod_lt _ (by omega)
        by_cases hrange : 2 ^ (bits - shift) ≤ byte.toNat % 128
        · rw [if_pos (.inr ((in_range_iff (by omega)).mpr hrange))]
          simp only [returns_fail, false_iff]
          rintro ⟨-, n, -, hlt, hat, -⟩
          rw [add_mul_lt_iff (by omega) hvalue] at hlt
          by_cases hlast : byte.toNat < 128
          · rw [at_encode_last hbyte hlast] at hat
            omega
          · obtain ⟨m, -, rfl, -⟩ := (at_encode_more hbyte (by omega)).mp hat
            omega
        · rw [if_neg (by
            rintro (h | h)
            · exact hwidth h
            · exact hrange ((in_range_iff (by omega)).mp h)), or_chunk _ hvalue]
          by_cases hlast : byte.toNat < 128
          · rw [if_pos ((last_iff byte).mpr hlast), subSize_eq (by omega), pure_bind,
              Nat.mod_eq_of_lt hlast]
            rw [Nat.mod_eq_of_lt hlast] at hrange
            simp only [returns_ite, returns_fail, and_false, false_or, returns_pure,
              at_encode_last hbyte hlast]
            constructor
            · rintro ⟨hminimal, rfl, rfl⟩
              refine ⟨rfl, byte.toNat, fun h h' => hminimal ⟨by omega, h'⟩, ?_, rfl, ?_, ?_⟩
              · exact (add_mul_lt_iff (by omega) hvalue).mpr (by omega)
              · rw [Leb128.encode_of_lt hlast, List.length_singleton]
                omega
              · rw [Leb128.encode_of_lt hlast, List.length_singleton]
            · rintro ⟨rfl, n, hn, -, rfl, -, rfl⟩
              refine ⟨fun h => hn (by omega) h.2, ?_, rfl⟩
              rw [Leb128.encode_of_lt hlast, List.length_singleton]
          · have hnext : value + byte.toNat % 128 * 2 ^ shift < 2 ^ (shift + 7) := by
              have := Nat.mul_le_mul_right (2 ^ shift) (Nat.le_of_lt_succ hdigit)
              rw [Nat.pow_add]
              omega
            rw [if_neg (by rw [last_iff]; exact hlast),
              ih (by omega) (by omega) (by omega) hnext]
            have hsum (m : ℕ) : value + byte.toNat % 128 * 2 ^ shift + m * 2 ^ (shift + 7) =
                value + (byte.toNat % 128 + 128 * m) * 2 ^ shift := by ring
            refine and_congr_right fun _ => ?_
            constructor
            · rintro ⟨m, hm, hlt, hat, hle, rfl⟩
              have hm := hm (by omega)
              refine ⟨byte.toNat % 128 + 128 * m, fun _ => by omega, hsum m ▸ hlt,
                (at_encode_more hbyte (by omega)).mpr ⟨m, hm, rfl, hat⟩, ?_, ?_⟩
              · rw [length_encode_more hdigit hm]
                omega
              · rw [length_encode_more hdigit hm, hsum m]
                congr 1
                omega
            · rintro ⟨n, -, hlt, hat, hle, rfl⟩
              obtain ⟨m, hm, rfl, hrest⟩ := (at_encode_more hbyte (by omega)).mp hat
              rw [length_encode_more hdigit hm] at hle ⊢
              refine ⟨m, fun _ => hm, (hsum m).symm ▸ hlt, hrest, by omega, ?_⟩
              rw [hsum m]
              congr 1
              omega
    · simp only [readUlebLoop, if_neg hend, returns_fail, false_iff]
      rintro ⟨-, n, -, -, -, hle, -⟩
      have := Leb128.length_encode_pos n
      omega

/-- **Varints are minimal.** A varint is read exactly when it is the minimal encoding of a number
of its type, and stands before the limit. -/
theorem readUleb_returns {bits cursor limit : ℕ} (hbits : 0 < bits) (hlimit : limit ≤ inp.size)
    {n next : ℕ} :
    Returns (readUleb inp bits cursor limit) s (n, next) t ↔
      t = s ∧ n < 2 ^ bits ∧ At inp.data cursor (Leb128.encode n) ∧
        next = cursor + (Leb128.encode n).length ∧ next ≤ limit := by
  unfold readUleb
  rw [readUlebLoop_returns hbits hlimit _ (le_refl _) (le_refl _) (fun _ => rfl) (by simp)]
  simp only [Nat.pow_zero, Nat.mul_one, Nat.zero_add, Prod.mk.injEq]
  refine and_congr_right fun _ => ?_
  constructor
  · rintro ⟨m, -, hlt, hat, hle, rfl, rfl⟩
    exact ⟨hlt, hat, rfl, hle⟩
  · rintro ⟨hlt, hat, rfl, hle⟩
    exact ⟨n, fun h => absurd h (by omega), hlt, hat, hle, rfl, rfl⟩

/-- The loop stays inside the buffer and the range of `size_t`. -/
theorem readUlebLoop_failsOnly {bits start limit : ℕ} (hlimit : limit ≤ inp.size) (fuel : ℕ) :
    ∀ {cursor shift value : ℕ}, limit - cursor ≤ fuel → start ≤ cursor →
      FailsOnly IsError (readUlebLoop inp bits start limit fuel cursor shift value) s := by
  induction fuel with
  | zero =>
    intro cursor shift value hfuel _
    rw [readUlebLoop, if_neg (by omega)]
    exact failsOnly_fail
  | succ fuel ih =>
    intro cursor shift value hfuel hstart
    rw [readUlebLoop]
    refine .ite (fun hend => ?_) (fun _ => failsOnly_fail)
    obtain ⟨byte, hbyte⟩ := exists_byte hend hlimit
    have hsize : cursor + 1 < 2 ^ 64 := by
      have := inp.size_lt
      unfold Input.size at hlimit
      omega
    simp only [byteAt_eq hbyte, addSize_eq hsize, subSize_eq (show start ≤ cursor + 1 by omega),
      pure_bind]
    refine .ite (fun _ => failsOnly_fail) (fun _ => .ite (fun _ => ?_) (fun _ => ?_))
    · exact .ite (fun _ => failsOnly_fail) (fun _ => .pure)
    · exact ih (by omega) (by omega)

theorem readUleb_failsOnly {bits cursor limit : ℕ} (hlimit : limit ≤ inp.size) :
    FailsOnly IsError (readUleb inp bits cursor limit) s :=
  readUlebLoop_failsOnly hlimit _ (le_refl _) (le_refl _)

end NekoProto.Binary
