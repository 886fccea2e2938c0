import NekoProto.Binary.Uleb

/-!
# Prefix integers

`IntegerEncoder` and `IntegerDecoder` of `serialization/private/integer.hpp`: an unsigned number in
the low bits of a byte, and where they are all set in the bytes that follow.

1. Behind the low bits the encoder writes the minimal LEB128 encoding of the rest (`encode_eq`).
2. The decoder's loop adds the digits as long as they fit the width (`decodeLoop_spec`): it returns
   the exact number and its length, or fails, and it fails with -1 where a number does not fit.
3. It takes every minimal encoding of a number that fits (`decodeLoop_encode`).
-/

namespace NekoProto

open Binary (Bytes)

/-- The low bits of a byte that hold the number: `(1U << (8 - bitsOffset)) - 1U`. -/
def prefixMask (bitsOffset : Fin 8) : UInt8 := UInt8.ofNat ((1 <<< (8 - bitsOffset.val)) - 1)

namespace IntegerEncoder

/-- The loop over the rest of the value, and the last byte behind it. -/
def pushRest (remain : ℕ) (outputBuffer : Bytes) : Bytes :=
  if 0x7F < remain then
    pushRest (remain / 0x80) (outputBuffer ++ [UInt8.ofNat (remain % 0x80 + 0x80)])
  else outputBuffer ++ [UInt8.ofNat remain]
termination_by remain
decreasing_by omega

/-- `encode`. The last byte of the buffer takes the low bits. -/
def encode (value : ℕ) (outputBuffer : Bytes) (bitsOffset : Fin 8) : Bytes :=
  let outputBuffer := if outputBuffer.isEmpty then [0] else outputBuffer
  let byte := prefixMask bitsOffset
  let current := outputBuffer.getLastD 0
  if value < byte.toNat then outputBuffer.dropLast ++ [current ||| UInt8.ofNat value]
  else pushRest (value - byte.toNat) (outputBuffer.dropLast ++ [current ||| byte])

end IntegerEncoder

namespace IntegerDecoder

/-- The loop over the bytes behind the first, with the result and the value it leaves. -/
def decodeLoop {digits : ℕ} (mask : UInt8) : Bytes → ℤ → ℕ → BitVec digits → ℤ × BitVec digits
  | [], _, _, value => (-2, value)
  | currentByte :: bytes, current, valueBitsOffset, value =>
    let chunk := (currentByte &&& 0x7F).toBitVec.setWidth digits
    if digits ≤ valueBitsOffset ∨ BitVec.allOnes digits >>> valueBitsOffset < chunk then (-1, value)
    else
      let value := value ||| (chunk <<< valueBitsOffset)
      if currentByte &&& 0x80 = 0 then
        if BitVec.allOnes digits - mask.toBitVec.setWidth digits < value then (-1, value)
        else (current + 1, value + mask.toBitVec.setWidth digits)
      else decodeLoop mask bytes (current + 1) (valueBitsOffset + 7) value

/-- `decode` into a type of so many digits: its result and the value, or none where there is no
byte to read. -/
def decode (digits : ℕ) (buffer : Bytes) (bitsOffset : Fin 8) : Option (ℤ × BitVec digits) :=
  match buffer with
  | [] => none
  | first :: bytes =>
    let mask := prefixMask bitsOffset
    if first &&& mask < mask then some (1, (first &&& mask).toBitVec.setWidth digits)
    else some (decodeLoop mask bytes 1 0 0)

end IntegerDecoder

/-! ## Numbers -/

theorem toNat_prefixMask : ∀ bitsOffset : Fin 8,
    (prefixMask bitsOffset).toNat = 2 ^ (8 - bitsOffset.val) - 1 := by
  decide

theorem toNat_and_prefixMask (byte : UInt8) (bitsOffset : Fin 8) :
    (byte &&& prefixMask bitsOffset).toNat = byte.toNat % 2 ^ (8 - bitsOffset.val) := by
  rw [UInt8.toNat_and, toNat_prefixMask]
  exact Nat.and_two_pow_sub_one_eq_mod byte.toNat _

/-- The number whose encoding stands at the start of some bytes, and the bytes it takes. -/
def encodedNumber (bitsOffset : Fin 8) : Bytes → Option (ℕ × ℕ)
  | [] => none
  | first :: bytes =>
    if first.toNat % 2 ^ (8 - bitsOffset.val) < 2 ^ (8 - bitsOffset.val) - 1 then
      some (first.toNat % 2 ^ (8 - bitsOffset.val), 1)
    else (Leb128.decode bytes).map fun (n, size) => (n + (2 ^ (8 - bitsOffset.val) - 1), size + 1)

/-! ## The decoder's loop -/

namespace IntegerDecoder

open Binary

section

variable {digits : ℕ} {mask byte : UInt8} {bytes : Bytes} {current : ℤ} {off : ℕ}
  {value : BitVec digits}

theorem toNat_chunk (hdigits : 8 ≤ digits) (byte : UInt8) :
    ((byte &&& 0x7F).toBitVec.setWidth digits).toNat = byte.toNat % 128 := by
  have hpow : 2 ^ 8 ≤ 2 ^ digits := Nat.pow_le_pow_right (by omega) hdigits
  rw [BitVec.toNat_setWidth]
  change (byte &&& 0x7F).toNat % 2 ^ digits = _
  rw [chunk_eq, Nat.mod_eq_of_lt (by omega)]

theorem toNat_mask (hdigits : 8 ≤ digits) (mask : UInt8) :
    (mask.toBitVec.setWidth digits).toNat = mask.toNat := by
  have hpow : 2 ^ 8 ≤ 2 ^ digits := Nat.pow_le_pow_right (by omega) hdigits
  have hlt := mask.toNat_lt
  rw [BitVec.toNat_setWidth]
  exact Nat.mod_eq_of_lt (by change mask.toNat < _; omega)

/-- What a round does with a chunk: it leaves the loop where the chunk does not fit. -/
theorem decodeLoop_cons (hdigits : 8 ≤ digits) (hvalue : value.toNat < 2 ^ off) :
    decodeLoop mask (byte :: bytes) current off value =
      if digits ≤ off ∨ 2 ^ (digits - off) ≤ byte.toNat % 128 then (-1, value)
      else if byte.toNat < 128 then
        if value.toNat + byte.toNat % 128 * 2 ^ off + mask.toNat < 2 ^ digits then
          (current + 1,
            BitVec.ofNat digits (value.toNat + byte.toNat % 128 * 2 ^ off + mask.toNat))
        else (-1, BitVec.ofNat digits (value.toNat + byte.toNat % 128 * 2 ^ off))
      else decodeLoop mask bytes (current + 1) (off + 7)
        (BitVec.ofNat digits (value.toNat + byte.toNat % 128 * 2 ^ off)) := by
  have hmask := toNat_mask hdigits mask
  have hmaskLt : mask.toNat < 2 ^ digits := by
    rw [← hmask]
    exact BitVec.isLt _
  conv_lhs => unfold decodeLoop
  simp only
  by_cases hoff : digits ≤ off
  · rw [if_pos (.inl hoff), if_pos (.inl hoff)]
  have hrange : BitVec.allOnes digits >>> off < (byte &&& 0x7F).toBitVec.setWidth digits ↔
      2 ^ (digits - off) ≤ byte.toNat % 128 := by
    rw [BitVec.lt_def, BitVec.toNat_ushiftRight, BitVec.toNat_allOnes, toNat_chunk hdigits]
    exact in_range_iff (by omega)
  by_cases hchunk : 2 ^ (digits - off) ≤ byte.toNat % 128
  · rw [if_pos (.inr (hrange.mpr hchunk)), if_pos (.inr hchunk)]
  have hsum : value.toNat + byte.toNat % 128 * 2 ^ off < 2 ^ digits :=
    (add_mul_lt_iff (by omega) hvalue).mpr (Nat.not_le.mp hchunk)
  have hor : value ||| (byte &&& 0x7F).toBitVec.setWidth digits <<< off =
      BitVec.ofNat digits (value.toNat + byte.toNat % 128 * 2 ^ off) := by
    apply BitVec.eq_of_toNat_eq
    rw [BitVec.toNat_or, BitVec.toNat_shiftLeft, toNat_chunk hdigits, BitVec.toNat_ofNat,
      Nat.mod_eq_of_lt hsum, Nat.mod_eq_of_lt, or_chunk _ hvalue]
    rw [Nat.shiftLeft_eq]
    omega
  rw [if_neg (not_or.mpr ⟨hoff, fun h => hchunk (hrange.mp h)⟩), if_neg (not_or.mpr ⟨hoff, hchunk⟩),
    hor]
  by_cases hlast : byte.toNat < 128
  · rw [if_pos ((last_iff byte).mpr hlast), if_pos hlast]
    have hfits : BitVec.allOnes digits - mask.toBitVec.setWidth digits <
          BitVec.ofNat digits (value.toNat + byte.toNat % 128 * 2 ^ off) ↔
        ¬value.toNat + byte.toNat % 128 * 2 ^ off + mask.toNat < 2 ^ digits := by
      rw [BitVec.lt_def, BitVec.toNat_sub_of_le, hmask, BitVec.toNat_allOnes, BitVec.toNat_ofNat,
        Nat.mod_eq_of_lt hsum]
      · omega
      · rw [BitVec.le_def, BitVec.toNat_allOnes, hmask]
        omega
    by_cases hover : value.toNat + byte.toNat % 128 * 2 ^ off + mask.toNat < 2 ^ digits
    · rw [if_neg (fun h => hfits.mp h hover), if_pos hover]
      congr 1
      apply BitVec.eq_of_toNat_eq
      rw [BitVec.toNat_add, hmask, BitVec.toNat_ofNat, BitVec.toNat_ofNat, Nat.mod_eq_of_lt hsum]
    · rw [if_pos (hfits.mpr hover), if_neg hover]
  · rw [if_neg (fun h => hlast ((last_iff byte).mp h)), if_neg hlast]

theorem add_chunk_lt (hvalue : value.toNat < 2 ^ off) :
    value.toNat + byte.toNat % 128 * 2 ^ off < 2 ^ (off + 7) := by
  have hchunk : byte.toNat % 128 + 1 ≤ 128 := by omega
  have hmul := Nat.mul_le_mul_right (2 ^ off) hchunk
  rw [Nat.add_mul] at hmul
  rw [Nat.pow_add]
  omega

/-- The digits behind a chunk count from its high end on. -/
theorem shift_sum (a d n off : ℕ) :
    a + (d + 128 * n) * 2 ^ off = a + d * 2 ^ off + n * 2 ^ (off + 7) := by
  rw [Nat.pow_add]
  ring

theorem toNat_ofNat_chunk (hoff : off < digits) (hvalue : value.toNat < 2 ^ off)
    (hchunk : byte.toNat % 128 < 2 ^ (digits - off)) :
    (BitVec.ofNat digits (value.toNat + byte.toNat % 128 * 2 ^ off)).toNat =
      value.toNat + byte.toNat % 128 * 2 ^ off := by
  rw [BitVec.toNat_ofNat]
  exact Nat.mod_eq_of_lt ((add_mul_lt_iff hoff hvalue).mpr hchunk)

/-- What the loop can come to: the exact number and the bytes it took, a failure, or the end of
the bytes before the end of the number. -/
structure Outcome (mask : UInt8) (bytes : Bytes) (current : ℤ) (off : ℕ) (value : BitVec digits)
    (result : ℤ × BitVec digits) : Prop where
  exact_of : 0 ≤ result.1 → ∃ n size, Leb128.decode bytes = some (n, size) ∧
    value.toNat + n * 2 ^ off + mask.toNat < 2 ^ digits ∧
    result = (current + size, BitVec.ofNat digits (value.toNat + n * 2 ^ off + mask.toNat))
  failed : result.1 < 0 → result.1 = -1 ∨ Leb128.decode bytes = none ∧ result.1 = -2

theorem Outcome.fail {a : BitVec digits} : Outcome mask bytes current off value (-1, a) :=
  ⟨fun h => absurd h (by decide : ¬(0 : ℤ) ≤ -1), fun _ => .inl rfl⟩

/-- **The loop is exact.** -/
theorem decodeLoop_spec (hdigits : 8 ≤ digits) (bytes : Bytes) :
    ∀ {current : ℤ} {off : ℕ} {value : BitVec digits}, 0 ≤ current → value.toNat < 2 ^ off →
    Outcome mask bytes current off value (decodeLoop mask bytes current off value) := by
  induction bytes with
  | nil =>
    intro current off value _ _
    exact ⟨fun h => absurd h (by decide : ¬(0 : ℤ) ≤ -2), fun _ => .inr ⟨rfl, rfl⟩⟩
  | cons byte bytes ih =>
    intro current off value hcurrent hvalue
    rw [decodeLoop_cons hdigits hvalue]
    by_cases hchunk : digits ≤ off ∨ 2 ^ (digits - off) ≤ byte.toNat % 128
    · rw [if_pos hchunk]
      exact .fail
    rw [if_neg hchunk]
    obtain ⟨hoff, hchunk⟩ := not_or.mp hchunk
    by_cases hlast : byte.toNat < 128
    · rw [if_pos hlast, Nat.mod_eq_of_lt hlast]
      by_cases hfits : value.toNat + byte.toNat * 2 ^ off + mask.toNat < 2 ^ digits
      · rw [if_pos hfits]
        refine ⟨fun _ => ⟨byte.toNat, 1, Leb128.decode_last hlast, hfits, rfl⟩, fun h => ?_⟩
        exact absurd h (by change ¬current + 1 < 0; omega)
      · rw [if_neg hfits]
        exact .fail
    · rw [if_neg hlast]
      have htoNat := toNat_ofNat_chunk (Nat.not_le.mp hoff) hvalue (Nat.not_le.mp hchunk)
      have hrest := @ih (current + 1) (off + 7)
        (BitVec.ofNat digits (value.toNat + byte.toNat % 128 * 2 ^ off)) (by omega)
        (htoNat.trans_lt (add_chunk_lt hvalue))
      have hdigit : byte.toNat % 128 = byte.toNat - 128 := by
        have := byte.toNat_lt
        omega
      have hdecode := @Leb128.decode_more byte bytes hlast
      constructor
      · intro h
        obtain ⟨n, size, hn, hfits, hresult⟩ := hrest.exact_of h
        rw [htoNat, ← shift_sum] at hfits hresult
        have hsize : current + 1 + size = current + ((size + 1 : ℕ) : ℤ) := by
          push_cast
          ring
        refine ⟨byte.toNat % 128 + 128 * n, size + 1, ?_, hfits, hresult.trans (by rw [hsize])⟩
        rw [hdecode, hn, hdigit]
        rfl
      · intro h
        obtain hone | ⟨hnone, htwo⟩ := hrest.failed h
        · exact .inl hone
        · refine .inr ⟨?_, htwo⟩
          rw [hdecode, hnone]
          rfl

/-- **Minimal encodings** of a number that fits are taken. -/
theorem decodeLoop_encode (hdigits : 8 ≤ digits) (n : ℕ) :
    ∀ {current : ℤ} {off : ℕ} {value : BitVec digits}, value.toNat < 2 ^ off → off = 0 ∨ n ≠ 0 →
    value.toNat + n * 2 ^ off + mask.toNat < 2 ^ digits →
    decodeLoop mask (Leb128.encode n ++ bytes) current off value =
      (current + (Leb128.encode n).length,
        BitVec.ofNat digits (value.toNat + n * 2 ^ off + mask.toNat)) := by
  induction n using Nat.strongRecOn with
  | ind n ih =>
    intro current off value hvalue hfirst hfits
    have hoff : off < digits := by
      by_contra hle
      obtain rfl | hn := hfirst
      · omega
      · have hpow := Nat.pow_le_pow_right (show 0 < 2 by decide) (Nat.not_lt.mp hle)
        have hmul := Nat.le_mul_of_pos_left (2 ^ off) (Nat.pos_of_ne_zero hn)
        omega
    have hhigh : n < 2 ^ (digits - off) :=
      (add_mul_lt_iff hoff hvalue).mp (lt_of_le_of_lt (Nat.le_add_right _ _) hfits)
    by_cases hn : n < 128
    · have hbyte : (UInt8.ofNat n).toNat = n := Leb128.toNat_digit (by omega)
      rw [Leb128.encode_of_lt hn, List.singleton_append, decodeLoop_cons hdigits hvalue, hbyte,
        Nat.mod_eq_of_lt hn, if_neg (not_or.mpr ⟨by omega, by omega⟩), if_pos hn, if_pos hfits]
      rfl
    · have hbyte : (UInt8.ofNat (n % 128 + 128)).toNat = n % 128 + 128 :=
        Leb128.toNat_digit (by omega)
      have hdigit : (n % 128 + 128) % 128 = n % 128 := by omega
      have hchunk : (UInt8.ofNat (n % 128 + 128)).toNat % 128 < 2 ^ (digits - off) := by
        rw [hbyte, hdigit]
        exact lt_of_le_of_lt (Nat.mod_le n 128) hhigh
      have htoNat := toNat_ofNat_chunk hoff hvalue hchunk
      have hnext := (htoNat.trans_lt (add_chunk_lt hvalue))
      rw [hbyte, hdigit] at htoNat hnext
      have hsum : value.toNat + n % 128 * 2 ^ off + n / 128 * 2 ^ (off + 7) =
          value.toNat + n * 2 ^ off := by
        rw [← shift_sum, Nat.mod_add_div]
      rw [Leb128.encode_of_le (Nat.not_lt.mp hn), List.cons_append, decodeLoop_cons hdigits hvalue,
        hbyte, hdigit, if_neg (not_or.mpr ⟨by omega, by rw [hbyte, hdigit] at hchunk; omega⟩),
        if_neg (by omega), @ih (n / 128) (by omega) (current + 1) (off + 7) _ hnext
          (.inr (by omega)) (by rw [htoNat, hsum]; exact hfits), htoNat, hsum, List.length_cons]
      congr 1
      push_cast
      ring

end

end IntegerDecoder

/-! ## The encoder -/

namespace IntegerEncoder

theorem pushRest_eq (remain : ℕ) : ∀ outputBuffer : Bytes,
    pushRest remain outputBuffer = outputBuffer ++ Leb128.encode remain := by
  induction remain using Nat.strongRecOn with
  | ind remain ih =>
    intro outputBuffer
    unfold pushRest
    by_cases h : 0x7F < remain
    · rw [if_pos h, ih _ (by omega), @Leb128.encode_of_le remain (by omega), List.append_assoc]
      rfl
    · rw [if_neg h, Leb128.encode_of_lt (by omega)]

/-- The last byte of a buffer, after a first 0 is put into an empty one. -/
def lastByte (outputBuffer : Bytes) : UInt8 := outputBuffer.getLastD 0

/-- **Encoding** fills the low bits of the last byte and appends the rest. -/
theorem encode_eq (value : ℕ) (outputBuffer : Bytes) (bitsOffset : Fin 8) :
    encode value outputBuffer bitsOffset = outputBuffer.dropLast ++
      if value < (prefixMask bitsOffset).toNat then [lastByte outputBuffer ||| UInt8.ofNat value]
      else (lastByte outputBuffer ||| prefixMask bitsOffset) ::
        Leb128.encode (value - (prefixMask bitsOffset).toNat) := by
  have hbuffer : (if outputBuffer.isEmpty then [0] else outputBuffer).dropLast =
      outputBuffer.dropLast := by
    cases outputBuffer <;> rfl
  have hlast : (if outputBuffer.isEmpty then [0] else outputBuffer).getLastD 0 =
      lastByte outputBuffer := by
    cases outputBuffer <;> rfl
  unfold encode
  simp only
  rw [hbuffer, hlast]
  split_ifs with h
  · rfl
  · rw [pushRest_eq, List.append_assoc]
    rfl

end IntegerEncoder

/-! ## Low and high bits -/

section

variable {byte low mask : UInt8}

theorem or_and (a b : UInt8) : (a ||| b) &&& mask = (a &&& mask) ||| (b &&& mask) :=
  UInt8.toBitVec_inj.mp BitVec.and_or_distrib_right

theorem or_and_mask (h : byte &&& mask = 0) (hlow : low &&& mask = low) :
    (byte ||| low) &&& mask = low := by
  rw [or_and, h, hlow, UInt8.zero_or]

/-- The bits outside the mask stay. -/
theorem or_and_not_mask (hlow : low &&& mask = low) :
    (byte ||| low) &&& ~~~mask = byte &&& ~~~mask := by
  have hnone : low &&& ~~~mask = 0 := by
    rw [← hlow, UInt8.and_assoc, UInt8.and_not_self, UInt8.and_zero]
  rw [or_and, hnone, UInt8.or_zero]

end

/-- A value below the mask is in its bits. -/
theorem ofNat_and_prefixMask {value : ℕ} {bitsOffset : Fin 8}
    (h : value < (prefixMask bitsOffset).toNat) :
    UInt8.ofNat value &&& prefixMask bitsOffset = UInt8.ofNat value := by
  have hlt := (prefixMask bitsOffset).toNat_lt
  have hvalue : (UInt8.ofNat value).toNat = value := Leb128.toNat_digit (by omega)
  have hmask := toNat_prefixMask bitsOffset
  apply UInt8.toNat_inj.mp
  rw [toNat_and_prefixMask, hvalue]
  exact Nat.mod_eq_of_lt (by omega)

/-! ## The codec -/

namespace IntegerDecoder

open IntegerEncoder

section

variable {digits : ℕ} {bitsOffset : Fin 8} {first : UInt8} {bytes : Bytes}

theorem decode_short (h : first &&& prefixMask bitsOffset < prefixMask bitsOffset) :
    decode digits (first :: bytes) bitsOffset =
      some (1, (first &&& prefixMask bitsOffset).toBitVec.setWidth digits) := by
  unfold decode
  simp only
  rw [if_pos h]

theorem decode_long (h : ¬first &&& prefixMask bitsOffset < prefixMask bitsOffset) :
    decode digits (first :: bytes) bitsOffset =
      some (decodeLoop (prefixMask bitsOffset) bytes 1 0 0) := by
  unfold decode
  simp only
  rw [if_neg h]

/-- What was encoded from a last byte on is decoded, whatever follows. -/
theorem decode_encoded (hdigits : 8 ≤ digits) (value : BitVec digits) {last : UInt8}
    (hlast : last &&& prefixMask bitsOffset = 0) (post : Bytes) :
    ∃ first rest, (if value.toNat < (prefixMask bitsOffset).toNat then
          [last ||| UInt8.ofNat value.toNat]
        else (last ||| prefixMask bitsOffset) ::
          Leb128.encode (value.toNat - (prefixMask bitsOffset).toNat)) = first :: rest ∧
      first &&& ~~~prefixMask bitsOffset = last &&& ~~~prefixMask bitsOffset ∧
      decode digits (first :: rest ++ post) bitsOffset =
        some (((first :: rest).length : ℤ), value) := by
  have hmask := toNat_mask hdigits (prefixMask bitsOffset)
  have hself : prefixMask bitsOffset &&& prefixMask bitsOffset = prefixMask bitsOffset :=
    UInt8.and_self
  by_cases h : value.toNat < (prefixMask bitsOffset).toNat
  · have hlow := ofNat_and_prefixMask h
    have hnat : (UInt8.ofNat value.toNat).toNat = value.toNat :=
      Leb128.toNat_digit (h.trans (prefixMask bitsOffset).toNat_lt)
    refine ⟨_, [], if_pos h, or_and_not_mask hlow, ?_⟩
    rw [List.singleton_append, decode_short]
    · rw [or_and_mask hlast hlow]
      congr 2
      apply BitVec.eq_of_toNat_eq
      exact (toNat_mask hdigits _).trans hnat
    · rw [or_and_mask hlast hlow, UInt8.lt_iff_toNat_lt, hnat]
      exact h
  · have hzero : (0 : BitVec digits).toNat = 0 := Nat.zero_mod _
    have hsum : (0 : BitVec digits).toNat +
        (value.toNat - (prefixMask bitsOffset).toNat) * 2 ^ 0 + (prefixMask bitsOffset).toNat =
        value.toNat := by
      rw [hzero]
      omega
    refine ⟨_, _, if_neg h, or_and_not_mask hself, ?_⟩
    rw [List.cons_append, decode_long (by rw [or_and_mask hlast hself]; exact UInt8.lt_irrefl _),
      decodeLoop_encode hdigits _ (by simp) (.inl rfl) (hsum.trans_lt value.isLt), hsum,
      BitVec.ofNat_toNat, BitVec.setWidth_eq, List.length_cons]
    congr 2
    push_cast
    ring

/-- What decoding some bytes comes to. -/
theorem decode_cases (hdigits : 8 ≤ digits) (first : UInt8) (bytes : Bytes) :
    ∃ result value, decode digits (first :: bytes) bitsOffset = some (result, value) ∧
      (0 ≤ result → ∃ size : ℕ, result = size ∧
        encodedNumber bitsOffset (first :: bytes) = some (value.toNat, size)) ∧
      (result < 0 → (∃ n size, encodedNumber bitsOffset (first :: bytes) = some (n, size)) →
        result = -1) := by
  have hmask := toNat_prefixMask bitsOffset
  have hlow := toNat_and_prefixMask first bitsOffset
  have hpow : (first &&& prefixMask bitsOffset < prefixMask bitsOffset) ↔
      first.toNat % 2 ^ (8 - bitsOffset.val) < 2 ^ (8 - bitsOffset.val) - 1 := by
    rw [UInt8.lt_iff_toNat_lt, hlow, hmask]
  by_cases h : first &&& prefixMask bitsOffset < prefixMask bitsOffset
  · refine ⟨_, _, decode_short h, fun _ => ⟨1, rfl, ?_⟩, fun hneg => absurd hneg (by decide)⟩
    rw [toNat_mask hdigits, hlow]
    exact if_pos (hpow.mp h)
  · have hnumber : encodedNumber bitsOffset (first :: bytes) = (Leb128.decode bytes).map
        fun (n, size) => (n + (2 ^ (8 - bitsOffset.val) - 1), size + 1) :=
      if_neg fun h' => h (hpow.mpr h')
    have hzero : (0 : BitVec digits).toNat = 0 := Nat.zero_mod _
    have hloop := @decodeLoop_spec digits (prefixMask bitsOffset) hdigits bytes 1 0 0 (by decide)
      (by rw [hzero]; decide)
    refine ⟨_, _, decode_long h, fun hpos => ?_, fun hneg => ?_⟩
    · obtain ⟨n, size, hn, hfits, hresult⟩ := hloop.exact_of hpos
      rw [hzero, Nat.zero_add, Nat.pow_zero, Nat.mul_one] at hfits hresult
      refine ⟨size + 1, ?_, ?_⟩
      · rw [hresult]
        push_cast
        ring
      · rw [hnumber, hn, hresult, ← hmask, BitVec.toNat_ofNat, Nat.mod_eq_of_lt hfits]
        rfl
    · rintro ⟨n, size, hsome⟩
      obtain hone | ⟨hnone, -⟩ := hloop.failed hneg
      · exact hone
      · rw [hnumber, hnone] at hsome
        cases hsome

end

end IntegerDecoder

open IntegerEncoder IntegerDecoder

/-- **The codec.** A value of any width that is encoded into a buffer, empty or with a last byte
whose low bits are 0, is decoded from that byte on, whatever follows, with the exact number of
bytes of its encoding. What stands before that byte stays, and so do its high bits. Decoding any
bytes fails or gives the exact number and its length, and it fails with -1 at a complete number
that does not fit the width. -/
theorem prefix_integer (digits : ℕ) (hdigits : 8 ≤ digits) (bitsOffset : Fin 8) :
    (∀ (value : BitVec digits) (buffer : Bytes),
      (∀ last ∈ buffer.getLast?, last &&& prefixMask bitsOffset = 0) →
      ∃ first rest, encode value.toNat buffer bitsOffset = buffer.dropLast ++ first :: rest ∧
        first &&& ~~~prefixMask bitsOffset = lastByte buffer &&& ~~~prefixMask bitsOffset ∧
        ∀ post, decode digits (first :: rest ++ post) bitsOffset =
          some (((first :: rest).length : ℤ), value)) ∧
    ∀ bytes : Bytes, bytes ≠ [] →
      ∃ result value, decode digits bytes bitsOffset = some (result, value) ∧
        (result < 0 ∨ ∃ size : ℕ, result = size ∧
          encodedNumber bitsOffset bytes = some (value.toNat, size)) ∧
        ∀ n size, encodedNumber bitsOffset bytes = some (n, size) → 2 ^ digits ≤ n →
          result = -1 := by
  constructor
  · intro value buffer hbuffer
    have hlast : lastByte buffer &&& prefixMask bitsOffset = 0 := by
      unfold lastByte
      rw [List.getLastD_eq_getLast?]
      cases hget : buffer.getLast? with
      | none => exact UInt8.zero_and
      | some last => exact hbuffer last hget
    obtain ⟨first, rest, hout, hhigh, -⟩ := decode_encoded hdigits value hlast []
    refine ⟨first, rest, (encode_eq _ _ _).trans (congrArg _ hout), hhigh, fun post => ?_⟩
    obtain ⟨first', rest', hout', -, hdecode⟩ := decode_encoded hdigits value hlast post
    obtain ⟨rfl, rfl⟩ := List.cons.inj (hout.symm.trans hout')
    exact hdecode
  · intro bytes hbytes
    obtain ⟨first, rest, rfl⟩ := List.exists_cons_of_ne_nil hbytes
    obtain ⟨result, value, hdecode, hexact, hfail⟩ :=
      @decode_cases digits bitsOffset hdigits first rest
    refine ⟨result, value, hdecode, ?_, fun n size hnumber hover => ?_⟩
    · by_cases hneg : result < 0
      · exact .inl hneg
      · exact .inr (hexact (not_lt.mp hneg))
    · by_cases hneg : result < 0
      · exact hfail hneg ⟨n, size, hnumber⟩
      · obtain ⟨size', -, hvalue⟩ := hexact (not_lt.mp hneg)
        rw [hnumber] at hvalue
        cases hvalue
        exact absurd value.isLt (not_lt.mpr hover)

/-- The number 1337 behind three high bits. -/
theorem prefix_integer_1337 : ∃ first rest, encode 1337 [0x60] 3 = first :: rest ∧
    first &&& ~~~prefixMask 3 = 0x60 ∧
    decode 16 (first :: rest) 3 = some (((first :: rest).length : ℤ), 1337) := by
  have hbuffer : ∀ last ∈ [(0x60 : UInt8)].getLast?, last &&& prefixMask 3 = 0 := by
    rintro last hlast
    obtain rfl : 0x60 = last := Option.some.inj hlast
    decide
  obtain ⟨first, rest, hout, hhigh, hdecode⟩ :=
    (prefix_integer 16 (by decide) 3).1 1337 [0x60] hbuffer
  have hwhole := hdecode []
  rw [List.append_nil] at hwhole
  exact ⟨first, rest, hout, hhigh.trans (by decide), hwhole⟩

end NekoProto
