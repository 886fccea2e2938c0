import NekoProto.Types.Base64Strict
import NekoProto.Lib.Segment

/-!
# The Base64 encoder

`Base64Covert::Encode` of `types/binary_data.hpp`, and what the decoder makes of its output.

1. The encoder fills its buffer with the digits of each group of three bytes and of the tail, and
   leaves the signs `'='` of the resize behind them (`encode_eq`).
2. The digits of a group, and of the tail, give its bytes back. The decoder takes the signs off,
   and its buffer is as long as what was encoded (`decode_encode`).
-/

namespace NekoProto.Base64Covert

open Binary (Bytes)
open Segment

/-! ## The encoder -/

/-- `bufptr[offset] = table[index]`. -/
def writeDigit (buf : Bytes) (bufptr : ℕ) (index : UInt8) : Except Stop Bytes := do
  let ch ← readAt table index.toNat
  writeAt buf bufptr ch

/-- The loop over the groups of three bytes. -/
def encodeGroups (data : Bytes) : ℕ → ℕ → ℕ → Bytes → Except Stop Cursor
  | datalen + 3, cptr, bufptr, buf => do
    let a ← readAt data cptr
    let b ← readAt data (cptr + 1)
    let c ← readAt data (cptr + 2)
    let buf ← writeDigit buf bufptr (a >>> 2 &&& 0x3F)
    let buf ← writeDigit buf (bufptr + 1) ((a <<< 4 ||| b >>> 4) &&& 0x3F)
    let buf ← writeDigit buf (bufptr + 2) ((b <<< 2 ||| c >>> 6) &&& 0x3F)
    let buf ← writeDigit buf (bufptr + 3) (c &&& 0x3F)
    encodeGroups data datalen (cptr + 3) (bufptr + 4) buf
  | datalen, cptr, bufptr, buf => .ok ⟨datalen, cptr, bufptr, buf⟩

/-- The tail: the output and the offset behind it. -/
def encodeTail (data : Bytes) (cursor : Cursor) : Except Stop (Bytes × ℕ) :=
  if cursor.datalen = 2 then do
    let a ← readAt data cursor.cptr
    let b ← readAt data (cursor.cptr + 1)
    let buf ← writeDigit cursor.buf cursor.bufptr (a >>> 2 &&& 0x3F)
    let buf ← writeDigit buf (cursor.bufptr + 1) ((a <<< 4 ||| b >>> 4) &&& 0x3F)
    let buf ← writeDigit buf (cursor.bufptr + 2) ((b &&& 0x0F) <<< 2)
    pure (buf, cursor.bufptr + 4)
  else if cursor.datalen = 1 then do
    let a ← readAt data cursor.cptr
    let buf ← writeDigit cursor.buf cursor.bufptr (a >>> 2 &&& 0x3F)
    let buf ← writeDigit buf (cursor.bufptr + 1) (a <<< 4 &&& 0x3F)
    pure (buf, cursor.bufptr + 4)
  else pure (cursor.buf, cursor.bufptr)

/-- `Encode`, with the output buffer that it is given. -/
def encode (checked : Bool) (data buf : Bytes) : Except Stop Bytes := do
  let cursor ← encodeGroups data data.length 0 0 (resize buf ((data.length + 2) / 3 * 4))
  let (buf, bufptr) ← encodeTail data cursor
  let _ ← assert checked (bufptr = buf.length)
  pure buf

/-- `Encode`, which returns its output: it starts with an empty buffer. (`resize` fills with `'='`
what it adds only, so that in a buffer that has bytes these stay in the place of the padding.) -/
def encodeVector (checked : Bool) (data : Bytes) : Except Stop Bytes := encode checked data []

/-! ## Digits -/

/-- The digit of an index into `table`. -/
def charOf (index : UInt8) : UInt8 := table.getD index.toNat 0

/-- The digits of some bytes, without the padding. -/
def digits : Bytes → Bytes
  | a :: b :: c :: rest =>
    charOf (a >>> 2 &&& 0x3F) :: charOf ((a <<< 4 ||| b >>> 4) &&& 0x3F) ::
      charOf ((b <<< 2 ||| c >>> 6) &&& 0x3F) :: charOf (c &&& 0x3F) :: digits rest
  | [a, b] =>
    [charOf (a >>> 2 &&& 0x3F), charOf ((a <<< 4 ||| b >>> 4) &&& 0x3F),
      charOf ((b &&& 0x0F) <<< 2)]
  | [a] => [charOf (a >>> 2 &&& 0x3F), charOf (a <<< 4 &&& 0x3F)]
  | [] => []

/-- The signs `'='` that follow the digits. -/
def paddingOf (data : Bytes) : ℕ := (3 - data.length % 3) % 3

theorem and_lt {index mask : UInt8} (h : mask.toNat < 64) : (index &&& mask).toNat < 64 := by
  rw [UInt8.toNat_and]
  exact lt_of_le_of_lt Nat.and_le_right h

theorem low_lt (b : UInt8) : ((b &&& 0x0F) <<< 2).toNat < 64 := by
  have h : (b &&& 0x0F).toNat ≤ 15 := by
    rw [UInt8.toNat_and]
    exact Nat.and_le_right
  rw [UInt8.toNat_shiftLeft, Nat.shiftLeft_eq]
  have : (2 : UInt8).toNat % 8 = 2 := rfl
  rw [this]
  omega

theorem table_digit : ∀ n < 64, table[n]? = some (charOf (UInt8.ofNat n)) ∧
    (table ++ [0]).idxOf? (charOf (UInt8.ofNat n)) = some n := by
  decide +kernel

section

variable {null : UInt8} {data buf done room : Bytes} {cptr bufptr : ℕ} {index a b c : UInt8}

theorem readAt_table (h : index.toNat < 64) : readAt table index.toNat = .ok (charOf index) := by
  unfold readAt
  rw [(table_digit _ h).1, UInt8.ofNat_toNat]

theorem charOf_mem (h : index.toNat < 64) : charOf index ∈ table := by
  have hat := (table_digit _ h).1
  rw [UInt8.ofNat_toNat] at hat
  exact List.mem_of_getElem? hat

/-- Each digit is found in the table. -/
theorem queryTable_charOf (h : index.toNat < 64) : queryTable null (charOf index) = index := by
  have hat := (table_digit _ h).2
  rw [UInt8.ofNat_toNat] at hat
  unfold queryTable
  rw [hat]
  exact UInt8.ofNat_toNat

theorem digits_mem (data : Bytes) : ∀ ch ∈ digits data, ch ∈ table := by
  induction data using digits.induct with
  | case1 a b c rest ih =>
    intro ch hch
    simp only [digits, List.mem_cons] at hch
    obtain rfl | rfl | rfl | rfl | hch := hch
    · exact charOf_mem (and_lt (by decide))
    · exact charOf_mem (and_lt (by decide))
    · exact charOf_mem (and_lt (by decide))
    · exact charOf_mem (and_lt (by decide))
    · exact ih ch hch
  | case2 a b =>
    intro ch hch
    simp only [digits, List.mem_cons, List.not_mem_nil, or_false] at hch
    obtain rfl | rfl | rfl := hch
    · exact charOf_mem (and_lt (by decide))
    · exact charOf_mem (and_lt (by decide))
    · exact charOf_mem (low_lt b)
  | case3 a =>
    intro ch hch
    simp only [digits, List.mem_cons, List.not_mem_nil, or_false] at hch
    obtain rfl | rfl := hch
    · exact charOf_mem (and_lt (by decide))
    · exact charOf_mem (and_lt (by decide))
  | case4 =>
    intro ch hch
    exact absurd hch List.not_mem_nil

theorem length_digits (data : Bytes) :
    (digits data).length + paddingOf data = (data.length + 2) / 3 * 4 := by
  induction data using digits.induct with
  | case1 a b c rest ih =>
    unfold paddingOf at ih ⊢
    simp only [digits, List.length_cons]
    omega
  | case2 a b => simp [digits, paddingOf]
  | case3 a => simp [digits, paddingOf]
  | case4 => simp [digits, paddingOf]

/-! ## Encoding -/

theorem writeAt_next {old new : UInt8} :
    writeAt (done ++ old :: room) done.length new = .ok (done ++ new :: room) := by
  rw [writeAt_ok (by rw [List.length_append, List.length_cons]; omega),
    List.set_append_right _ _ (le_refl _), Nat.sub_self]
  rfl

/-- A digit that is written behind what is written already. -/
theorem writeDigit_next {old : UInt8} (h : index.toNat < 64) (hptr : bufptr = done.length) :
    writeDigit (done ++ old :: room) bufptr index = .ok (done ++ [charOf index] ++ room) := by
  unfold writeDigit
  rw [readAt_table h, hptr, ok_bind, writeAt_next, List.append_assoc]
  rfl

theorem readAt_ok {ch : UInt8} (h : data[cptr]? = some ch) : readAt data cptr = .ok ch := by
  unfold readAt
  rw [h]

/-- A group of three bytes that stands at `cptr`. -/
theorem encodeGroups_group {datalen : ℕ} {w x y z : UInt8} (ha : data[cptr]? = some a)
    (hb : data[cptr + 1]? = some b) (hc : data[cptr + 2]? = some c) (hptr : bufptr = done.length) :
    encodeGroups data (datalen + 3) cptr bufptr (done ++ w :: x :: y :: z :: room) =
      encodeGroups data datalen (cptr + 3) (bufptr + 4)
        (done ++ [charOf (a >>> 2 &&& 0x3F)] ++ [charOf ((a <<< 4 ||| b >>> 4) &&& 0x3F)] ++
          [charOf ((b <<< 2 ||| c >>> 6) &&& 0x3F)] ++ [charOf (c &&& 0x3F)] ++ room) := by
  conv_lhs => unfold encodeGroups
  rw [readAt_ok ha, ok_bind, readAt_ok hb, ok_bind, readAt_ok hc, ok_bind,
    writeDigit_next (and_lt (by decide)) hptr, ok_bind,
    writeDigit_next (and_lt (by decide)) (by simp [hptr]), ok_bind,
    writeDigit_next (and_lt (by decide)) (by simp [hptr]), ok_bind,
    writeDigit_next (and_lt (by decide)) (by simp [hptr]), ok_bind]

/-- The digits of the bytes at `cptr` go behind what is written, and the padding stays. -/
theorem encode_digits (plain : Bytes) : ∀ {cptr bufptr : ℕ} {done : Bytes}, At data cptr plain →
    bufptr = done.length → ∃ cursor,
      encodeGroups data plain.length cptr bufptr
        (done ++ List.replicate ((plain.length + 2) / 3 * 4) equalsSign) = .ok cursor ∧
      encodeTail data cursor =
        .ok (done ++ digits plain ++ List.replicate (paddingOf plain) equalsSign,
          bufptr + (plain.length + 2) / 3 * 4) := by
  induction plain using digits.induct with
  | case1 a b c rest ih =>
    intro cptr bufptr done hat hptr
    simp only [at_cons] at hat
    obtain ⟨ha, hb, hc, hrest⟩ := hat
    have hroom : ((a :: b :: c :: rest).length + 2) / 3 * 4 = (rest.length + 2) / 3 * 4 + 4 := by
      simp only [List.length_cons]
      omega
    have hpadding : paddingOf (a :: b :: c :: rest) = paddingOf rest := by
      unfold paddingOf
      simp only [List.length_cons]
      omega
    rw [hroom, hpadding]
    simp only [List.replicate_succ, List.length_cons]
    rw [encodeGroups_group ha hb hc hptr]
    obtain ⟨cursor, hgroups, htail⟩ := ih hrest
      (show bufptr + 4 = (done ++ [charOf (a >>> 2 &&& 0x3F)] ++
        [charOf ((a <<< 4 ||| b >>> 4) &&& 0x3F)] ++ [charOf ((b <<< 2 ||| c >>> 6) &&& 0x3F)] ++
        [charOf (c &&& 0x3F)]).length by simp [hptr])
    refine ⟨cursor, hgroups, htail.trans ?_⟩
    rw [show bufptr + 4 + (rest.length + 2) / 3 * 4 = bufptr + ((rest.length + 2) / 3 * 4 + 4) by
      omega]
    simp [digits]
  | case2 a b =>
    intro cptr bufptr done hat hptr
    simp only [at_cons] at hat
    refine ⟨⟨2, cptr, bufptr, done ++ List.replicate 4 equalsSign⟩, by simp [encodeGroups], ?_⟩
    unfold encodeTail
    simp only [List.replicate_succ, if_true]
    rw [readAt_ok hat.1, ok_bind, readAt_ok hat.2.1, ok_bind,
      writeDigit_next (and_lt (by decide)) hptr, ok_bind,
      writeDigit_next (and_lt (by decide)) (by simp [hptr]), ok_bind,
      writeDigit_next (low_lt b) (by simp [hptr]), ok_bind]
    simp [digits, paddingOf]
    rfl
  | case3 a =>
    intro cptr bufptr done hat hptr
    simp only [at_cons] at hat
    refine ⟨⟨1, cptr, bufptr, done ++ List.replicate 4 equalsSign⟩, by simp [encodeGroups], ?_⟩
    unfold encodeTail
    simp only [List.replicate_succ, if_true]
    rw [if_neg (by decide), readAt_ok hat.1, ok_bind,
      writeDigit_next (and_lt (by decide)) hptr, ok_bind,
      writeDigit_next (and_lt (by decide)) (by simp [hptr]), ok_bind]
    simp [digits, paddingOf]
    rfl
  | case4 =>
    intro cptr bufptr done hat hptr
    refine ⟨⟨0, cptr, bufptr, done⟩, by simp [encodeGroups], ?_⟩
    simp [encodeTail, digits, paddingOf]
    rfl

/-- **Encoding** never fails: it gives the digits and the padding. -/
theorem encodeVector_eq (checked : Bool) (data : Bytes) :
    encodeVector checked data =
      .ok (digits data ++ List.replicate (paddingOf data) equalsSign) := by
  obtain ⟨cursor, hgroups, htail⟩ :=
    @encode_digits data data 0 0 [] (by exact List.prefix_rfl) rfl
  unfold encodeVector encode resize
  rw [List.take_nil, List.length_nil, Nat.sub_zero, hgroups, ok_bind, htail, ok_bind]
  have hlength := length_digits data
  simp only
  rw [assert_ok, ok_bind]
  · rfl
  · simp only [List.nil_append, List.length_append, List.length_replicate]
    omega

/-! ## Decoding -/

/-- Bytes with the same bits are the same. -/
theorem eq_of_bits {x y : UInt8} (h : ∀ i < 8, x.toBitVec.getLsbD i = y.toBitVec.getLsbD i) :
    x = y :=
  UInt8.toBitVec_inj.mp (BitVec.eq_of_getLsbD_eq h)

theorem first_byte (a b : UInt8) :
    (a >>> 2 &&& 0x3F) <<< 2 ||| ((a <<< 4 ||| b >>> 4) &&& 0x3F) >>> 4 = a := by
  apply eq_of_bits
  intro i hi
  interval_cases i <;> simp

theorem second_byte (a b c : UInt8) :
    ((a <<< 4 ||| b >>> 4) &&& 0x3F) <<< 4 ||| ((b <<< 2 ||| c >>> 6) &&& 0x3F) >>> 2 = b := by
  apply eq_of_bits
  intro i hi
  interval_cases i <;> simp

theorem third_byte (b c : UInt8) :
    ((b <<< 2 ||| c >>> 6) &&& 0x3F) <<< 6 ||| (c &&& 0x3F) = c := by
  apply eq_of_bits
  intro i hi
  interval_cases i <;> simp

/-- In the tail the missing byte is 0. -/
theorem second_digit (a : UInt8) :
    a <<< 4 &&& (0x3F : UInt8) = (a <<< 4 ||| (0 : UInt8) >>> 4) &&& 0x3F := by
  apply eq_of_bits
  intro i hi
  interval_cases i <;> simp

theorem third_digit (b : UInt8) :
    (b &&& 0x0F) <<< 2 = (b <<< 2 ||| (0 : UInt8) >>> 6) &&& 0x3F := by
  apply eq_of_bits
  intro i hi
  interval_cases i <;> simp

theorem digit_charOf (hindex : index.toNat < 64) (h : data[cptr]? = some (charOf index)) :
    digit null data cptr = .ok index := by
  unfold digit
  rw [readAt_ok h, ok_bind, queryTable_charOf hindex]
  rfl

theorem storeGroup_next {x y z d : UInt8} (hptr : bufptr = done.length) :
    storeGroup (done ++ x :: y :: z :: room) bufptr a b c d =
      done ++ [a <<< 2 ||| b >>> 4] ++ [b <<< 4 ||| c >>> 2] ++ [c <<< 6 ||| d] ++ room := by
  unfold storeGroup
  rw [hptr, List.set_append_right _ _ (le_refl _), List.set_append_right _ _ (by omega),
    List.set_append_right _ _ (by omega)]
  simp

theorem writeAt_append {old new : UInt8} (hptr : bufptr = done.length) :
    writeAt (done ++ old :: room) bufptr new = .ok (done ++ [new] ++ room) := by
  rw [hptr, writeAt_next, List.append_assoc]
  rfl

/-- The digits at `cptr` give their bytes back, behind what is decoded. -/
theorem decode_digits (plain : Bytes) : ∀ {cptr bufptr : ℕ} {done room : Bytes},
    At data cptr (digits plain) → bufptr = done.length → room.length = plain.length →
    ∃ cursor, decodeGroups null data (digits plain).length cptr bufptr (done ++ room) =
        .ok cursor ∧
      cursor.datalen ≠ 1 ∧
      decodeTail null data cursor = .ok (done ++ plain, bufptr + plain.length) := by
  induction plain using digits.induct with
  | case1 a b c rest ih =>
    intro cptr bufptr done room hat hptr hroom
    obtain ⟨x, room, rfl⟩ := List.exists_cons_of_length_eq_add_one hroom
    obtain ⟨y, room, rfl⟩ := List.exists_cons_of_length_eq_add_one (Nat.succ.inj hroom)
    obtain ⟨z, room, rfl⟩ :=
      List.exists_cons_of_length_eq_add_one (Nat.succ.inj (Nat.succ.inj hroom))
    simp only [digits, at_cons] at hat
    obtain ⟨ha, hb, hc, hd, hrest⟩ := hat
    simp only [digits, List.length_cons] at hroom ⊢
    rw [decodeGroups_group (digit_charOf (and_lt (by decide)) ha)
      (digit_charOf (and_lt (by decide)) hb) (digit_charOf (and_lt (by decide)) hc)
      (digit_charOf (and_lt (by decide)) hd)
      (by simp only [List.length_append, List.length_cons]; omega), storeGroup_next hptr,
      first_byte, second_byte, third_byte]
    obtain ⟨cursor, hgroups, hone, htail⟩ := @ih (cptr + 4) (bufptr + 3)
      (done ++ [a] ++ [b] ++ [c]) room hrest (by simp [hptr]) (by omega)
    refine ⟨cursor, hgroups, hone, htail.trans ?_⟩
    rw [show bufptr + 3 + rest.length = bufptr + (rest.length + 1 + 1 + 1) by omega]
    simp
  | case2 a b =>
    intro cptr bufptr done room hat hptr hroom
    obtain ⟨x, y, rfl⟩ := List.length_eq_two.mp hroom
    simp only [digits, at_cons] at hat
    obtain ⟨ha, hb, hc, -⟩ := hat
    refine ⟨⟨3, cptr, bufptr, done ++ [x, y]⟩, by simp [digits, decodeGroups],
      (by decide : 3 ≠ 1), ?_⟩
    unfold decodeTail
    simp only
    rw [if_neg (by decide), if_pos trivial, digit_charOf (and_lt (by decide)) ha, ok_bind,
      digit_charOf (and_lt (by decide)) hb, ok_bind, digit_charOf (low_lt b) hc, ok_bind,
      writeAt_append hptr, ok_bind, writeAt_append (by simp [hptr]), ok_bind, first_byte,
      third_digit, second_byte]
    simp
    rfl
  | case3 a =>
    intro cptr bufptr done room hat hptr hroom
    obtain ⟨x, rfl⟩ := List.length_eq_one_iff.mp hroom
    simp only [digits, at_cons] at hat
    obtain ⟨ha, hb, -⟩ := hat
    refine ⟨⟨2, cptr, bufptr, done ++ [x]⟩, by simp [digits, decodeGroups],
      (by decide : 2 ≠ 1), ?_⟩
    unfold decodeTail
    simp only
    rw [if_pos trivial, digit_charOf (and_lt (by decide)) ha, ok_bind,
      digit_charOf (and_lt (by decide)) hb, ok_bind, writeAt_append hptr, ok_bind, second_digit,
      first_byte]
    simp
    rfl
  | case4 =>
    intro cptr bufptr done room hat hptr hroom
    refine ⟨⟨0, cptr, bufptr, done ++ room⟩, by simp [digits, decodeGroups],
      (by decide : 0 ≠ 1), ?_⟩
    rw [List.length_eq_zero_iff.mp hroom]
    simp [decodeTail]
    rfl

theorem digits_padded (data : Bytes) :
    Padded (digits data ++ List.replicate (paddingOf data) equalsSign) (digits data)
      (paddingOf data) := by
  refine ⟨rfl, ?_⟩
  rintro ch hch rfl
  exact equalsSign_notMem_table (digits_mem data _ (List.mem_of_getLast? hch))

theorem digits_ne_nil (h : data ≠ []) : digits data ≠ [] := by
  intro hnil
  have hlength := length_digits data
  have hpos : 0 < data.length := List.length_pos_iff.mpr h
  rw [hnil, List.length_nil] at hlength
  unfold paddingOf at hlength
  omega

/-- The decoder's buffer is as long as what was encoded. -/
theorem decodeBody_digits {checked : Bool} {plain : Bytes} (hat : At data 0 (digits plain)) :
    decodeBody null checked data buf (digits plain).length plain.length = .ok (true, plain) := by
  obtain ⟨cursor, hgroups, hone, htail⟩ :=
    @decode_digits null data plain 0 0 [] (resize buf plain.length) hat rfl length_resize
  unfold decodeBody
  rw [if_neg (Int.not_lt.mpr (Int.natCast_nonneg _)), Int.toNat_natCast]
  change (decodeGroups null data (digits plain).length 0 0 (resize buf plain.length) >>= _) = _
  rw [List.nil_append] at hgroups
  rw [hgroups, ok_bind, assert_ok hone, ok_bind, htail, ok_bind]
  simp only [List.nil_append, Nat.zero_add]
  rw [assert_ok trivial, ok_bind]
  rfl

end

/-- **Round trip.** Every byte string shorter than `2 ^ 30` bytes is encoded, and the decoder
accepts what came out and gives the string back, whatever its buffer held. -/
theorem decode_encode (null : UInt8) (checked logged : Bool) (data : Bytes)
    (hdata : data.length < 2 ^ 30) :
    ∃ text, encodeVector checked data = .ok text ∧
      ∀ behind buf, decode null checked logged behind text buf = .ok (true, data) := by
  refine ⟨_, encodeVector_eq checked data, fun behind buf => ?_⟩
  have hlength := length_digits data
  have htext : (digits data ++ List.replicate (paddingOf data) equalsSign).length =
      (data.length + 2) / 3 * 4 := by
    rw [List.length_append, List.length_replicate, hlength]
  by_cases hnil : data = []
  · subst hnil
    rfl
  have hlen : (((digits data ++ List.replicate (paddingOf data) equalsSign).length / 4 * 3 : ℕ) -
      paddingOf data : ℤ) = data.length := by
    rw [htext]
    unfold paddingOf
    omega
  rw [decode_eq_decodeBody (digits_padded data) (by omega) (digits_ne_nil hnil) (by omega), hlen]
  exact decodeBody_digits (by exact List.prefix_append _ _)

/-- The bytes of `"Ma"` in a build that checks its assertions and logs. -/
theorem decode_encode_ma : ∃ text, encodeVector true [0x4D, 0x61] = .ok text ∧
    ∀ behind buf, decode 0 true true behind text buf = .ok (true, [0x4D, 0x61]) :=
  decode_encode 0 true true [0x4D, 0x61] (by decide)

end NekoProto.Base64Covert
