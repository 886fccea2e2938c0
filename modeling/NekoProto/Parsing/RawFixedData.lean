import NekoProto.Communication.Header
import NekoProto.Parsing.Headerless
import Mathlib.Tactic.Common
import Mathlib.Algebra.Order.Ring.Nat

/-!
# Raw fixed records

A class under the tag `raw_fixed_data`, whose fields are arithmetic or enumerations with their
exact width (`RawField`), is written as the bytes of its fields and nothing else.

1. Which bytes are those of values: any of the right length, but for those of a `bool`
   (`exists_rawBytes`), and of one value only (`rawBytes_injective`).
2. Reading from a raw handle, one arithmetic value, one field, all fields: either the bytes at the
   offset are those of a value, which is returned, or the read is an error (`readRawFields_spec`).
3. The whole document has to be used up, so the documents that are read are the encodings
   (`read_raw`). The header is not looked at.
-/

namespace NekoProto.Parsing

open Binary Binary.Reader Outcome Communication

/-! ## Records -/

/-- The types of the fields of a raw record. -/
inductive RawTy
  | arithmetic (T : Arithmetic)
  | enumeration (signed : Bool) (width : Width) (names : List (Bytes × BitVec width.bits))

namespace RawTy

/-- The type of the field. -/
def ty : RawTy → Ty
  | arithmetic T => .arithmetic T
  | enumeration signed width names => .enumeration signed width names

/-- The type on the wire: an enumeration is written as its underlying type. -/
def wire : RawTy → Arithmetic
  | arithmetic T => T
  | enumeration signed width _ => .integer signed width

/-- The bytes of a value. -/
def bytes : (R : RawTy) → R.ty.Value → Bytes
  | arithmetic T, value => T.bytes value
  | enumeration signed width _, value => (Arithmetic.integer signed width).bytes value

end RawTy

/-- A field of a raw record, tagged with its exact width. -/
structure RawField where
  name : Bytes
  tags : Tags
  type : RawTy
  notIgnored : tags.ignore = false
  width : tags.fixedLengthOf type.wire = some type.wire.size

theorem RawField.isSome_fixedLength (field : RawField) :
    ¬field.tags.fixedLength.isNone = true := by
  intro hnone
  have h := field.width
  rw [Tags.fixedLengthOf, Option.isNone_iff_eq_none.mp hnone] at h
  exact absurd h (by simp)

/-- The fields as those of a reflected class. -/
def rawFields : List RawField → Fields
  | [] => .nil
  | field :: fields => .cons field.name field.tags field.type.ty (rawFields fields)

/-- The encoding: the bytes of the fields. -/
def rawBytes : (fields : List RawField) → (rawFields fields).Values → Bytes
  | [], _ => []
  | field :: fields, (value, values) => field.type.bytes value ++ rawBytes fields values

/-- The sum of the widths. -/
def rawSize (fields : List RawField) : ℕ := (fields.map (·.type.wire.size)).sum

/-- The bytes at the `bool` fields are 0 or 1. -/
def BoolsValid : List RawField → Bytes → Prop
  | [], _ => True
  | field :: fields, bytes =>
    (field.type.wire = .bool → bytes.head? = some 0 ∨ bytes.head? = some 1) ∧
      BoolsValid fields (bytes.drop field.type.wire.size)

/-! ## The bytes of a value -/

theorem length_arithmeticBytes (T : Arithmetic) (value : T.Value) :
    (T.bytes value).length = T.size := by
  cases T with
  | bool => rfl
  | integer signed width => exact BigEndian.length_toBytes _ _
  | float => exact BigEndian.length_toBytes _ _
  | double => exact BigEndian.length_toBytes _ _

theorem size_pos (T : Arithmetic) : 0 < T.size := by
  cases T with
  | bool => exact Nat.one_pos
  | integer signed width => exact (by cases width <;> decide : 0 < width.bytes)
  | float => decide
  | double => decide

/-- The number in some bytes has these bytes. -/
theorem toBytes_ofNat {n size : ℕ} (hn : 2 ^ n = 256 ^ size) {chunk : Bytes}
    (hchunk : chunk.length = size) :
    BigEndian.toBytes size (BitVec.ofNat n (BigEndian.ofBytes chunk)).toNat = chunk := by
  subst hchunk
  have hlt := BigEndian.ofBytes_lt chunk
  rw [BitVec.toNat_ofNat, hn, Nat.mod_eq_of_lt hlt, BigEndian.toBytes_ofBytes]

theorem width_pow (width : Width) : 2 ^ width.bits = 256 ^ width.bytes := by
  cases width <;> norm_num [Width.bits, Width.bytes]

/-- **The bytes of the values of a type** are those of its size, for a `bool` the bytes 0 and 1. -/
theorem exists_bytes {T : Arithmetic} {chunk : Bytes} :
    (∃ value, chunk = T.bytes value) ↔
      chunk.length = T.size ∧ (T = .bool → chunk.head? = some 0 ∨ chunk.head? = some 1) := by
  constructor
  · rintro ⟨value, rfl⟩
    refine ⟨length_arithmeticBytes T value, ?_⟩
    rintro rfl
    cases value with
    | false => exact .inl rfl
    | true => exact .inr rfl
  · rintro ⟨hlength, hbool⟩
    cases T with
    | bool =>
      obtain ⟨byte, rfl⟩ := List.length_eq_one_iff.mp hlength
      obtain hbyte | hbyte := hbool rfl
      · exact ⟨false, by rw [Option.some.inj hbyte]; rfl⟩
      · exact ⟨true, by rw [Option.some.inj hbyte]; rfl⟩
    | integer signed width => exact ⟨_, (toBytes_ofNat (width_pow width) hlength).symm⟩
    | float => exact ⟨_, (@toBytes_ofNat 32 4 (by norm_num) _ hlength).symm⟩
    | double => exact ⟨_, (@toBytes_ofNat 64 8 (by norm_num) _ hlength).symm⟩

theorem exists_fieldBytes {R : RawTy} {chunk : Bytes} :
    (∃ value, chunk = R.bytes value) ↔
      chunk.length = R.wire.size ∧
        (R.wire = .bool → chunk.head? = some 0 ∨ chunk.head? = some 1) := by
  cases R with
  | arithmetic T => exact exists_bytes
  | enumeration signed width names => exact @exists_bytes (.integer signed width) chunk

theorem length_fieldBytes (R : RawTy) (value : R.ty.Value) :
    (R.bytes value).length = R.wire.size :=
  (exists_fieldBytes.mp ⟨value, rfl⟩).1

theorem length_rawBytes (fields : List RawField) (values : (rawFields fields).Values) :
    (rawBytes fields values).length = rawSize fields := by
  induction fields with
  | nil => rfl
  | cons field fields ih =>
    obtain ⟨value, values⟩ := values
    rw [rawBytes, List.length_append, length_fieldBytes, ih]
    rfl

/-- **The encodings** are the buffers of the right length whose `bool` bytes are 0 or 1. -/
theorem exists_rawBytes (fields : List RawField) (bytes : Bytes) :
    (∃ values, bytes = rawBytes fields values) ↔
      bytes.length = rawSize fields ∧ BoolsValid fields bytes := by
  induction fields generalizing bytes with
  | nil =>
    constructor
    · rintro ⟨values, rfl⟩
      exact ⟨rfl, trivial⟩
    · rintro ⟨hlength, -⟩
      exact ⟨(), List.length_eq_zero_iff.mp hlength⟩
  | cons field fields ih =>
    have hpos := size_pos field.type.wire
    constructor
    · rintro ⟨⟨value, values⟩, rfl⟩
      refine ⟨length_rawBytes _ _, ?_, ?_⟩
      · intro hbool
        have hhead := (exists_fieldBytes.mp ⟨value, rfl⟩).2 hbool
        have hne : field.type.bytes value ≠ [] := by
          rw [← List.length_pos_iff, length_fieldBytes]
          exact hpos
        rw [rawBytes, List.head?_append_of_ne_nil _ hne]
        exact hhead
      · rw [rawBytes, List.drop_left' (length_fieldBytes field.type value)]
        exact ((ih _).mp ⟨values, rfl⟩).2
    · rintro ⟨hlength, hbool, hrest⟩
      have hsize : rawSize (field :: fields) = field.type.wire.size + rawSize fields := rfl
      rw [hsize] at hlength
      obtain ⟨value, hvalue⟩ := exists_fieldBytes.mpr
        (show (bytes.take field.type.wire.size).length = field.type.wire.size ∧ _ from
          ⟨by rw [List.length_take]; omega, fun heq => by
            rw [List.head?_take, if_neg (Nat.ne_of_gt hpos)]
            exact hbool heq⟩)
      obtain ⟨values, hvalues⟩ := (ih (bytes.drop field.type.wire.size)).mpr
        ⟨by rw [List.length_drop]; omega, hrest⟩
      refine ⟨(value, values), ?_⟩
      rw [rawBytes, ← hvalue, ← hvalues, List.take_append_drop]

theorem bytes_injective (T : Arithmetic) {value value' : T.Value}
    (h : T.bytes value = T.bytes value') : value = value' := by
  have hnumber : ∀ {n size : ℕ} {x y : BitVec n}, 2 ^ n = 256 ^ size →
      BigEndian.toBytes size x.toNat = BigEndian.toBytes size y.toNat → x = y := by
    intro n size x y hn heq
    have hx : x.toNat < 256 ^ size := hn ▸ x.isLt
    have hy : y.toNat < 256 ^ size := hn ▸ y.isLt
    have hnat := congrArg BigEndian.ofBytes heq
    rw [BigEndian.ofBytes_toBytes_of_lt hx, BigEndian.ofBytes_toBytes_of_lt hy] at hnat
    exact BitVec.eq_of_toNat_eq hnat
  cases T with
  | bool => cases value <;> cases value' <;> simp_all [Arithmetic.bytes]
  | integer signed width => exact hnumber (width_pow width) h
  | float => exact hnumber (by norm_num) h
  | double => exact hnumber (by norm_num) h

/-- **An encoding is that of one value.** -/
theorem rawBytes_injective (fields : List RawField) {values values' : (rawFields fields).Values}
    (h : rawBytes fields values = rawBytes fields values') : values = values' := by
  induction fields with
  | nil => rfl
  | cons field fields ih =>
    obtain ⟨value, values⟩ := values
    obtain ⟨value', values'⟩ := values'
    obtain ⟨hvalue, hvalues⟩ := List.append_inj h
      ((length_fieldBytes field.type value).trans (length_fieldBytes field.type value').symm)
    refine congrArg₂ Prod.mk ?_ (ih hvalues)
    obtain ⟨name, tags, type, hignored, hwidth⟩ := field
    cases type with
    | arithmetic T => exact bytes_injective T hvalue
    | enumeration signed width names => exact @bytes_injective (.integer signed width) _ _ hvalue

/-! ## Errors -/

/-- From `s` the read is an error. -/
def Fails {α : Type} (x : ReadM α) (s : State) : Prop := ∃ e t, x s = .error (.error e) t

namespace Fails

variable {α β : Type} {x : ReadM α} {f : α → ReadM β} {s t : State} {a : α}

theorem fail {code : ErrorCode} {message : String} :
    Fails (Binary.fail code message : ReadM α) s := ⟨_, _, rfl⟩

theorem congr {y : ReadM α} (h : x s = y t) (hy : Fails y t) : Fails x s := by
  obtain ⟨e, u, hy⟩ := hy
  exact ⟨e, u, h.trans hy⟩

theorem bind (h : Fails x s) : Fails (x >>= f) s := by
  obtain ⟨e, t, h⟩ := h
  exact ⟨e, t, bind_error h⟩

theorem bind_of_returns (h : Returns x s a t) (hf : Fails (f a) t) : Fails (x >>= f) s :=
  congr (bind_ok h) hf

theorem context {text : String} (h : Fails x s) : Fails (context text x) s := by
  obtain ⟨e, t, h⟩ := h
  obtain ⟨e', h'⟩ : ∃ e', Parsing.context text x s = .error (.error e') t := context_error h
  exact ⟨e', t, h'⟩

end Fails

/-! ## Reading from a raw handle -/

section

variable {inp : Input} {p offset : ℕ} {s t : State}

/-- The handle of a raw value: behind the end of the input it carries an error. -/
def rawHandle (inp : Input) (p offset : ℕ) : InputValue :=
  .raw p (if inp.size ≤ offset then
    some ⟨.parseError, "Unexpected end of raw fixed binary data"⟩ else none)

theorem rawHandle_of_lt (h : offset < inp.size) : rawHandle inp p offset = .raw p none := by
  rw [rawHandle, if_neg (Nat.not_le.mpr h)]

/-- The bytes at the offset. -/
def chunkAt (inp : Input) (offset size : ℕ) : Bytes := (inp.data.drop offset).take size

theorem length_chunkAt {size : ℕ} (h : offset + size ≤ inp.size) :
    (chunkAt inp offset size).length = size := by
  have hsize : inp.size = inp.data.length := rfl
  rw [chunkAt, List.length_take, List.length_drop]
  omega

/-- A value that is too long for what is left. -/
theorem ne_bytes_of_short {T : Arithmetic} (h : inp.size < offset + T.size) (value : T.Value) :
    chunkAt inp offset T.size ≠ T.bytes value := by
  intro heq
  have hsize : inp.size = inp.data.length := rfl
  have hlength := congrArg List.length heq
  have hpos := size_pos T
  rw [length_arithmeticBytes, chunkAt, List.length_take, List.length_drop] at hlength
  omega

/-- What a read of these bytes does: it returns their value and stands behind them, or they are not
those of a value, and it is an error. -/
def ReadsBytes {α : Type} (bytes : α → Bytes) (inp : Input) (p offset size : ℕ) (x : ReadM α)
    (s : State) : Prop :=
  (∃ value, chunkAt inp offset size = bytes value ∧
    Returns x s value (readTo p (offset + size) s)) ∨
  ((∀ value, chunkAt inp offset size ≠ bytes value) ∧ Fails x s)

theorem requireRaw_short (hs : RawAt inp p offset s) (hle : offset ≤ inp.size) {T : Arithmetic}
    (h : inp.size < offset + T.size) : Fails (requireRaw inp T T.size) s := by
  unfold requireRaw
  refine Fails.bind_of_returns (returns_get.mpr ⟨rfl, rfl⟩) ?_
  rw [hs.offset, subSize_eq hle, pure_bind, if_pos (.inr (by omega))]
  exact Fails.fail

theorem requireRaw_at (hs : RawAt inp p offset s) {T : Arithmetic}
    (h : offset + T.size ≤ inp.size) : Returns (requireRaw inp T T.size) s () s := by
  unfold requireRaw
  rw [returns_get_bind, hs.offset, subSize_eq (by omega), pure_bind,
    if_neg (by simp only [ne_eq, not_true_eq_false, false_or]; omega)]
  exact returns_pure.mpr ⟨rfl, rfl⟩

theorem readRawBool_spec (hs : RawAt inp p offset s) (h : offset + 1 ≤ inp.size) :
    ReadsBytes Arithmetic.bool.bytes inp p offset 1 (readRawBool inp (.raw p none)) s := by
  have hsize : offset + 1 < 2 ^ 64 := Nat.lt_of_le_of_lt h inp.size_lt
  have hsome : ∃ byte, inp.data[offset]? = some byte := exists_byte h (le_refl _)
  obtain ⟨byte, hbyte⟩ := hsome
  have hchunk : chunkAt inp offset 1 = [byte] := by
    obtain ⟨hlt, hget⟩ := List.getElem?_eq_some_iff.mp hbyte
    rw [chunkAt, List.take_one_drop_eq_of_lt_length hlt]
    exact congrArg (fun b => [b]) hget
  have hrun : readRawBool inp (.raw p none) s = (do
      consumeRaw (.raw p none) (offset + 1)
      if 1 < byte then fail .parseError "Raw binary bool must be 0 or 1"
      else pure (byte != 0)) s := by
    unfold readRawBool
    rw [get_bind_apply, hs.offset, byteAt_eq hbyte, pure_bind, addSize_eq hsize, pure_bind]
  rw [bind_ok (consumeRaw_returns rfl)] at hrun
  unfold ReadsBytes
  rw [hchunk]
  by_cases hlt : 1 < byte
  · rw [if_pos hlt] at hrun
    refine .inr ⟨?_, _, _, hrun⟩
    intro value heq
    rw [List.head_eq_of_cons_eq heq] at hlt
    cases value <;> exact absurd hlt (by decide)
  · rw [if_neg hlt] at hrun
    refine .inl ⟨byte != 0, ?_, hrun⟩
    have hle : byte.toNat ≤ 1 := UInt8.le_iff_toNat_le.mp (UInt8.not_lt.mp hlt)
    obtain hzero | hone := Nat.le_one_iff_eq_zero_or_eq_one.mp hle
    · rw [show byte = 0 from UInt8.toNat_inj.mp hzero]
      rfl
    · rw [show byte = 1 from UInt8.toNat_inj.mp hone]
      rfl

/-- A number is any bytes. -/
theorem readRawBits_spec (hs : RawAt inp p offset s) {n size : ℕ} (hn : 2 ^ n = 256 ^ size)
    (h : offset + size ≤ inp.size) :
    ReadsBytes (fun value : BitVec n => BigEndian.toBytes size value.toNat) inp p offset size
      (readRawBits inp n (.raw p none) size) s :=
  .inl ⟨numberAt inp n offset size, (toBytes_ofNat hn (length_chunkAt h)).symm, hs.readRawBits h⟩

theorem ReadsBytes.after {α β : Type} {bytes : β → Bytes} {size : ℕ} {x : ReadM α}
    {f : α → ReadM β} {a : α} (h : Returns x s a s)
    (hf : ReadsBytes bytes inp p offset size (f a) s) :
    ReadsBytes bytes inp p offset size (x >>= f) s := by
  obtain ⟨value, hvalue, hreturns⟩ | ⟨hnone, hfails⟩ := hf
  · exact .inl ⟨value, hvalue, returns_bind.mpr ⟨a, s, h, hreturns⟩⟩
  · exact .inr ⟨hnone, hfails.bind_of_returns h⟩

theorem ReadsBytes.context {α : Type} {bytes : α → Bytes} {size : ℕ} {x : ReadM α}
    {text : String} (h : ReadsBytes bytes inp p offset size x s) :
    ReadsBytes bytes inp p offset size (context text x) s := by
  obtain ⟨value, hvalue, hreturns⟩ | ⟨hnone, hfails⟩ := h
  · exact .inl ⟨value, hvalue, context_returns.mpr hreturns⟩
  · exact .inr ⟨hnone, hfails.context⟩

theorem readRawFixed_spec (hs : RawAt inp p offset s) (hle : offset ≤ inp.size)
    (T : Arithmetic) :
    ReadsBytes T.bytes inp p offset T.size (readRawFixed inp (.raw p none) T.size T) s := by
  by_cases h : offset + T.size ≤ inp.size
  · cases T with
    | bool => exact .after (requireRaw_at hs h) (readRawBool_spec hs h)
    | integer signed width =>
      exact .after (requireRaw_at hs h) (readRawBits_spec hs (width_pow width) h)
    | float => exact .after (requireRaw_at hs h) (readRawBits_spec hs (by norm_num) h)
    | double => exact .after (requireRaw_at hs h) (readRawBits_spec hs (by norm_num) h)
  · have hshort := Nat.not_le.mp h
    refine .inr ⟨ne_bytes_of_short hshort, ?_⟩
    have hfails := requireRaw_short hs hle hshort
    cases T with
    | bool => exact hfails.bind
    | integer signed width => exact hfails.bind
    | float => exact hfails.bind
    | double => exact hfails.bind

theorem readArithmetic_spec (hs : RawAt inp p offset s) (hle : offset ≤ inp.size)
    {T : Arithmetic} {tags : Tags} (htags : tags.fixedLengthOf T = some T.size) :
    ReadsBytes T.bytes inp p offset T.size (readArithmetic inp T tags (.raw p none)) s := by
  unfold readArithmetic
  simp only [htags, ne_eq, not_true_eq_false, if_false]
  exact .after hs.requireValid (readRawFixed_spec hs hle T)

theorem readRawField_spec (hs : RawAt inp p offset s) (hle : offset ≤ inp.size)
    (field : RawField) :
    ReadsBytes field.type.bytes inp p offset field.type.wire.size
      (readRawField inp field.name field.tags (.raw p none) field.type.ty) s := by
  obtain ⟨name, tags, type, hignored, hwidth⟩ := field
  cases type with
  | arithmetic T => exact (readArithmetic_spec hs hle hwidth).context
  | enumeration signed width names =>
    exact (@readArithmetic_spec _ _ _ _ hs hle (.integer signed width) _ hwidth).context

/-- The handle behind a field, which holds an error at the end of the input. -/
theorem next_spec (hs : RawAt inp p offset s) (stop : ℕ) :
    ∃ t, Returns (next inp (.raw p none)) (readTo p stop s) (rawHandle inp s.parses stop) t ∧
      RawAt inp s.parses stop t := by
  refine ⟨{ readTo p stop s with parses := s.parses + 1 }, ?_, hs.data, hs.error, rfl, ?_,
    Nat.lt_succ_self _, ?_⟩
  · have hvalid : validateHandle inp (readTo p stop s) (.raw p none) = none := by
      unfold validateHandle readTo
      simp [hs.data, hs.error]
    unfold next
    rw [returns_get_bind, hvalid]
    rfl
  · intro hmem
    obtain heq | hmem := List.mem_cons.mp hmem
    · exact absurd (congrArg NodeId.parse heq) (Nat.ne_of_gt hs.current)
    · exact Nat.lt_irrefl _ (hs.consumed _ hmem)
  · intro id hid
    obtain rfl | hid := List.mem_cons.mp hid
    · exact Nat.lt_succ_of_lt hs.current
    · exact Nat.lt_succ_of_lt (hs.consumed id hid)

/-- From a handle that holds an error no value is read. -/
theorem readRawField_end (hs : RawAt inp p offset s) (h : inp.size ≤ offset) (field : RawField) :
    Fails (readRawField inp field.name field.tags (rawHandle inp p offset) field.type.ty) s := by
  have hrequire : Fails (requireValid inp (rawHandle inp p offset)) s := by
    unfold requireValid
    refine Fails.bind_of_returns (returns_get.mpr ⟨rfl, rfl⟩) ?_
    have hvalid : validate inp s (rawHandle inp p offset) =
        some ⟨.parseError, "Unexpected end of raw fixed binary data"⟩ := by
      unfold validate validateHandle rawHandle
      simp [hs.data, hs.error, h]
    rw [hvalid]
    exact ⟨_, _, rfl⟩
  have harithmetic : ∀ T tags, tags.fixedLengthOf T = some T.size →
      Fails (readArithmetic inp T tags (rawHandle inp p offset)) s := by
    intro T tags htags
    unfold readArithmetic
    simp only [htags, ne_eq, not_true_eq_false, if_false]
    exact hrequire.bind
  obtain ⟨name, tags, type, hignored, hwidth⟩ := field
  cases type with
  | arithmetic T => exact (harithmetic T tags hwidth).context
  | enumeration signed width names =>
    exact (harithmetic (.integer signed width) tags hwidth).context

/-- **One field**, from the handle at the offset. -/
theorem readField_spec (hs : RawAt inp p offset s) (hle : offset ≤ inp.size) (field : RawField) :
    ReadsBytes field.type.bytes inp p offset field.type.wire.size
      (readRawField inp field.name field.tags (rawHandle inp p offset) field.type.ty) s := by
  by_cases h : offset < inp.size
  · rw [rawHandle_of_lt h]
    exact readRawField_spec hs hle field
  · refine .inr ⟨fun value hvalue => ?_, readRawField_end hs (Nat.not_lt.mp h) field⟩
    have hpos := size_pos field.type.wire
    have hlength := congrArg List.length hvalue
    have hsize : inp.size = inp.data.length := rfl
    rw [length_fieldBytes, chunkAt, List.length_take, List.length_drop] at hlength
    omega

/-! ## Reading a record -/

/-- Bytes one after the other. -/
theorem chunkAt_add (offset size rest : ℕ) :
    chunkAt inp offset (size + rest) =
      chunkAt inp offset size ++ chunkAt inp (offset + size) rest := by
  rw [chunkAt, chunkAt, chunkAt, List.take_add, List.drop_drop]

theorem readRawFields_cons (field : RawField) (fields : List RawField) (v : InputValue)
    (old : field.type.ty.Value) (olds : (rawFields fields).Values) :
    readRawFields inp (rawFields (field :: fields)) v (old, olds) = (do
      let value ← readRawField inp field.name field.tags v field.type.ty
      let v ← next inp v
      let values ← readRawFields inp (rawFields fields) v olds
      pure (value, values)) := by
  exact (if_neg (Bool.eq_false_iff.mp field.notIgnored)).trans (if_neg field.isSome_fixedLength)

/-- **The fields of a record.** Either the bytes at the offset are the encoding of values, which
are returned, or the read is an error. -/
theorem readRawFields_spec (fields : List RawField) (hs : RawAt inp p offset s)
    (hle : offset ≤ inp.size) (olds : (rawFields fields).Values) :
    (∃ values t, chunkAt inp offset (rawSize fields) = rawBytes fields values ∧
      Returns (readRawFields inp (rawFields fields) (rawHandle inp p offset) olds) s values t ∧
      t.error = none ∧ t.offset = offset + rawSize fields) ∨
    (∀ values, chunkAt inp offset (rawSize fields) ≠ rawBytes fields values) ∧
      Fails (readRawFields inp (rawFields fields) (rawHandle inp p offset) olds) s := by
  induction fields generalizing p offset s with
  | nil =>
    exact .inl ⟨(), s, List.take_zero, returns_pure.mpr ⟨rfl, rfl⟩, hs.error, hs.offset⟩
  | cons field fields ih =>
    obtain ⟨old, olds⟩ := olds
    have hsize : rawSize (field :: fields) = field.type.wire.size + rawSize fields := rfl
    have hpos := size_pos field.type.wire
    rw [readRawFields_cons, hsize, chunkAt_add]
    obtain ⟨value, hvalue, hread⟩ | ⟨hnone, hfails⟩ := readField_spec hs hle field
    · have hlength := congrArg List.length hvalue
      have hdata : inp.size = inp.data.length := rfl
      rw [length_fieldBytes, chunkAt, List.length_take, List.length_drop] at hlength
      obtain ⟨t, hnext, ht⟩ := next_spec hs (offset + field.type.wire.size)
      rw [← rawHandle_of_lt (by omega : offset < inp.size)] at hnext
      obtain ⟨values, u, hvalues, hrest, herror, hoffset⟩ | ⟨hnone, hfails⟩ :=
        ih ht (by omega) olds
      · refine .inl ⟨(value, values), u, by rw [hvalue, hvalues]; rfl, ?_, herror, by omega⟩
        exact returns_bind.mpr ⟨value, _, hread, returns_bind.mpr ⟨_, t, hnext,
          returns_bind.mpr ⟨values, u, hrest, returns_pure.mpr ⟨rfl, rfl⟩⟩⟩⟩
      · refine .inr ⟨?_, .bind_of_returns hread (.bind_of_returns hnext hfails.bind)⟩
        rintro ⟨value', values'⟩ heq
        refine hnone values' (List.append_inj_right heq ?_)
        rw [hvalue, length_fieldBytes, length_fieldBytes]
    · refine .inr ⟨?_, hfails.bind⟩
      rintro ⟨value', values'⟩ heq
      have hlength := (congrArg List.length heq).trans
        (length_rawBytes (field :: fields) (value', values'))
      rw [← chunkAt_add, ← hsize, chunkAt, List.length_take, List.length_drop] at hlength
      have hdata : inp.size = inp.data.length := rfl
      refine hnone value' (List.append_inj_left heq ?_)
      rw [length_fieldBytes, length_chunkAt (by omega)]

end

/-! ## Documents -/

section

variable {inp : Input} (env : Env) (fields : List RawField) (unframed : Bool) {tags : Tags}

/-- The state from which the fields are read. -/
theorem rawAt_init (hdata : inp.isNull = false) (hlimit : inp.size ≤ inp.limits.maxInputBytes) :
    RawAt inp 0 0 { init inp with framed := false, offset := 0, parses := 1 } := by
  have herror : (init inp).error = none := by
    unfold init
    rw [if_neg (by rw [hdata]; exact Bool.false_ne_true), if_neg (Nat.not_lt.mpr hlimit)]
    split_ifs <;> rfl
  have hconsumed : (init inp).consumed = [] := by
    unfold init
    split_ifs <;> rfl
  refine ⟨hdata, herror, rfl, ?_, Nat.one_pos, ?_⟩
  · simp [hconsumed]
  · simp [hconsumed]

theorem ite_apply_pos {α : Type} {c : Prop} [Decidable c] (h : c) {x y : ReadM α} {s : State} :
    (if c then x else y) s = x s := by
  rw [if_pos h]

/-- Under the tag a document is read from its first byte, whatever the header says. -/
theorem read_rawFixedData (hdata : inp.isNull = false)
    (hlimit : inp.size ≤ inp.limits.maxInputBytes) (htags : tags.rawFixedData = true)
    (Fs : Fields) (old : Fs.Values) :
    ∃ parsed, read inp env (.object unframed Fs) tags old (init inp) = (do
      let values ← readRawFields inp Fs (rawHandle inp 0 0) parsed
      let s ← get
      let _ ← orThrow (finish inp s)
      pure values) { init inp with framed := false, offset := 0, parses := 1 } := by
  have hs := rawAt_init hdata hlimit
  refine ⟨if Fs.copyable then old else env.default (.object unframed Fs), ?_⟩
  have hparses : (init inp).parses = 0 := by
    unfold init
    split_ifs <;> rfl
  have hroot : Returns (root inp) { init inp with framed := false, offset := 0 }
      (rawHandle inp 0 0) { init inp with framed := false, offset := 0, parses := 1 } := by
    unfold root
    rw [returns_get_bind, show (init inp).error = none from hs.error]
    show EStateM.Result.ok (rawHandle inp (init inp).parses 0)
      { init inp with framed := false, offset := 0, parses := (init inp).parses + 1 } = _
    rw [hparses]
  have hparser : parserRead inp env (.object unframed Fs) tags (rawHandle inp 0 0) old =
      readRawFields inp Fs (rawHandle inp 0 0)
        (if Fs.copyable then old else env.default (.object unframed Fs)) := by
    exact if_pos htags
  have hstart : read inp env (.object unframed Fs) tags old (init inp) = (do
      let v ← root inp
      let values ← parserRead inp env (.object unframed Fs) tags v old
      let s ← get
      let _ ← orThrow (finish inp s)
      pure values) { init inp with framed := false, offset := 0 } := by
    exact ite_apply_pos htags
  exact hstart.trans ((bind_ok hroot).trans (congrArg (fun x => EStateM.bind x _ _) hparser))

/-- **Reading a raw document.** It is the encoding of values, which are returned, or it is an
error. -/
theorem read_raw (hdata : inp.isNull = false) (hlimit : inp.size ≤ inp.limits.maxInputBytes)
    (htags : tags.rawFixedData = true) (old : (rawFields fields).Values) :
    (∃ values t, inp.data = rawBytes fields values ∧
      Returns (read inp env (.object unframed (rawFields fields)) tags old) (init inp) values t) ∨
    (∀ values, inp.data ≠ rawBytes fields values) ∧
      Fails (read inp env (.object unframed (rawFields fields)) tags old) (init inp) := by
  have hs := rawAt_init hdata hlimit
  have hsize : inp.size = inp.data.length := rfl
  obtain ⟨parsed, hread⟩ := read_rawFixedData env unframed hdata hlimit htags (rawFields fields) old
  have hchunk : chunkAt inp 0 (rawSize fields) = inp.data.take (rawSize fields) := rfl
  obtain ⟨values, t, hvalues, hreturns, herror, hoffset⟩ | ⟨hnone, hfails⟩ :=
    readRawFields_spec fields hs (Nat.zero_le _) parsed
  · rw [Nat.zero_add] at hoffset
    rw [hchunk] at hvalues
    by_cases hlength : rawSize fields = inp.size
    · refine .inl ⟨values, t, ?_, hread.trans ?_⟩
      · rw [← hvalues, List.take_of_length_le (by omega)]
      · have hfinish : finish inp t = .ok () := by
          unfold finish
          simp [herror, hoffset, hlength]
        exact returns_bind.mpr ⟨values, t, hreturns, returns_bind.mpr ⟨t, t,
          returns_get.mpr ⟨rfl, rfl⟩, returns_bind.mpr ⟨(), t, orThrow_returns.mpr ⟨hfinish, rfl⟩,
            returns_pure.mpr ⟨rfl, rfl⟩⟩⟩⟩
    · refine .inr ⟨?_, ?_⟩
      · intro values' heq
        exact hlength ((length_rawBytes fields values').symm.trans (congrArg List.length heq.symm))
      · have hfinish : finish inp t =
            .error ⟨.parseError, "Binary input contains trailing or unconsumed bytes"⟩ := by
          unfold finish
          simp [herror, hoffset, hlength]
        have hthrow : Fails (orThrow (finish inp t)) t := by
          rw [hfinish]
          exact ⟨_, _, rfl⟩
        refine .congr hread (.bind_of_returns hreturns ?_)
        exact .bind_of_returns (returns_get.mpr ⟨rfl, rfl⟩) hthrow.bind
  · refine .inr ⟨?_, ?_⟩
    · intro values heq
      refine hnone values ?_
      rw [hchunk, ← heq, List.take_of_length_le]
      exact le_of_eq ((congrArg List.length heq).trans (length_rawBytes fields values))
    · exact .congr hread hfails.bind

end

/-! ## Writing -/

theorem writeArithmetic_raw {T : Arithmetic} {tags : Tags} (value : T.Value)
    (htags : tags.fixedLengthOf T = some T.size) {w : Writer} (hw : w.rawRoot = true) :
    writeArithmetic T tags value (.root, w) = .ok () (.root, w.appendBytes (T.bytes value)) := by
  have hwrite : w.fixedValueAsRoot T value T.size = w.appendBytes (T.bytes value) := by
    unfold Writer.fixedValueAsRoot Writer.writeRawFixed
    simp [hw]
  unfold writeArithmetic
  simp only [htags, ne_eq, not_true_eq_false, if_false]
  rw [← hwrite]
  rfl

theorem writeRawField_raw (field : RawField) (value : field.type.ty.Value) {w : Writer}
    (hw : w.rawRoot = true) :
    writeRawField field.name field.tags field.type.ty value (.root, w) =
      .ok () (.root, w.appendBytes (field.type.bytes value)) := by
  obtain ⟨name, tags, type, hignored, hwidth⟩ := field
  have hcontext : ∀ {text : String} {write : WriteM Unit} {t : Parent × Writer},
      write (.root, w) = .ok () t → writeContext text write (.root, w) = .ok () t := by
    intro text write t h
    unfold writeContext
    rw [h]
  cases type with
  | arithmetic T => exact hcontext (writeArithmetic_raw value hwidth hw)
  | enumeration signed width names =>
    exact hcontext (@writeArithmetic_raw (.integer signed width) tags value hwidth w hw)

/-- **Writing the fields** adds their bytes. -/
theorem writeRawFields_raw (fields : List RawField) (values : (rawFields fields).Values)
    {w : Writer} (hw : w.rawRoot = true) :
    writeRawFields (rawFields fields) values (.root, w) =
      .ok () (.root, w.appendBytes (rawBytes fields values)) := by
  induction fields generalizing w with
  | nil =>
    show EStateM.Result.ok () (Parent.root, w) = .ok () (.root, w.appendBytes [])
    rw [Writer.appendBytes, List.append_nil]
  | cons field fields ih =>
    obtain ⟨value, values⟩ := values
    have hfield := writeRawField_raw field value hw
    have hrest := ih values (show (w.appendBytes (field.type.bytes value)).rawRoot = true from hw)
    have hbytes : (w.appendBytes (field.type.bytes value)).appendBytes (rawBytes fields values) =
        w.appendBytes (rawBytes (field :: fields) (value, values)) := by
      show Writer.appendBytes _ _ = w.appendBytes (field.type.bytes value ++ _)
      rw [Writer.appendBytes, Writer.appendBytes, Writer.appendBytes, List.append_assoc]
    rw [← hbytes, ← hrest]
    have hcons : writeRawFields (rawFields (field :: fields)) (value, values) =
        (writeRawField field.name field.tags field.type.ty value >>= fun _ =>
          writeRawFields (rawFields fields) values) :=
      (if_neg (Bool.eq_false_iff.mp field.notIgnored)).trans (if_neg field.isSome_fixedLength)
    rw [hcons]
    show EStateM.bind _ _ _ = _
    rw [EStateM.bind, hfield]

/-- **Writing a raw document.** -/
theorem write_raw (nullForEmpty unframed : Bool) (fields : List RawField) {tags : Tags}
    (htags : tags.rawFixedData = true) (values : (rawFields fields).Values) :
    write nullForEmpty (.object unframed (rawFields fields)) tags values =
      (.ok (), rawBytes fields values) := by
  have hwrite : parserWrite nullForEmpty (.object unframed (rawFields fields)) tags values
      (.root, {}) = .ok () (.root, { buffer := rawBytes fields values, rawRoot := true }) := by
    have hraw : parserWrite nullForEmpty (.object unframed (rawFields fields)) tags values =
        writeRaw (rawFields fields) values := if_pos htags
    exact (congrFun hraw _).trans (writeRawFields_raw fields values rfl)
  unfold write
  rw [if_neg (by simp [Ty.isObject])]
  rw [hwrite]
  rfl

/-! ## The codec -/

/-- **The raw codec.** The encoding of a value is as long as its fields are wide and is decoded to
the value. Within the input limit exactly the buffers of this length whose `bool` bytes are 0 or 1
are decoded, to values that are encoded as the buffer, and every other one is an error. -/
theorem rawFixedData_codec (env : Env) (nullForEmpty unframed : Bool) (fields : List RawField)
    {tags : Tags} (htags : tags.rawFixedData = true) :
    (∀ values, ∃ bytes,
      write nullForEmpty (.object unframed (rawFields fields)) tags values = (.ok (), bytes) ∧
      bytes.length = rawSize fields ∧
      ∀ (inp : Input) (old : (rawFields fields).Values), inp.isNull = false →
        inp.size ≤ inp.limits.maxInputBytes → inp.data = bytes →
        ∃ t, Returns (read inp env (.object unframed (rawFields fields)) tags old) (init inp)
          values t) ∧
    ∀ (inp : Input) (old : (rawFields fields).Values), inp.isNull = false →
      inp.size ≤ inp.limits.maxInputBytes →
      (inp.size = rawSize fields ∧ BoolsValid fields inp.data →
        ∃ values t,
          Returns (read inp env (.object unframed (rawFields fields)) tags old) (init inp)
            values t ∧
          write nullForEmpty (.object unframed (rawFields fields)) tags values =
            (.ok (), inp.data)) ∧
      (¬(inp.size = rawSize fields ∧ BoolsValid fields inp.data) →
        ∃ e t, read inp env (.object unframed (rawFields fields)) tags old (init inp) =
          .error (.error e) t) := by
  refine ⟨fun values => ?_, fun inp old hdata hlimit => ⟨?_, ?_⟩⟩
  · refine ⟨rawBytes fields values, write_raw nullForEmpty unframed fields htags values,
      length_rawBytes fields values, ?_⟩
    intro inp old hdata hlimit hbytes
    obtain ⟨values', t, hvalues, hread⟩ | ⟨hnone, -⟩ :=
      read_raw env fields unframed hdata hlimit htags old
    · rw [rawBytes_injective fields (hbytes.symm.trans hvalues)]
      exact ⟨t, hread⟩
    · exact absurd hbytes (hnone values)
  · intro hvalid
    obtain ⟨values, hvalues⟩ := (exists_rawBytes fields inp.data).mpr hvalid
    obtain ⟨values', t, hvalues', hread⟩ | ⟨hnone, -⟩ :=
      read_raw env fields unframed hdata hlimit htags old
    · refine ⟨values', t, hread, ?_⟩
      rw [hvalues']
      exact write_raw nullForEmpty unframed fields htags values'
    · exact absurd hvalues (hnone values)
  · intro hinvalid
    obtain ⟨values, t, hvalues, -⟩ | ⟨-, hfails⟩ :=
      read_raw env fields unframed hdata hlimit htags old
    · exact absurd ((exists_rawBytes fields inp.data).mp ⟨values, hvalues⟩) hinvalid
    · exact hfails

/-- A record of a number, a byte and a flag. -/
def rawRecord : List RawField :=
  [{ name := [0x61], tags := { fixedLength := some 2 }, type := .arithmetic (.integer false .w16),
     notIgnored := rfl, width := rfl },
   { name := [0x62], tags := { fixedLength := some 1 }, type := .arithmetic (.integer true .w8),
     notIgnored := rfl, width := rfl },
   { name := [0x63], tags := { fixedLength := some 1 }, type := .arithmetic .bool,
     notIgnored := rfl, width := rfl }]

/-- A record that begins with the bytes of the header. -/
def magicRecord : Input where
  data := binaryMagic ++ [1]
  size_lt := by decide
  limits_lt := ParseLimits.sized_default

theorem rawFixedData_codec_magic :
    ∃ values t,
      Returns (read magicRecord Env.zero (.object false (rawFields rawRecord))
        { rawFixedData := true } (0#16, 0#8, false, ())) (init magicRecord) values t ∧
      write true (.object false (rawFields rawRecord)) { rawFixedData := true } values =
        (.ok (), magicRecord.data) :=
  ((rawFixedData_codec Env.zero true false rawRecord rfl).2 magicRecord (0#16, 0#8, false, ()) rfl
    (by decide)).1 ⟨by decide, by
      simp [rawRecord, BoolsValid, RawTy.wire, Arithmetic.size, Width.bytes, magicRecord,
        binaryMagic]⟩

end NekoProto.Parsing
