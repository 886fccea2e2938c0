import NekoProto.Lib.BigEndian
import NekoProto.Parsing.ReadRules
import NekoProto.Parsing.Write

/-!
# Message headers

`MessageHeader`, the ten bytes before every message of a `ProtoStreamClient`, as the Binary
serializer writes and reads it under its tags: a raw fixed record. What is written is the three
numbers in network order (`serializeHeader_eq`), and any ten bytes are read as a header
(`deserializeHeader_eq`).
-/

namespace NekoProto.Communication

open Binary Binary.Reader Parsing Outcome

/-! ## Messages -/

/-- `MessageType`. -/
inductive MessageType
  | complete | slice | sliceHeader | cancel | versionVerification
  deriving DecidableEq, Repr

/-- The number of a message type. -/
def MessageType.code : MessageType → BitVec 16
  | .complete => 0
  | .slice => 1
  | .sliceHeader => 2
  | .cancel => 3
  | .versionVerification => 4

/-- The cases of the receiver's `switch`. -/
def MessageType.ofCode (code : BitVec 16) : Option MessageType :=
  if code = 0 then some .complete
  else if code = 1 then some .slice
  else if code = 2 then some .sliceHeader
  else if code = 3 then some .cancel
  else if code = 4 then some .versionVerification
  else none

@[simp] theorem MessageType.ofCode_code (type : MessageType) : ofCode type.code = some type := by
  cases type <;> rfl

/-- `MessageHeader`. -/
structure MessageHeader where
  length : BitVec 32 := 0
  data : BitVec 32 := 0
  messageType : BitVec 16 := 0
  deriving DecidableEq, Repr

namespace MessageHeader

/-- `MessageHeader::size`. -/
def size : ℕ := 10

/-- The reflected class, with the tags of its fields. -/
def ty : Ty :=
  .object false <|
    .cons [0x6C, 0x65, 0x6E, 0x67, 0x74, 0x68] { fixedLength := some 4 }
      (.arithmetic (.integer false .w32)) <|
    .cons [0x64, 0x61, 0x74, 0x61] { fixedLength := some 4 }
      (.arithmetic (.integer true .w32)) <|
    .cons [0x6D, 0x65, 0x73, 0x73, 0x61, 0x67, 0x65, 0x54, 0x79, 0x70, 0x65]
      { fixedLength := some 2 } (.arithmetic (.integer false .w16)) .nil

/-- The members of a header. -/
def values (h : MessageHeader) : ty.Value := (h.length, h.data, h.messageType, ())

/-- The header with these members. -/
def ofValues (values : ty.Value) : MessageHeader :=
  match values with
  | (length, data, messageType, ()) => ⟨length, data, messageType⟩

/-- `make_tags<BinaryTag{.raw_fixed_data = true}>`. -/
def tags : Tags := { rawFixedData := true }

end MessageHeader

/-- `_serializeHeader`. -/
def serializeHeader (header : MessageHeader) : Bytes :=
  match write false MessageHeader.ty MessageHeader.tags header.values with
  | (.ok _, bytes) => bytes
  | (.error _, _) => []

/-- The document of a header. -/
def headerInput (bytes : Bytes) (h : bytes.length = MessageHeader.size) : Input where
  data := bytes
  size_lt := by rw [h]; decide
  limits_lt := ParseLimits.sized_default

/-- `BinarySerializer::InputSerializer` on the bytes of a header. -/
def deserializeHeader (bytes : Bytes) (h : bytes.length = MessageHeader.size) :
    Option MessageHeader :=
  let inp := headerInput bytes h
  match read inp .zero MessageHeader.ty MessageHeader.tags (MessageHeader.values {}) (init inp) with
  | .ok values _ => some (.ofValues values)
  | .error _ _ => none

/-! ## The bytes of a header -/

/-- The three numbers, most significant byte first. -/
def MessageHeader.bytes (h : MessageHeader) : Bytes :=
  BigEndian.toBytes 4 h.length.toNat ++ (BigEndian.toBytes 4 h.data.toNat ++
    BigEndian.toBytes 2 h.messageType.toNat)

theorem MessageHeader.length_bytes (h : MessageHeader) : h.bytes.length = MessageHeader.size := by
  simp [bytes, MessageHeader.size]

/-- **Writing a header.** -/
theorem serializeHeader_eq (header : MessageHeader) : serializeHeader header = header.bytes := by
  rfl

/-! ## Reading a raw record -/

section

variable {inp : Input} {p offset : ℕ} {s t : State}

/-- A raw handle at this offset that nothing was read from. -/
structure RawAt (inp : Input) (p offset : ℕ) (s : State) : Prop where
  data : inp.isNull = false
  error : s.error = none
  offset : s.offset = offset
  unread : (⟨p, 0⟩ : NodeId) ∉ s.consumed
  current : p < s.parses
  consumed : ∀ id ∈ s.consumed, id.parse < s.parses

/-- The state after the bytes up to an offset were read from the handle. -/
def readTo (p stop : ℕ) (s : State) : State :=
  { s with consumed := ⟨p, 0⟩ :: s.consumed, offset := stop }

/-- The unsigned number at an offset. -/
def numberAt (inp : Input) (n offset size : ℕ) : BitVec n :=
  BitVec.ofNat n (BigEndian.ofBytes ((inp.data.drop offset).take size))

namespace RawAt

theorem requireValid (hs : RawAt inp p offset s) :
    Returns (requireValid inp (.raw p none)) s () s := by
  refine requireValid_returns.mpr ⟨?_, rfl⟩
  unfold validate isConsumed InputValue.id validateHandle
  simp [hs.data, hs.error, hs.unread]

theorem readRawBits (hs : RawAt inp p offset s) {n size : ℕ} (hlen : offset + size ≤ inp.size) :
    Returns (readRawBits inp n (.raw p none) size) s (numberAt inp n offset size)
      (readTo p (offset + size) s) := by
  have hsize : offset + size < 2 ^ 64 := lt_of_le_of_lt hlen inp.size_lt
  unfold Reader.readRawBits bitsAt
  rw [returns_get_bind, hs.offset, bytesAt_eq hlen, pure_bind, pure_bind, addSize_eq hsize,
    pure_bind, returns_bind]
  refine ⟨(), readTo p (offset + size) s, ?_, returns_pure.mpr ⟨rfl, rfl⟩⟩
  unfold consumeRaw consume
  rw [returns_bind]
  exact ⟨(), { s with consumed := ⟨p, 0⟩ :: s.consumed }, rfl, rfl⟩

/-- An integer field with its width. -/
theorem readRawField (hs : RawAt inp p offset s) (name : Bytes) (signed : Bool) (w : Width)
    (hlen : offset + w.bytes ≤ inp.size) :
    Returns (readRawField inp name { fixedLength := some w.bytes } (.raw p none)
      (.arithmetic (.integer signed w))) s
      (numberAt inp w.bits offset w.bytes) (readTo p (offset + w.bytes) s) := by
  have htags : Tags.fixedLengthOf { fixedLength := some w.bytes } (.integer signed w) =
      some w.bytes := by
    cases w <;> rfl
  refine context_returns.mpr ?_
  have hread : readArithmetic inp (.integer signed w) { fixedLength := some w.bytes }
      (.raw p none) = readFixed inp (.integer signed w) (.raw p none) w.bytes := by
    unfold readArithmetic
    simp only [htags, Arithmetic.size, ne_eq, not_true_eq_false, if_false]
  have hrequire : Returns (requireRaw inp (.integer signed w) w.bytes) s () s := by
    unfold requireRaw
    rw [returns_get_bind, hs.offset, subSize_eq (by omega), pure_bind,
      if_neg (by simp only [Arithmetic.size, ne_eq, not_true_eq_false, false_or]; omega)]
    exact returns_pure.mpr ⟨rfl, rfl⟩
  rw [hread]
  exact returns_bind.mpr ⟨(), s, hs.requireValid,
    returns_bind.mpr ⟨(), s, hrequire, hs.readRawBits hlen⟩⟩

/-- The handle behind a field. -/
theorem next (hs : RawAt inp p offset s) (stop : ℕ) (hstop : stop < inp.size) :
    ∃ t, Returns (next inp (.raw p none)) (readTo p stop s) (.raw s.parses none) t ∧
      RawAt inp s.parses stop t := by
  refine ⟨{ readTo p stop s with parses := s.parses + 1 }, ?_, hs.data, hs.error, rfl, ?_,
    Nat.lt_succ_self _, ?_⟩
  · unfold Reader.next
    rw [returns_get_bind]
    have hvalid : validateHandle inp (readTo p stop s) (.raw p none) = none := by
      unfold validateHandle readTo
      simp [hs.data, hs.error]
    rw [hvalid]
    unfold rawValue Returns readTo
    simp only [get_bind_apply, if_neg (not_le.mpr hstop)]
    rfl
  · rintro hmem
    obtain heq | hmem := List.mem_cons.mp hmem
    · have := congrArg NodeId.parse heq
      exact absurd this (Nat.ne_of_gt hs.current)
    · exact Nat.lt_irrefl _ (hs.consumed _ hmem)
  · rintro id hid
    obtain rfl | hid := List.mem_cons.mp hid
    · exact Nat.lt_succ_of_lt hs.current
    · exact Nat.lt_succ_of_lt (hs.consumed id hid)

/-- Behind the last field the handle is not one to read from. -/
theorem next_end (hs : RawAt inp p offset s) (stop : ℕ) (hstop : inp.size ≤ stop) :
    ∃ v, Returns (Reader.next inp (.raw p none)) (readTo p stop s) v
      { readTo p stop s with parses := s.parses + 1 } := by
  refine ⟨.raw s.parses (some ⟨.parseError, "Unexpected end of raw fixed binary data"⟩), ?_⟩
  unfold Reader.next
  rw [returns_get_bind]
  have hvalid : validateHandle inp (readTo p stop s) (.raw p none) = none := by
    unfold validateHandle readTo
    simp [hs.data, hs.error]
  rw [hvalid]
  unfold rawValue Returns readTo
  simp only [get_bind_apply, if_pos hstop]
  rfl

/-- A field before others. -/
theorem readRawFields_cons (hs : RawAt inp p offset s) (name : Bytes) (signed : Bool) (w : Width)
    (old : BitVec w.bits) {rest : Fields} {olds values : rest.Values}
    (hlen : offset + w.bytes ≤ inp.size) {v : InputValue} {s₁ : State}
    (hnext : Returns (Reader.next inp (.raw p none)) (readTo p (offset + w.bytes) s) v s₁)
    (hrest : Returns (readRawFields inp rest v olds) s₁ values t) :
    Returns (readRawFields inp (.cons name { fixedLength := some w.bytes }
      (.arithmetic (.integer signed w)) rest)
      (.raw p none) (old, olds)) s (numberAt inp w.bits offset w.bytes, values) t := by
  exact returns_bind.mpr ⟨_, _, hs.readRawField name signed w hlen, returns_bind.mpr ⟨v, s₁, hnext,
    returns_bind.mpr ⟨values, t, hrest, returns_pure.mpr ⟨rfl, rfl⟩⟩⟩⟩

end RawAt

end

/-- The state from which the fields of a header are read. -/
def rawStart : State := { remainingAllocation := 32 * 1024 * 1024 }

theorem init_raw (bytes : Bytes) (h : bytes.length = MessageHeader.size) :
    { init (headerInput bytes h) with framed := false, offset := 0 } = rawStart := by
  have hsize : ¬(headerInput bytes h).limits.maxInputBytes < (headerInput bytes h).size := by
    unfold Input.size headerInput
    simp only [h]
    decide
  unfold init
  rw [if_neg (by simp [headerInput]), if_neg hsize]
  split_ifs <;> rfl

/-- The three fields of a header, one after the other. -/
theorem readRawFields_header {inp : Input} {p : ℕ} {s : State} (hs : RawAt inp p 0 s)
    (hsize : inp.size = 10) (old : MessageHeader.ty.Value) :
    ∃ t, Returns (parserRead inp .zero MessageHeader.ty MessageHeader.tags (.raw p none) old) s
      (numberAt inp 32 0 4, numberAt inp 32 4 4, numberAt inp 16 8 2, ()) t ∧
      finish inp t = .ok () := by
  obtain ⟨length, data, messageType, -⟩ := old
  obtain ⟨s₁, hnext₁, hs₁⟩ := hs.next 4 (by omega)
  obtain ⟨s₂, hnext₂, hs₂⟩ := hs₁.next 8 (by omega)
  obtain ⟨v, hnext₃⟩ := hs₂.next_end 10 (by omega)
  refine ⟨{ readTo s₁.parses 10 s₂ with parses := s₂.parses + 1 }, ?_, ?_⟩
  · refine hs.readRawFields_cons _ false .w32 length (by simp only [Width.bytes]; omega) hnext₁ ?_
    refine hs₁.readRawFields_cons _ true .w32 data (by simp only [Width.bytes]; omega) hnext₂ ?_
    refine hs₂.readRawFields_cons _ false .w16 messageType (by simp only [Width.bytes]; omega)
      hnext₃ ?_
    exact returns_pure.mpr ⟨rfl, rfl⟩
  · simp [finish, readTo, hs₂.error, hsize]

/-- The header in the bytes. -/
def MessageHeader.ofBytes (bytes : Bytes) : MessageHeader where
  length := BitVec.ofNat 32 (BigEndian.ofBytes (bytes.take 4))
  data := BitVec.ofNat 32 (BigEndian.ofBytes ((bytes.drop 4).take 4))
  messageType := BitVec.ofNat 16 (BigEndian.ofBytes ((bytes.drop 8).take 2))

/-- **Reading a header.** Any ten bytes are one. -/
theorem deserializeHeader_eq (bytes : Bytes) (h : bytes.length = MessageHeader.size) :
    deserializeHeader bytes h = some (.ofBytes bytes) := by
  have hread : ∃ t, Returns (read (headerInput bytes h) .zero MessageHeader.ty MessageHeader.tags
      (MessageHeader.values {})) (init (headerInput bytes h))
      (numberAt (headerInput bytes h) 32 0 4,
        numberAt (headerInput bytes h) 32 4 4, numberAt (headerInput bytes h) 16 8 2, ()) t := by
    have hs : RawAt (headerInput bytes h) 0 0 { rawStart with parses := 1 } :=
      ⟨rfl, rfl, rfl, nofun, Nat.one_pos, nofun⟩
    have hroot : Returns (root (headerInput bytes h)) rawStart (.raw 0 none)
        { rawStart with parses := 1 } := by
      have hlt : ¬(headerInput bytes h).size ≤ 0 := by
        unfold Input.size headerInput
        simp only [h]
        decide
      show EStateM.Result.ok
        (InputValue.raw 0 (if (headerInput bytes h).size ≤ 0 then _ else _)) _ =
          EStateM.Result.ok _ _
      rw [if_neg hlt]
      rfl
    obtain ⟨t, hfields, hfinish⟩ := readRawFields_header hs h (MessageHeader.values {})
    refine ⟨t, returns_bind.mpr ⟨(), _, rfl, ?_⟩⟩
    have hstart := init_raw bytes h
    show Returns _ { init (headerInput bytes h) with framed := false, offset := 0 } _ _
    rw [hstart]
    refine returns_bind.mpr ⟨_, _, hroot, returns_bind.mpr ⟨_, t, hfields, ?_⟩⟩
    exact returns_bind.mpr ⟨t, t, returns_get.mpr ⟨rfl, rfl⟩,
      returns_bind.mpr ⟨(), t, orThrow_returns.mpr ⟨hfinish, rfl⟩, returns_pure.mpr ⟨rfl, rfl⟩⟩⟩
  obtain ⟨t, hread⟩ := hread
  unfold deserializeHeader
  simp only
  rw [show read (headerInput bytes h) .zero MessageHeader.ty MessageHeader.tags
    (MessageHeader.values {}) (init (headerInput bytes h)) = .ok _ t from hread]
  rfl

/-- The header that was written is read back. -/
@[simp] theorem MessageHeader.ofBytes_bytes (header : MessageHeader) :
    ofBytes header.bytes = header := by
  have h₁ : header.bytes.take 4 = BigEndian.toBytes 4 header.length.toNat :=
    List.take_left' (BigEndian.length_toBytes _ _)
  have h₂ : (header.bytes.drop 4).take 4 = BigEndian.toBytes 4 header.data.toNat := by
    rw [bytes, List.drop_left' (BigEndian.length_toBytes _ _)]
    exact List.take_left' (BigEndian.length_toBytes _ _)
  have h₃ : (header.bytes.drop 8).take 2 = BigEndian.toBytes 2 header.messageType.toNat := by
    rw [bytes, ← List.append_assoc, List.drop_left' (by simp)]
    exact List.take_of_length_le (by simp)
  have hlt : ∀ {w : ℕ} (n : ℕ) (x : BitVec w), 2 ^ w = 256 ^ n →
      BitVec.ofNat w (BigEndian.ofBytes (BigEndian.toBytes n x.toNat)) = x := by
    rintro w n x hw
    rw [BigEndian.ofBytes_toBytes_of_lt (hw ▸ x.isLt), BitVec.ofNat_toNat, BitVec.setWidth_eq]
  rw [ofBytes, h₁, h₂, h₃, hlt 4 _ (by norm_num), hlt 4 _ (by norm_num), hlt 2 _ (by norm_num)]

end NekoProto.Communication
