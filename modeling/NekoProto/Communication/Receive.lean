import NekoProto.Communication.Header
import NekoProto.Lib.KeyedTable

/-!
# Receiving messages

The receiving half of `ProtoStreamClient` and the `ProtoFactory` behind it: how the type in a
header resolves to a message class, how the messages of a stream are taken off it one after the
other, and the state that is kept from one to the next.

1. The stream is the bytes as its reads return them, in chunks, and the errors in between
   (`Incoming`). `_recvRaw` takes bytes off it however they are cut (`recvRaw_carries`).
2. One turn of the loop of `recv` handles one message (`recvTurn`). As every message takes a header
   off the stream, `recv` is the first turn that has a result (`recv_of_some`, `recv_of_none`).
-/

namespace NekoProto.Communication

open Binary Binary.Reader Parsing

/-! ## Errors -/

/-- `ilias::IoError`, as far as a client makes or compares one. -/
inductive IoError
  | canceled | connectionReset | messageTooLarge
  | other (code : ℕ)
  deriving DecidableEq, Repr

/-- `ErrorCode`, as far as a client makes one, and the errors of its stream. -/
inductive Error
  | invalidMessageHeader | invalidProtoType | invalidProtoData | unrecognizedMessage | noData
  | serializationError | unsupportOperator
  | io (error : IoError)
  deriving DecidableEq, Repr

/-- Where the behaviour of a client is not defined, or it aborts. -/
inductive Fault
  /-- A condition of `NEKO_ASSERT` does not hold, in a build that checks it. -/
  | assertion
  /-- A byte is written outside of `mBuffer`. -/
  | outOfBounds
  /-- A null pointer is dereferenced. -/
  | nullPointer
  deriving DecidableEq, Repr

/-- `StreamFlag`, without the choice of a thread. -/
structure StreamFlag where
  sliceData : Bool := false
  versionVerification : Bool := false
  recvUnknownTypeData : Bool := false
  deriving DecidableEq, Repr

/-! ## Message classes -/

/-- `RawDataMessage`. -/
structure RawDataMessage where
  length : BitVec 32 := 0
  type : BitVec 32 := 0
  name : Bytes := [0x75, 0x6E, 0x6B, 0x6E, 0x6F, 0x77, 0x6E]
  data : Bytes := []
  deriving DecidableEq, Repr

/-- `IProto` that is not null: the message behind it. -/
inductive Proto (Msg : Type)
  | raw (data : RawDataMessage)
  | declared (message : Msg)
  deriving DecidableEq, Repr

/-- `AbstractProto`, the methods of the message classes. -/
structure AbstractProto (Msg : Type) where
  toData : Proto Msg → Option Bytes
  fromData : Proto Msg → Bytes → Option (Proto Msg)
  type : Proto Msg → BitVec 32

/-- `IProto::cast<RawDataMessage>`. -/
def Proto.castRaw {Msg : Type} : Proto Msg → Option RawDataMessage
  | .raw data => some data
  | .declared _ => none

/-- `NEKO_RESERVED_PROTO_TYPE_SIZE`. -/
def reservedProtoTypeSize : ℕ := 64

/-- `RawDataMessage::specifyType`. -/
def RawDataMessage.specifyType : BitVec 32 := 3

/-- `ProtoFactory`: the creators, by the message they make, and the names of the types. Every
program with clients declares `RawDataMessage` under its number. -/
structure ProtoFactory (Msg : Type) where
  createrList : List (Option (Proto Msg))
  createsRaw : createrList[3]? = some (some (.raw {}))
  dynamicCreaterMap : List (BitVec 32 × Proto Msg) := []
  protoTypeMap : List (Bytes × BitVec 32) := []
  version : BitVec 32 := 1

namespace ProtoFactory

variable {Msg : Type} (factory : ProtoFactory Msg)

/-- `_protoType` of a name that is not being declared. -/
def protoType (name : Bytes) : BitVec 32 :=
  if name = [] then -1 else (factory.protoTypeMap.lookup name).getD (-1)

/-- The creator in the list. -/
def creater (type : BitVec 32) : Option (Proto Msg) :=
  if 0 < type.toInt ∧ type.toInt < factory.createrList.length then
    (factory.createrList[type.toNat]?).join
  else none

/-- `create` by type. -/
def create (type : BitVec 32) : Option (Proto Msg) :=
  match factory.creater type with
  | some proto => some proto
  | none =>
    if factory.createrList.length ≤ type.toInt then factory.dynamicCreaterMap.lookup type
    else none

/-- `create` by name, which is a C string. -/
def createByName (name : Bytes) : Option (Proto Msg) :=
  factory.create (factory.protoType (name.takeWhile (· ≠ 0)))

theorem create_neg_one : factory.create (-1) = none := by
  have hneg : (-1 : BitVec 32).toInt = -1 := by decide
  have hlen : ¬(factory.createrList.length : ℤ) ≤ -1 := by omega
  simp only [create, creater, hneg, if_neg hlen]
  rfl

theorem create_raw : factory.create RawDataMessage.specifyType = some (.raw {}) := by
  have hlen : 3 < factory.createrList.length := (List.getElem?_eq_some_iff.mp factory.createsRaw).1
  have htype : RawDataMessage.specifyType.toInt = 3 := by decide
  have hnat : RawDataMessage.specifyType.toNat = 3 := by decide
  simp only [create, creater, htype, hnat, factory.createsRaw]
  rw [if_pos ⟨by decide, by omega⟩]
  rfl

/-- There is no class without a name. -/
theorem createByName_nil : factory.createByName [] = none :=
  factory.create_neg_one

end ProtoFactory

/-! ## The table of a peer -/

/-- `std::map::insert_or_assign`, in the order of the keys. -/
def assign (key : BitVec 32) (name : Bytes) :
    List (BitVec 32 × Bytes) → List (BitVec 32 × Bytes)
  | [] => [(key, name)]
  | (k, n) :: entries =>
    if key = k then (key, name) :: entries
    else if key < k then (key, name) :: (k, n) :: entries
    else (k, n) :: assign key name entries

theorem lookup_assign (key : BitVec 32) (name : Bytes) (entries : List (BitVec 32 × Bytes))
    (type : BitVec 32) : (assign key name entries).lookup type =
      if type = key then some name else entries.lookup type := by
  induction entries with
  | nil => exact KeyedTable.lookup_cons key name [] type
  | cons entry entries ih =>
    obtain ⟨k, n⟩ := entry
    unfold assign
    by_cases hkey : key = k
    · subst hkey
      rw [if_pos rfl, KeyedTable.lookup_cons, KeyedTable.lookup_cons]
      by_cases h : type = key
      · rw [if_pos h, if_pos h]
      · rw [if_neg h, if_neg h, if_neg h]
    rw [if_neg hkey]
    by_cases hlt : key < k
    · rw [if_pos hlt, KeyedTable.lookup_cons]
    rw [if_neg hlt, KeyedTable.lookup_cons, KeyedTable.lookup_cons, ih]
    by_cases h : type = k
    · rw [if_pos h, if_pos h, if_neg (h ▸ Ne.symm hkey)]
    · rw [if_neg h, if_neg h]

theorem assign_ne_nil (key : BitVec 32) (name : Bytes) (entries : List (BitVec 32 × Bytes)) :
    assign key name entries ≠ [] := by
  cases entries with
  | nil => simp [assign]
  | cons entry entries =>
    obtain ⟨k, n⟩ := entry
    unfold assign
    split_ifs <;> simp

/-- `ProtocolTable`. -/
structure ProtocolTable where
  protocolFactoryVersion : BitVec 32 := 0
  protoTable : List (BitVec 32 × Bytes) := []
  deriving DecidableEq, Repr

namespace ProtocolTable

/-- The reflected class. -/
def ty : Ty :=
  .object false <|
    .cons [0x70, 0x72, 0x6F, 0x74, 0x6F, 0x63, 0x6F, 0x6C, 0x46, 0x61, 0x63, 0x74, 0x6F, 0x72,
      0x79, 0x56, 0x65, 0x72, 0x73, 0x69, 0x6F, 0x6E] {} (.arithmetic (.integer false .w32)) <|
    .cons [0x70, 0x72, 0x6F, 0x74, 0x6F, 0x54, 0x61, 0x62, 0x6C, 0x65] {}
      (.entryMap true (.arithmetic (.integer false .w32)) .string) .nil

/-- The members of a table. -/
def values (table : ProtocolTable) : ty.Value :=
  (table.protocolFactoryVersion, table.protoTable, ())

/-- The table with these members. -/
def ofValues (values : ty.Value) : ProtocolTable :=
  match values with
  | (version, table, ()) => ⟨version, table⟩

/-- Two numbers of a width. -/
def equal (n : ℕ) (a b : BitVec n) : Bool := decide (a = b)

/-- Two keys of a `std::map` are the same key if neither is below the other. -/
def equivalent : (T : Ty) → T.Value → T.Value → Bool
  | .arithmetic (.integer _ w), a, b => equal w.bits a b
  | _, _, _ => false

/-- `specifyType`. -/
def specifyType : BitVec 32 := 2

/-- `toData` behind the bytes that are reserved for a header. -/
def toData (table : ProtocolTable) : Option Bytes :=
  match write false ty {} table.values with
  | (.ok _, bytes) => some bytes
  | (.error _, _) => none

/-- `fromData`. -/
def fromData (table : ProtocolTable) (payload : Bytes) : Option ProtocolTable :=
  if h : payload.length < 2 ^ 64 then
    let inp : Input := { data := payload, size_lt := h, limits_lt := ParseLimits.sized_default }
    match read inp ⟨Ty.zero, equivalent⟩ ty {} table.values (init inp) with
    | .ok values _ => some (ofValues values)
    | .error _ _ => none
  else none

end ProtocolTable

/-! ## The stream -/

/-- What the reads of a stream return one after the other: bytes, of which a read takes as many as
it has room for, or an error. Behind the last the stream has ended. -/
abbrev Incoming := List (Except IoError Bytes)

/-- What was read into a buffer. -/
structure Reading where
  result : Except IoError Unit
  got : Bytes
  rest : Incoming

/-- The reads until `n` bytes have arrived. -/
def readBytes : ℕ → Incoming → Reading
  | 0, s => ⟨.ok (), [], s⟩
  | _ + 1, [] => ⟨.error .connectionReset, [], []⟩
  | _ + 1, .error e :: s => ⟨.error e, [], s⟩
  | n + 1, .ok chunk :: s =>
    if chunk = [] then ⟨.error .connectionReset, [], s⟩
    else if n + 1 < chunk.length then
      ⟨.ok (), chunk.take (n + 1), .ok (chunk.drop (n + 1)) :: s⟩
    else
      let reading := readBytes (n + 1 - chunk.length) s
      ⟨reading.result, chunk ++ reading.got, reading.rest⟩

/-- `static_cast<int>` of a size. -/
def narrow (size : ℕ) : ℤ := (BitVec.ofNat 32 size).toInt

/-- `_recvRaw` into a buffer of this size. -/
def recvRaw (size : ℕ) (s : Incoming) : Reading := readBytes (narrow size).toNat s

/-! ## The client -/

/-- What `NEKO_ASSERT` and the message classes are in a program. -/
structure Program (Msg : Type) extends AbstractProto Msg where
  /-- `NEKO_PROTO_DEBUG`. -/
  asserts : Bool

/-- `ProtoStreamClient`, as far as it is about receiving. -/
structure Client (Msg : Type) where
  factory : Option (ProtoFactory Msg)
  protocolTable : ProtocolTable := {}
  buffer : Bytes := []
  header : MessageHeader := {}
  message : Option (Proto Msg) := none
  sliceSizeCount : BitVec 32 := 0

/-- What a call of `recv` returns, if it does. -/
inductive Result (Msg : Type)
  | message (proto : Proto Msg)
  | error (error : Error)
  | fault (fault : Fault)
  deriving DecidableEq, Repr

/-- `std::vector::resize`. -/
def resize (n : ℕ) (buffer : Bytes) : Bytes :=
  buffer.take n ++ List.replicate (n - buffer.length) 0

/-- The buffer after its first bytes were written. -/
def fill (buffer bytes : Bytes) : Bytes := bytes ++ buffer.drop bytes.length

/-- The buffer after bytes were written to it at an offset, if that is inside. -/
def store (buffer : Bytes) (offset : ℤ) (bytes : Bytes) : Option Bytes :=
  if bytes = [] then some buffer
  else if 0 ≤ offset ∧ offset + bytes.length ≤ buffer.length then
    some (buffer.take offset.toNat ++ fill (buffer.drop offset.toNat) bytes)
  else none

@[simp] theorem length_resize (n : ℕ) (buffer : Bytes) : (resize n buffer).length = n := by
  simp only [resize, List.length_append, List.length_take, List.length_replicate]
  omega

theorem length_fill {buffer bytes : Bytes} (h : bytes.length ≤ buffer.length) :
    (fill buffer bytes).length = buffer.length := by
  simp only [fill, List.length_append, List.length_drop]
  omega

/-- What is stored inside a buffer does not change its size. -/
theorem store_length {buffer bytes buffer' : Bytes} {offset : ℤ}
    (h : store buffer offset bytes = some buffer') : buffer'.length = buffer.length := by
  unfold store at h
  split_ifs at h with hnil hinside
  · exact congrArg List.length (Option.some.inj h).symm
  · obtain rfl := Option.some.inj h
    rw [List.length_append, length_fill (by rw [List.length_drop]; omega), List.length_take,
      List.length_drop]
    omega

/-- Bytes of which each is inside are stored. -/
theorem store_isSome (buffer bytes : Bytes) {offset : ℤ}
    (h : 0 ≤ offset ∧ offset + bytes.length ≤ buffer.length) :
    ∃ buffer', store buffer offset bytes = some buffer' := by
  unfold store
  by_cases hnil : bytes = []
  · exact ⟨buffer, if_pos hnil⟩
  · exact ⟨_, by rw [if_neg hnil, if_pos h]⟩

section

variable {Msg : Type} (program : Program Msg)

/-- `_createProto`. -/
def createProto (c : Client Msg) (type : BitVec 32) : Option (Proto Msg) :=
  match c.factory with
  | none => none
  | some factory =>
    if type.toNat ≤ reservedProtoTypeSize ∨ c.protocolTable.protoTable = [] then
      factory.create type
    else
      match c.protocolTable.protoTable.lookup type with
      | some name => factory.createByName name
      | none => none

/-- `std::map::operator[]`: an absent name is put into the table. -/
def ProtocolTable.nameOf (table : ProtocolTable) (type : BitVec 32) : Bytes × ProtocolTable :=
  match table.protoTable.lookup type with
  | some name => (name, table)
  | none => ([], { table with protoTable := assign type [] table.protoTable })

/-- `_syncProtocolTable`. -/
def syncProtocolTable (c : Client Msg) : Except Error Unit × Client Msg :=
  if c.header.data ≠ ProtocolTable.specifyType then (.error .invalidProtoType, c)
  else
    match ProtocolTable.fromData {} c.buffer with
    | none => (.error .invalidProtoData, c)
    | some table => (.ok (), { c with protocolTable := table })

/-- The message as which one of an unknown type is handed on. -/
def unknownMessage (c : Client Msg) : Result Msg × Client Msg :=
  match (c.factory.bind fun factory => factory.create RawDataMessage.specifyType).bind
      Proto.castRaw with
  | none => (.fault .nullPointer, c)
  | some _ =>
    let named := c.protocolTable.nameOf c.header.data
    (.message (.raw ⟨c.header.length, c.header.data, named.1, c.buffer⟩),
      { c with protocolTable := named.2, buffer := [] })

/-- `_finishMessage` of the message in the client. -/
def finishMessage (flag : StreamFlag) (c : Client Msg) : Result Msg × Client Msg :=
  match c.message with
  | none =>
    if flag.recvUnknownTypeData then unknownMessage c else (.error .unrecognizedMessage, c)
  | some message =>
    match program.fromData message c.buffer with
    | some proto => (.message proto, { c with message := none })
    | none => (.error .invalidProtoData, { c with message := none })

/-- What a message makes of the loop in `recv`: the result of the call, if it ends. -/
structure Turn (Msg : Type) where
  result : Option (Result Msg)
  client : Client Msg
  rest : Incoming

/-- The end of the loop. -/
def complete (flag : StreamFlag) (c : Client Msg) (s : Incoming) : Turn Msg :=
  let finished := finishMessage program flag c
  ⟨some finished.1, finished.2, s⟩

/-- A `Cancel`. -/
def recvCancel (c : Client Msg) (s : Incoming) : Turn Msg :=
  ⟨some (.error (.io .canceled)), { c with buffer := [], message := none, sliceSizeCount := 0 }, s⟩

/-- The buffer of a message, with what arrives of it. -/
def recvBuffer (c : Client Msg) (s : Incoming) : Client Msg :=
  let n := c.header.length.toNat
  { c with buffer := fill (resize n c.buffer) (recvRaw n s).got }

/-- A `VersionVerification`, with `_recvVersion`. -/
def recvVersion (c : Client Msg) (s : Incoming) : Turn Msg :=
  let reading := recvRaw c.header.length.toNat s
  let c := recvBuffer c s
  match reading.result with
  | .error e => ⟨some (.error (.io e)), c, reading.rest⟩
  | .ok () =>
    match syncProtocolTable c with
    | (.error e, c) => ⟨some (.error e), c, reading.rest⟩
    | (.ok (), c) => ⟨none, c, reading.rest⟩

/-- A `Complete` message. -/
def recvComplete (flag : StreamFlag) (c : Client Msg) (s : Incoming) : Turn Msg :=
  let reading := recvRaw c.header.length.toNat s
  let c := recvBuffer { c with message := createProto c c.header.data } s
  match reading.result with
  | .error e => ⟨some (.error (.io e)), c, reading.rest⟩
  | .ok () => complete program flag c reading.rest

/-- A `SliceHeader`. -/
def recvSliceHeader (c : Client Msg) (s : Incoming) : Turn Msg :=
  let message := createProto c c.header.data
  let c := { c with message := message, buffer := resize c.header.length.toNat c.buffer }
  match message with
  | none => ⟨some (.error .invalidProtoType), c, s⟩
  | some _ => ⟨none, c, s⟩

/-- The condition of the assertion about a `Slice`, as it is computed: the sum is one of 32
bits. -/
def sliceFits (c : Client Msg) : Prop :=
  (c.header.data + c.header.length).toNat ≤ c.buffer.length

instance (c : Client Msg) : Decidable (sliceFits c) := inferInstanceAs (Decidable (_ ≤ _))

/-- A `Slice`. -/
def recvSlice (flag : StreamFlag) (c : Client Msg) (s : Incoming) : Turn Msg :=
  if program.asserts ∧ ¬sliceFits c then ⟨some (.fault .assertion), c, s⟩
  else
    let reading := recvRaw c.header.length.toNat s
    match store c.buffer c.header.data.toInt reading.got with
    | none => ⟨some (.fault .outOfBounds), c, reading.rest⟩
    | some buffer =>
      let c := { c with buffer := buffer }
      match reading.result with
      | .error e => ⟨some (.error (.io e)), c, reading.rest⟩
      | .ok () =>
        let count := c.sliceSizeCount + c.header.length
        if count.toNat = buffer.length then
          complete program flag { c with sliceSizeCount := 0 } reading.rest
        else ⟨none, { c with sliceSizeCount := count }, reading.rest⟩

/-- The `switch` over the type of a message. -/
def recvMessage (flag : StreamFlag) (c : Client Msg) (s : Incoming) : Turn Msg :=
  match MessageType.ofCode c.header.messageType with
  | some .cancel => recvCancel c s
  | some .versionVerification => recvVersion c s
  | some .complete => recvComplete program flag c s
  | some .sliceHeader => recvSliceHeader c s
  | some .slice => recvSlice program flag c s
  | none => ⟨some (.error .invalidMessageHeader), c, s⟩

/-- The bytes of a header, which are in a buffer of this size. -/
def readHeader (bytes : Bytes) : Option MessageHeader :=
  if h : bytes.length = MessageHeader.size then deserializeHeader bytes h else none

/-- The loop of `recv` once. -/
def recvTurn (flag : StreamFlag) (c : Client Msg) (s : Incoming) : Turn Msg :=
  let c := { c with header := {} }
  let reading := recvRaw MessageHeader.size s
  match reading.result with
  | .error e => ⟨some (.error (.io e)), c, reading.rest⟩
  | .ok () =>
    match readHeader reading.got with
    | none => ⟨some (.error .invalidMessageHeader), c, reading.rest⟩
    | some header => recvMessage program flag { c with header := header } reading.rest

/-- The loop of `recv`, at most so many times. -/
def recvLoop (flag : StreamFlag) : ℕ → Client Msg → Incoming → Result Msg × Client Msg × Incoming
  | 0, c, s => (.error (.io .connectionReset), c, s)
  | fuel + 1, c, s =>
    let turn := recvTurn program flag c s
    match turn.result with
    | some result => (result, turn.client, turn.rest)
    | none => recvLoop flag fuel turn.client turn.rest

/-- The bytes that are still to come. -/
def pending : Incoming → ℕ
  | [] => 0
  | .error _ :: s => pending s
  | .ok chunk :: s => chunk.length + pending s

/-- `recv`. The loop takes a header off the stream each time. -/
def recv (flag : StreamFlag) (c : Client Msg) : Option Incoming →
    Result Msg × Client Msg × Option Incoming
  | none => (.error .unsupportOperator, c, none)
  | some s =>
    match recvLoop program flag (pending s + 1) c s with
    | (result, c, s) => (result, c, some s)

end

/-! ## What is taken off the stream -/

-- The equations are made here, once for the lemmas below.
attribute [local simp] readBytes

theorem narrow_of_lt {n : ℕ} (h : n < 2 ^ 31) : narrow n = n := by
  unfold narrow
  rw [BitVec.toInt_eq_toNat_of_lt (by rw [BitVec.toNat_ofNat]; omega), BitVec.toNat_ofNat]
  omega

theorem narrow_neg {n : ℕ} (h : 2 ^ 31 ≤ n) (h' : n < 2 ^ 32) : narrow n < 0 := by
  unfold narrow
  rw [BitVec.toInt_ofNat', Int.bmod_def]
  omega

theorem readBytes_zero (s : Incoming) : readBytes 0 s = ⟨.ok (), [], s⟩ := by
  rw [readBytes]

theorem readBytes_pending (n : ℕ) (s : Incoming) :
    pending (readBytes n s).rest + (readBytes n s).got.length = pending s := by
  induction n, s using readBytes.induct with
  | case1 s => rw [readBytes_zero]; rfl
  | case2 n => rfl
  | case3 n e s => rfl
  | case4 n s => simp [readBytes, pending]
  | case5 n chunk s hne hlt =>
    unfold readBytes
    simp only [if_neg hne, if_pos hlt, pending, List.length_drop, List.length_take]
    omega
  | case6 n chunk s hne hlt ih =>
    unfold readBytes
    simp only [if_neg hne, if_neg hlt, pending, List.length_append]
    omega

theorem readBytes_le (n : ℕ) (s : Incoming) : (readBytes n s).got.length ≤ n := by
  induction n, s using readBytes.induct with
  | case1 s => rw [readBytes_zero]; exact Nat.le_refl 0
  | case2 n => exact Nat.zero_le _
  | case3 n e s => exact Nat.zero_le _
  | case4 n s => simp [readBytes]
  | case5 n chunk s hne hlt =>
    unfold readBytes
    simp only [if_neg hne, if_pos hlt, List.length_take]
    omega
  | case6 n chunk s hne hlt ih =>
    unfold readBytes
    simp only [if_neg hne, if_neg hlt, List.length_append]
    omega

/-- Without an error the buffer is full. -/
theorem readBytes_full {n : ℕ} {s : Incoming} (h : (readBytes n s).result = .ok ()) :
    (readBytes n s).got.length = n := by
  induction n, s using readBytes.induct with
  | case1 s => rw [readBytes_zero]; rfl
  | case2 n => cases h
  | case3 n e s => cases h
  | case4 n s => simp [readBytes] at h
  | case5 n chunk s hne hlt =>
    unfold readBytes
    simp only [if_neg hne, if_pos hlt, List.length_take]
    omega
  | case6 n chunk s hne hlt ih =>
    unfold readBytes at h ⊢
    simp only [if_neg hne, if_neg hlt] at h ⊢
    rw [List.length_append, ih h]
    omega

/-- A stream that delivers these bytes, cut anywhere, and then ends. -/
def Carries (s : Incoming) (bytes : Bytes) : Prop :=
  ∃ chunks : List Bytes, s = chunks.map .ok ∧ [] ∉ chunks ∧ chunks.flatten = bytes

theorem readBytes_carries {ys : Bytes} : ∀ {xs : Bytes} {s : Incoming}, Carries s (xs ++ ys) →
    ∃ rest, readBytes xs.length s = ⟨.ok (), xs, rest⟩ ∧ Carries rest ys := by
  rintro xs s ⟨chunks, rfl, hne, hflat⟩
  induction chunks generalizing xs with
  | nil =>
    obtain ⟨rfl, rfl⟩ := List.append_eq_nil_iff.mp hflat.symm
    exact ⟨[], rfl, [], rfl, List.not_mem_nil, rfl⟩
  | cons chunk chunks ih =>
    obtain ⟨hchunk, hchunks⟩ : [] ≠ chunk ∧ [] ∉ chunks := by simpa using hne
    cases hxs : xs.length with
    | zero =>
      obtain rfl := List.length_eq_zero_iff.mp hxs
      exact ⟨_, readBytes_zero _, chunk :: chunks, rfl, hne, hflat⟩
    | succ n =>
      rw [List.map_cons, readBytes, if_neg (Ne.symm hchunk), ← hxs]
      rw [List.flatten_cons] at hflat
      by_cases hlt : xs.length < chunk.length
      · have hxs' : chunk.take xs.length = xs := by
          have htake := congrArg (List.take xs.length) hflat
          rwa [List.take_append_of_le_length hlt.le, List.take_left] at htake
        have hys : chunk.drop xs.length ++ chunks.flatten = ys := by
          rw [← List.drop_append_of_le_length hlt.le, hflat, List.drop_left]
        refine ⟨.ok (chunk.drop xs.length) :: chunks.map .ok, ?_, chunk.drop xs.length :: chunks,
          rfl, ?_, hys⟩
        · rw [if_pos hlt, hxs']
        · rintro hmem
          obtain hnil | hmem := List.mem_cons.mp hmem
          · have := congrArg List.length hnil
            rw [List.length_drop, List.length_nil] at this
            omega
          · exact hchunks hmem
      · obtain ⟨zs, hzs⟩ : chunk <+: xs :=
          List.prefix_of_prefix_length_le ⟨_, hflat⟩ (List.prefix_append _ _) (not_lt.mp hlt)
        have hrest : chunks.flatten = zs ++ ys := by
          rw [← hzs, List.append_assoc] at hflat
          exact List.append_cancel_left hflat
        obtain ⟨rest, hread, hcarries⟩ := ih hchunks hrest
        have hlen : xs.length - chunk.length = zs.length := by
          rw [← hzs, List.length_append]
          omega
        refine ⟨rest, ?_, hcarries⟩
        rw [if_neg hlt]
        simp only [hlen, hread, hzs]

/-- **Reading a buffer.** However the bytes are cut, they arrive. -/
theorem recvRaw_carries {xs ys : Bytes} {s : Incoming} (hxs : xs.length < 2 ^ 31)
    (h : Carries s (xs ++ ys)) :
    ∃ rest, recvRaw xs.length s = ⟨.ok (), xs, rest⟩ ∧ Carries rest ys := by
  unfold recvRaw
  rw [narrow_of_lt hxs, Int.toNat_natCast]
  exact readBytes_carries h

theorem recvRaw_pending (n : ℕ) (s : Incoming) :
    pending (recvRaw n s).rest + (recvRaw n s).got.length = pending s :=
  readBytes_pending _ s

theorem recvRaw_le {n : ℕ} (hn : n < 2 ^ 32) (s : Incoming) : (recvRaw n s).got.length ≤ n := by
  refine (readBytes_le _ s).trans ?_
  by_cases h : n < 2 ^ 31
  · rw [narrow_of_lt h, Int.toNat_natCast]
  · have := narrow_neg (not_lt.mp h) hn
    omega

theorem recvRaw_full {n : ℕ} (hn : n < 2 ^ 31) {s : Incoming}
    (h : (recvRaw n s).result = .ok ()) : (recvRaw n s).got.length = n := by
  unfold recvRaw at h ⊢
  rw [readBytes_full h, narrow_of_lt hn, Int.toNat_natCast]

theorem pending_recvRaw_le (n : ℕ) (s : Incoming) : pending (recvRaw n s).rest ≤ pending s := by
  have := recvRaw_pending n s
  omega

/-! ## The loop -/

theorem recvMessage_pending (program : Program Msg) (flag : StreamFlag) (c : Client Msg)
    (s : Incoming) : pending (recvMessage program flag c s).rest ≤ pending s := by
  unfold recvMessage
  cases MessageType.ofCode c.header.messageType with
  | none => exact Nat.le_refl _
  | some type =>
    cases type with
    | cancel => exact Nat.le_refl _
    | versionVerification =>
      simp only [recvVersion]
      split
      · exact pending_recvRaw_le _ s
      · split <;> exact pending_recvRaw_le _ s
    | complete =>
      simp only [recvComplete, complete]
      split <;> exact pending_recvRaw_le _ s
    | sliceHeader =>
      simp only [recvSliceHeader]
      split <;> exact Nat.le_refl _
    | slice =>
      simp only [recvSlice, complete]
      split_ifs
      · exact Nat.le_refl _
      · split
        · exact pending_recvRaw_le _ s
        · split
          · exact pending_recvRaw_le _ s
          · split_ifs <;> exact pending_recvRaw_le _ s

theorem unknownMessage_eq {c : Client Msg} {factory : ProtoFactory Msg}
    (hfactory : c.factory = some factory) : unknownMessage c =
      (.message (.raw ⟨c.header.length, c.header.data,
        (c.protocolTable.nameOf c.header.data).1, c.buffer⟩),
        { c with
          protocolTable := (c.protocolTable.nameOf c.header.data).2
          buffer := [] }) := by
  unfold unknownMessage
  rw [hfactory, Option.bind_some, factory.create_raw]
  rfl

/-- A turn that goes on to the next has taken a header. -/
theorem recvTurn_pending {program : Program Msg} {flag : StreamFlag} {c : Client Msg}
    {s : Incoming} (h : (recvTurn program flag c s).result = none) :
    pending (recvTurn program flag c s).rest < pending s := by
  have hpending := recvRaw_pending MessageHeader.size s
  unfold recvTurn at h ⊢
  simp only at h ⊢
  split at h
  · cases h
  · rename_i hok
    have hlen := recvRaw_full (by decide) hok
    split at h
    · cases h
    · rename_i header _
      have := recvMessage_pending program flag { c with header := header }
        (recvRaw MessageHeader.size s).rest
      have hsize : 0 < MessageHeader.size := by decide
      exact lt_of_le_of_lt this (by omega)

theorem recvLoop_of_some {program : Program Msg} {flag : StreamFlag} {c : Client Msg}
    {s : Incoming} {result : Result Msg} (h : (recvTurn program flag c s).result = some result)
    (n : ℕ) : recvLoop program flag (n + 1) c s =
      (result, (recvTurn program flag c s).client, (recvTurn program flag c s).rest) := by
  simp only [recvLoop, h]

theorem recvLoop_of_none {program : Program Msg} {flag : StreamFlag} {c : Client Msg}
    {s : Incoming} (h : (recvTurn program flag c s).result = none) (n : ℕ) :
    recvLoop program flag (n + 1) c s = recvLoop program flag n
      (recvTurn program flag c s).client (recvTurn program flag c s).rest := by
  rw [recvLoop]
  simp only [h]

/-- The loop does not come to the end of its bound. -/
theorem recvLoop_bound {program : Program Msg} {flag : StreamFlag} : ∀ {m n : ℕ} {c : Client Msg}
    {s : Incoming}, pending s < m → pending s < n →
      recvLoop program flag m c s = recvLoop program flag n c s := by
  intro m
  induction m with
  | zero => exact fun h => absurd h (Nat.not_lt_zero _)
  | succ m ih =>
    intro n c s hm hn
    cases n with
    | zero => exact absurd hn (Nat.not_lt_zero _)
    | succ n =>
      cases h : (recvTurn program flag c s).result with
      | some result => rw [recvLoop_of_some h, recvLoop_of_some h]
      | none =>
        have := recvTurn_pending h
        rw [recvLoop_of_none h, recvLoop_of_none h]
        exact ih (by omega) (by omega)

/-- **A call of `recv`** ends with the first turn of its loop that has a result. -/
theorem recv_of_some {program : Program Msg} {flag : StreamFlag} {c : Client Msg} {s : Incoming}
    {result : Result Msg} (h : (recvTurn program flag c s).result = some result) :
    recv program flag c (some s) =
      (result, (recvTurn program flag c s).client, some (recvTurn program flag c s).rest) := by
  simp only [recv, recvLoop_of_some h]

/-- **A call of `recv`** goes on after a turn without a result. -/
theorem recv_of_none {program : Program Msg} {flag : StreamFlag} {c : Client Msg} {s : Incoming}
    (h : (recvTurn program flag c s).result = none) :
    recv program flag c (some s) = recv program flag (recvTurn program flag c s).client
      (some (recvTurn program flag c s).rest) := by
  simp only [recv]
  rw [recvLoop_of_none h, recvLoop_bound (recvTurn_pending h) (Nat.lt_succ_self _)]

theorem readHeader_bytes (header : MessageHeader) : readHeader header.bytes = some header := by
  unfold readHeader
  rw [dif_pos header.length_bytes, deserializeHeader_eq, MessageHeader.ofBytes_bytes]

/-- The header that the next turn reads, and the stream behind it. -/
def nextMessage (s : Incoming) : Option (MessageHeader × Incoming) :=
  let reading := recvRaw MessageHeader.size s
  match reading.result with
  | .error _ => none
  | .ok () => (readHeader reading.got).map fun header => (header, reading.rest)

theorem recvTurn_of_message (program : Program Msg) (flag : StreamFlag) (c : Client Msg)
    {s rest : Incoming} {header : MessageHeader} (h : nextMessage s = some (header, rest)) :
    recvTurn program flag c s = recvMessage program flag { c with header := header } rest := by
  unfold nextMessage at h
  unfold recvTurn
  cases hresult : (recvRaw MessageHeader.size s).result with
  | error e => simp only [hresult] at h; cases h
  | ok _ =>
    simp only [hresult] at h ⊢
    obtain ⟨header', hheader, heq⟩ := Option.map_eq_some_iff.mp h
    obtain ⟨rfl, rfl⟩ := Prod.mk.inj heq
    simp only [hheader]

/-- Without a header the call fails. -/
theorem recvTurn_of_none (program : Program Msg) (flag : StreamFlag) (c : Client Msg)
    {s : Incoming} (h : nextMessage s = none) :
    (∃ e, (recvTurn program flag c s).result = some (.error e)) ∧
      (recvTurn program flag c s).client = { c with header := {} } := by
  unfold nextMessage at h
  unfold recvTurn
  cases hresult : (recvRaw MessageHeader.size s).result with
  | error e =>
    simp only [hresult]
    exact ⟨⟨.io e, rfl⟩, trivial⟩
  | ok _ =>
    simp only [hresult, Option.map_eq_none_iff] at h ⊢
    simp only [h]
    exact ⟨⟨.invalidMessageHeader, rfl⟩, trivial⟩

theorem nextMessage_carries {header : MessageHeader} {ys : Bytes} {s : Incoming}
    (h : Carries s (header.bytes ++ ys)) :
    ∃ rest, nextMessage s = some (header, rest) ∧ Carries rest ys := by
  obtain ⟨rest, hread, hrest⟩ := recvRaw_carries (by rw [header.length_bytes]; decide) h
  refine ⟨rest, ?_, hrest⟩
  rw [header.length_bytes] at hread
  simp only [nextMessage, hread, readHeader_bytes, Option.map_some]

/-! ## A message class -/

/-- A program with one declared class, whose messages are byte strings. -/
def blobProgram : Program Bytes where
  toData
    | .raw _ => none
    | .declared bytes => some bytes
  fromData _ bytes := some (.declared bytes)
  type
    | .raw _ => RawDataMessage.specifyType
    | .declared _ => 65
  asserts := true

/-- Its factory, with the class under the first number that is not reserved. -/
def blobFactory : ProtoFactory Bytes where
  createrList := (List.replicate 65 none).set 3 (some (.raw {})) ++ [some (.declared [])]
  createsRaw := rfl
  protoTypeMap := [([0x42, 0x6C, 0x6F, 0x62], 65)]

theorem blobFactory_create : blobFactory.create 65 = some (.declared []) := by
  decide

end NekoProto.Communication
