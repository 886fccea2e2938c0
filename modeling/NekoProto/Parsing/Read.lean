import NekoProto.Binary.ParseBounds
import NekoProto.Parsing.Types
import Mathlib.Data.List.Nodup

/-!
# Reading values

`parser_read` over the Binary Reader, one case for each kind of type, with the loops that the
containers share. A read gives the new value of its target; what a failed read leaves in the
target is not kept, since the targets are copies that are dropped then.
-/

namespace NekoProto.Binary.Reader

/-! ## Checkpoints -/

/-- The nodes that a handle leads to. -/
def nodes : InputValue → List NodeId
  | .node parse n => n.all.map fun m => ⟨parse, m.begin⟩
  | .raw parse _ => [⟨parse, 0⟩]
  | .error _ => []

/-- `Checkpoint`. -/
structure Checkpoint where
  offset : ℕ
  remainingAllocation : ℕ
  entries : List (NodeId × Bool)

/-- `checkpoint`. -/
def checkpoint (s : State) (v : InputValue) : Checkpoint where
  offset := s.offset
  remainingAllocation := s.remainingAllocation
  entries := (nodes v).map fun id => (id, decide (id ∈ s.consumed))

/-- `restore`. -/
def restore (mark : Checkpoint) (s : State) : State :=
  { s with
    offset := mark.offset
    remainingAllocation := mark.remainingAllocation
    consumed := s.consumed.filter (fun id => id ∉ mark.entries.map Prod.fst) ++
      (mark.entries.filter Prod.snd).map Prod.fst }

end NekoProto.Binary.Reader

namespace NekoProto.Parsing

open Binary Binary.Reader

/-! ## Errors -/

/-- `parser_context`. -/
def context {α : Type} (text : String) (x : ReadM α) : ReadM α := fun s =>
  match x s with
  | .error (.error e) t => .error (.error { e with msg := text ++ e.msg }) t
  | r => r

/-- The result of a read as a value. A fault is no result. -/
def result {α : Type} (x : ReadM α) : ReadM (Except Error α) := fun s =>
  match x s with
  | .ok a t => .ok (.ok a) t
  | .error (.error e) t => .ok (.error e) t
  | .error stop t => .error stop t

/-- A result, or its error. -/
def orThrow {α : Type} : Except Error α → ReadM α
  | .ok a => pure a
  | .error e => throw (.error e)

/-! ## Names of the wire -/

/-- `"key"`. -/
def keyName : Bytes := [0x6B, 0x65, 0x79]

/-- `"value"`. -/
def valueName : Bytes := [0x76, 0x61, 0x6C, 0x75, 0x65]

/-- `"first"`. -/
def firstName : Bytes := [0x66, 0x69, 0x72, 0x73, 0x74]

/-- `"second"`. -/
def secondName : Bytes := [0x73, 0x65, 0x63, 0x6F, 0x6E, 0x64]

/-! ## Scalars -/

section

variable (inp : Input)

/-- `ReadParser` of an arithmetic type. -/
def readArithmetic (T : Arithmetic) (tags : Tags) (v : InputValue) : ReadM T.Value :=
  match tags.fixedLengthOf T with
  | some size =>
    if size ≠ T.size then
      fail .invalidLength ("Fixed-length arithmetic field requires " ++ toString T.size ++
        " bytes for its C++ type, got " ++ toString size)
    else readFixed inp T v size
  | none => toBasicType inp T v

/-- `ReadParser` of an enumeration: a name of it, of which the map keeps the last value, or else a
value of its underlying type. -/
def readEnumeration (signed : Bool) (width : Width) (names : List (Bytes × BitVec width.bits))
    (tags : Tags) (v : InputValue) : ReadM (BitVec width.bits) := do
  let name ← result (toBasicString inp v)
  match name with
  | .ok name =>
    match names.reverse.find? fun entry => entry.1 = name with
    | some entry => pure entry.2
    | none => fail .invalidType ("Unknown enum name '" ++ nameText name ++ "'")
  | .error _ =>
    context "Failed to parse enum value: " (readArithmetic inp (.integer signed width) tags v)

/-- `ReadParser` of `std::nullptr_t` and of `std::monostate`. -/
def readNull (monostate : Bool) (v : InputValue) : ReadM Unit := do
  let empty ← isEmpty inp v
  if empty then pure ()
  else fail .invalidType (if monostate then "Expected null for monostate" else "Expected null")

/-! ## Nullable values -/

/-- `ReadParser` of `std::optional` and of the pointers, with the text of their errors. -/
def readNullable {α : Type} (text : String) (read : ReadM α) (v : InputValue) :
    ReadM (Option α) := do
  let empty ← isEmpty inp v
  if empty then pure none
  else do
    let value ← context text read
    pure (some value)

/-! ## Arrays -/

section

variable {α : Type} (read : InputValue → α → ReadM α)

/-- The loop of `parser_read_sequence`; `initial` is the value-initialized item, and `insert`
refuses an item that a set holds already. -/
def readItems (initial : α) (insert : List α → α → Option (List α)) (array : InputValue) :
    ℕ → ℕ → List α → ReadM (List α)
  | 0, _, parsed => pure parsed
  | count + 1, index, parsed => do
    let s ← get
    let item ← context ("Failed to parse sequence element " ++ toString index ++ ": ")
      (read (arrayElement inp s array index) initial)
    match insert parsed item with
    | some parsed => readItems initial insert array count (index + 1) parsed
    | none => fail .invalidField ("Duplicate value at sequence element " ++ toString index)

/-- `parser_read_sequence`. -/
def readSequence (initial : α) (insert : List α → α → Option (List α)) (v : InputValue) :
    ReadM (List α) := do
  let array ← toArray inp v
  readItems inp read initial insert array (arraySize array) 0 []

/-- The loop over a fixed array. -/
def readArrayItems (array : InputValue) : ℕ → (values : List α) →
    ReadM { result : List α // result.length = values.length }
  | _, [] => pure ⟨[], rfl⟩
  | index, value :: values => do
    let s ← get
    let value ← context ("Failed to parse fixed array element " ++ toString index ++ ": ")
      (read (arrayElement inp s array index) value)
    let ⟨rest, h⟩ ← readArrayItems array (index + 1) values
    pure ⟨value :: rest, congrArg (· + 1) h⟩

/-- `ReadParser` of `std::array`. -/
def readArray {size : ℕ} (v : InputValue) (old : { values : List α // values.length = size }) :
    ReadM { values : List α // values.length = size } := do
  let array ← toArray inp v
  if arraySize array ≠ size then
    fail .invalidLength ("Expected fixed array with " ++ toString size ++ " elements, got " ++
      toString (arraySize array))
  else do
    let ⟨values, h⟩ ← readArrayItems inp read array 0 old.1
    pure ⟨values, h.trans old.2⟩

end

/-- A set takes an item that it does not hold yet, any other sequence takes every item. -/
def insertItem {α : Type} (unique : Bool) (equivalent : α → α → Bool) (parsed : List α)
    (item : α) : Option (List α) :=
  if unique && parsed.any (equivalent item) then none else some (parsed ++ [item])

/-! ## Objects with fixed fields -/

/-- A field that has to be there, with the text of its errors. -/
def readRequired {α : Type} (object : InputValue) (name : Bytes) (missing text : String)
    (read : InputValue → ReadM α) : ReadM α := do
  let s ← get
  match objectField inp s object name with
  | .error _ => fail .invalidField missing
  | .ok field => context text (read field)

/-- `ReadParser` of `std::pair`. -/
def readPair {α β : Type} (readFirst : InputValue → ReadM α) (readSecond : InputValue → ReadM β)
    (v : InputValue) : ReadM (α × β) := do
  let object ← toObject inp v
  let first ← readRequired inp object firstName "Required pair field 'first' is missing"
    "Failed to parse pair field 'first': " readFirst
  let second ← readRequired inp object secondName "Required pair field 'second' is missing"
    "Failed to parse pair field 'second': " readSecond
  pure (first, second)

/-! ## Maps -/

section

variable {α β : Type}

/-- The loop of `parser_read_key_value_array`. -/
def readEntries (readKey : InputValue → ReadM α) (readValue : InputValue → ReadM β)
    (unique : Bool) (equivalent : α → α → Bool) (array : InputValue) :
    ℕ → ℕ → List (α × β) → ReadM (List (α × β))
  | 0, _, parsed => pure parsed
  | count + 1, index, parsed => do
    let s ← get
    let entry := "Map entry " ++ toString index
    let parse := "Failed to parse map entry " ++ toString index
    let object ← context (parse ++ ": ") (toObject inp (arrayElement inp s array index))
    let key ← readRequired inp object keyName (entry ++ " is missing required field 'key'")
      (parse ++ " key: ") readKey
    let value ← readRequired inp object valueName (entry ++ " is missing required field 'value'")
      (parse ++ " value: ") readValue
    if unique && parsed.any (fun other => equivalent key other.1) then
      fail .invalidField (entry ++ " contains a duplicate key")
    else
      readEntries readKey readValue unique equivalent array count (index + 1)
        (parsed ++ [(key, value)])

/-- `parser_read_key_value_array`. -/
def readEntryMap (readKey : InputValue → ReadM α) (readValue : InputValue → ReadM β)
    (unique : Bool) (equivalent : α → α → Bool) (v : InputValue) : ReadM (List (α × β)) := do
  let array ← toArray inp v
  readEntries inp readKey readValue unique equivalent array (arraySize array) 0 []

/-- The entries of a string-keyed map. -/
abbrev Entries (α : Type) := { entries : List (Bytes × α) // (entries.map Prod.fst).Nodup }

/-- An entry under a new key. -/
def Entries.emplace {α : Type} (entries : Entries α) (name : Bytes) (value : α) :
    Option (Entries α) :=
  if h : name ∈ entries.1.map Prod.fst then none
  else
    some ⟨entries.1 ++ [(name, value)], by
      rw [List.map_append, List.map_singleton, ← List.concat_eq_append]
      exact List.Nodup.concat h entries.2⟩

/-- The callback of `parser_read_string_key_map`, with the result and the entries it captures. -/
def readMember (read : InputValue → ReadM α) (name : Bytes) (field : InputValue) :
    Except Error Unit × Entries α → ReadM (Bool × Except Error Unit × Entries α)
  | (.error e, parsed) => pure (false, .error e, parsed)
  | (.ok (), parsed) => do
    let value ← result
      (context ("Failed to parse map field '" ++ nameText name ++ "': ") (read field))
    match value with
    | .error e => pure (false, .error e, parsed)
    | .ok value =>
      match parsed.emplace name value with
      | some parsed => pure (true, .ok (), parsed)
      | none =>
        pure (false, .error ⟨.invalidField, "Map contains duplicate key '" ++ nameText name ++ "'"⟩,
          parsed)

/-- `parser_read_string_key_map`. The boolean of `forEachObjectMember` is not looked at. -/
def readStringMap (read : InputValue → ReadM α) (v : InputValue) : ReadM (Entries α) := do
  let object ← toObject inp v
  let (_, outcome, parsed) ←
    forEachObjectMember inp object (readMember read) (.ok (), ⟨[], List.nodup_nil⟩)
  let _ ← orThrow outcome
  pure parsed

end

/-! ## Fields of reflected classes -/

/-- `parser_read_missing_field`. -/
def readMissingField (T : Ty) (name : Bytes) (tags : Tags) (old : T.Value) : ReadM T.Value :=
  if tags.skippable then pure old
  else
    match T.setNull with
    | some null => pure null
    | none => fail .invalidField ("Required field '" ++ nameText name ++ "' is missing")

/-- The name of a field on the wire. -/
def Tags.fieldName (tags : Tags) (name : Bytes) : Bytes := tags.name.getD name

/-- A field that was found: it is probed for a null before its own parser reads it. -/
def readPresentField (T : Ty) (name : Bytes) (read : InputValue → T.Value → ReadM T.Value)
    (field : InputValue) (old : T.Value) : ReadM T.Value := do
  let empty ← isEmpty inp field
  match empty, T.setNull with
  | true, some null => pure null
  | _, _ => context ("Failed to parse field '" ++ nameText name ++ "': ") (read field old)

/-- `parser_read_reflect_field`, of a field that is neither ignored nor flattened. -/
def readReflectField (T : Ty) (name : Bytes) (tags : Tags)
    (read : InputValue → T.Value → ReadM T.Value) (v : InputValue) (old : T.Value) :
    ReadM T.Value := do
  let object ← toObject inp v
  let s ← get
  match objectField inp s object (tags.fieldName name) with
  | .error _ => readMissingField T (tags.fieldName name) tags old
  | .ok field => readPresentField inp T (tags.fieldName name) read field old

/-- A field of a raw fixed record. -/
def readRawField (name : Bytes) (tags : Tags) (v : InputValue) : (T : Ty) → ReadM T.Value
  | .enumeration signed width _ =>
    context ("Failed to parse raw fixed field '" ++ nameText name ++ "': ")
      (readArithmetic inp (.integer signed width) tags v)
  | .arithmetic T =>
    context ("Failed to parse raw fixed field '" ++ nameText name ++ "': ")
      (readArithmetic inp T tags v)
  | _ =>
    fail .invalidType ("raw_fixed_data field '" ++ nameText name ++
      "' must be an arithmetic or enum value with a fixed wire width")

/-- The fields of a raw fixed record. -/
def readRawFields : (fields : Fields) → InputValue → fields.Values → ReadM fields.Values
  | .nil, _, _ => pure ()
  | .cons name tags T rest, v, (old, olds) => do
    if tags.ignore then do
      let values ← readRawFields rest v olds
      pure (old, values)
    else if tags.fixedLength.isNone then
      fail .invalidLength ("raw_fixed_data field '" ++ nameText name ++ "' requires fixed_length")
    else do
      let value ← readRawField inp name tags v T
      let v ← next inp v
      let values ← readRawFields rest v olds
      pure (value, values)

/-! ## Variants -/

/-- A try of an alternative, after which the input state is restored. -/
def tryAlternative {α : Type} (read : ReadM α) (v : InputValue) : ReadM Bool := do
  let s ← get
  let tried ← result read
  modify (restore (checkpoint s v))
  match tried with
  | .ok _ => pure true
  | .error _ => pure false

/-! ## All types -/

variable (env : Env)

mutual

/-- `parser_read`: the value read, for a target that holds `old`. -/
def parserRead : (T : Ty) → Tags → InputValue → T.Value → ReadM T.Value
  | .arithmetic T, tags, v, _ => readArithmetic inp T tags v
  | .string, _, v, _ => context "Failed to parse string: " (toBasicString inp v)
  | .enumeration signed width names, tags, v, _ => readEnumeration inp signed width names tags v
  | .null monostate, _, v, _ => readNull inp monostate v
  | .optional T, tags, v, _ =>
    readNullable inp "Failed to parse optional value: " (parserRead T tags v (env.default T)) v
  | .pointer shared T, tags, v, _ =>
    readNullable inp (if shared then "Failed to parse shared_ptr value: "
      else "Failed to parse unique_ptr value: ") (parserRead T tags v (env.default T)) v
  | .sequence unique T, _, v, _ =>
    readSequence inp (parserRead T {}) (env.default T) (insertItem unique (env.equivalent T)) v
  | .array _ T, _, v, old => readArray inp (parserRead T {}) v old
  | .tuple Ts, _, v, old => do
    let array ← toArray inp v
    if arraySize array ≠ Ts.length then
      fail .invalidLength ("Expected tuple with " ++ toString Ts.length ++ " elements, got " ++
        toString (arraySize array))
    else readTuple Ts array 0 old
  | .pair T U, _, v, old =>
    readPair inp (fun field => parserRead T {} field old.1)
      (fun field => parserRead U {} field old.2) v
  | .variant Ts, tags, v, _ =>
    if tags.unionEncoding = .untagged then do
      let (matchCount, matchIndex) ← findAlternatives Ts tags.payload v 0 0 0
      if matchCount = 0 then fail .parseError "No variant alternative matched the input value"
      else if matchCount ≠ 1 then
        fail .parseError "Untagged variant input matches more than one alternative"
      else readAlternative Ts tags.payload v matchIndex
    else do
      let array ← context "Variant must be encoded as [index, value]: " (toArray inp v)
      if arraySize array ≠ 2 then
        fail .invalidLength "Variant array must contain exactly two elements"
      else do
        let s ← get
        let index ← context "Failed to parse variant index: "
          (readArithmetic inp (.integer false .w64) {} (arrayElement inp s array 0))
        let s ← get
        readAlternative Ts tags.payload (arrayElement inp s array 1) (BitVec.toNat index)
  | .stringMap T, _, v, _ =>
    readStringMap inp (fun field => parserRead T {} field (env.default T)) v
  | .entryMap unique K T, _, v, _ =>
    readEntryMap inp (fun field => parserRead K {} field (env.default K))
      (fun field => parserRead T {} field (env.default T)) unique (env.equivalent K) v
  | .object unframed fields, tags, v, old =>
    let parsed := if fields.copyable then old else env.default (.object unframed fields)
    if tags.rawFixedData then
      if isRaw v then readRawFields inp fields v parsed
      else fail .invalidType "raw_fixed_data requires a raw binary input segment"
    else if unframed && !isFramedObject v then readUnframed fields v parsed
    else do
      let _ ← toObject inp v
      readFields fields v parsed
  | .record fields, _, v, old => do
    let parsed := if fields.copyable then old else env.default (.record fields)
    let array ← toArray inp v
    if arraySize array ≠ fields.count then
      fail .invalidLength ("Expected reflected array with " ++ toString fields.count ++
        " elements, got " ++ toString (arraySize array))
    else readRecord fields array 0 0 parsed

/-- The elements of a tuple. -/
def readTuple : (Ts : Tys) → InputValue → ℕ → Ts.Values → ReadM Ts.Values
  | .nil, _, _, _ => pure ()
  | .cons T Ts, array, index, (old, olds) => do
    let s ← get
    let value ← context ("Failed to parse tuple element " ++ toString index ++ ": ")
      (parserRead T {} (arrayElement inp s array index) old)
    let values ← readTuple Ts array (index + 1) olds
    pure (value, values)

/-- `findAlternatives`: the number of alternatives that match, and the index of the last one. -/
def findAlternatives : Alternatives → Tags → InputValue → ℕ → ℕ → ℕ → ReadM (ℕ × ℕ)
  | .one T, tags, v, index, matchCount, matchIndex => do
    let found ← tryAlternative (parserRead T tags v (env.default T)) v
    pure (if found then (matchCount + 1, index) else (matchCount, matchIndex))
  | .cons T Ts, tags, v, index, matchCount, matchIndex => do
    let found ← tryAlternative (parserRead T tags v (env.default T)) v
    if found then findAlternatives Ts tags v (index + 1) (matchCount + 1) index
    else findAlternatives Ts tags v (index + 1) matchCount matchIndex

/-- `readAlternative`. -/
def readAlternative : (Ts : Alternatives) → Tags → InputValue → ℕ → ReadM Ts.Value
  | .one T, tags, v, 0 =>
    context "Failed to parse variant alternative: " (parserRead T tags v (env.default T))
  | .one _, _, _, _ + 1 => fail .invalidIndex "Variant alternative index is out of range"
  | .cons T _, tags, v, 0 => do
    let value ← context "Failed to parse variant alternative: "
      (parserRead T tags v (env.default T))
    pure (.inl value)
  | .cons _ Ts, tags, v, index + 1 => do
    let value ← readAlternative Ts tags v index
    pure (.inr value)

/-- The fields of a reflected class, from an object. -/
def readFields : (fields : Fields) → InputValue → fields.Values → ReadM fields.Values
  | .nil, _, _ => pure ()
  | .cons name tags T rest, v, (old, olds) => do
    let value ←
      if tags.ignore then pure old
      else if tags.flat && T.isObject then readFlat T v old
      else readReflectField inp T name tags (parserRead T tags) v old
    let values ← readFields rest v olds
    pure (value, values)

/-- The fields of a flattened class, from the object that holds them. -/
def readFlat : (T : Ty) → InputValue → T.Value → ReadM T.Value
  | .object _ fields, v, old => do
    let _ ← toObject inp v
    readFields fields v old
  | _, _, old => pure old

/-- The fields of a class without a frame: one value after the other. -/
def readUnframed : (fields : Fields) → InputValue → fields.Values → ReadM fields.Values
  | .nil, _, _ => pure ()
  | .cons name tags T rest, v, (old, olds) =>
    if tags.ignore then do
      let values ← readUnframed rest v olds
      pure (old, values)
    else do
      let value ← result
        (context ("Failed to parse field '" ++ nameText name ++ "': ") (parserRead T tags v old))
      let v ← next inp v
      let value ← orThrow value
      let values ← readUnframed rest v olds
      pure (value, values)

/-- The elements of a reflected class without names. -/
def readRecord : (fields : Fields) → InputValue → ℕ → ℕ → fields.Values → ReadM fields.Values
  | .nil, _, _, _, _ => pure ()
  | .cons _ tags T rest, array, index, elementIndex, (old, olds) =>
    if tags.ignore then do
      let values ← readRecord rest array (index + 1) elementIndex olds
      pure (old, values)
    else do
      let s ← get
      let value ← context ("Failed to parse reflected element " ++ toString index ++ ": ")
        (parserRead T tags (arrayElement inp s array elementIndex) old)
      let values ← readRecord rest array (index + 1) (elementIndex + 1) olds
      pure (value, values)

end

/-! ## Documents -/

/-- `BinaryBackend::read`: the value of a whole document, under the tags of the root. -/
def read (T : Ty) (tags : Tags) (old : T.Value) : ReadM T.Value := do
  if tags.rawFixedData then
    if T.isObject then modify fun s => { s with framed := false, offset := 0 }
    else
      fail .invalidType "raw_fixed_data requires a reflected object with named fixed-width fields"
  let v ← root inp
  let value ← parserRead inp env T tags v old
  let s ← get
  let _ ← orThrow (finish inp s)
  pure value

end

end NekoProto.Parsing
