import NekoProto.Json.Value
import NekoProto.Parsing.Write

/-!
# Reading JSON values

`parser_read` over the reader of RapidJSON documents, one case for each kind of type. The reader
has no state: it looks at a value and never uses it up. It knows neither fixed lengths nor raw
records nor classes without a frame, so the tags for these change nothing.

A read is given what its target holds. It gives the target's new value, or an error with what a
failed read leaves there: the tuples, the pairs and the fixed arrays are read in place.
-/

namespace NekoProto.Json

open Binary Parsing JsonValue
open Binary.Reader (nameText)

/-! ## Errors -/

/-- An error. -/
def fail {α : Type} (code : ErrorCode) (msg : String) : Except Error α := .error ⟨code, msg⟩

/-- `parser_context`. -/
def context {α : Type} (text : String) : Except Error α → Except Error α
  | .error e => .error { e with msg := text ++ e.msg }
  | .ok a => .ok a

/-- A failed read, with what it leaves in its target. -/
structure Failure (α : Type) where
  error : Error
  left : α

/-- A read into a target of type `β`. -/
abbrev ParseM (β : Type) := Except (Failure β)

/-- The result of a read whose target is dropped when it fails. -/
def result {α β : Type} (x : ParseM β α) : Except Error α :=
  x.mapError Failure.error

/-- A result after which the target is as before. -/
def keeping {α β : Type} (old : β) (x : Except Error α) : ParseM β α :=
  x.mapError fun e => ⟨e, old⟩

/-- The read of a part, where `whole` is what the target is with that part. -/
def within {α β γ : Type} (whole : α → β) (x : ParseM α γ) : ParseM β γ :=
  x.mapError fun e => ⟨e.error, whole e.left⟩

/-- `parser_context`, of a read in place. -/
def contextWithin {α β γ : Type} (text : String) (whole : α → β) (x : ParseM α γ) :
    ParseM β γ :=
  x.mapError fun e => ⟨{ e.error with msg := text ++ e.error.msg }, whole e.left⟩

theorem ok_eq_ok {ε α : Type} {a b : α} : (.ok a : Except ε α) = .ok b ↔ a = b :=
  ⟨Except.ok.inj, congrArg Except.ok⟩

section

variable {α β γ : Type}

@[simp] theorem fail_ne_ok {code : ErrorCode} {msg : String} {a : α} : fail code msg ≠ .ok a := by
  intro h
  cases h

@[simp] theorem context_eq_ok {text : String} {x : Except Error α} {a : α} :
    context text x = .ok a ↔ x = .ok a := by
  cases x <;> simp [context]

@[simp] theorem mapError_eq_ok {ε δ : Type} {f : ε → δ} {x : Except ε α} {a : α} :
    x.mapError f = .ok a ↔ x = .ok a := by
  cases x <;> simp [Except.mapError]

@[simp] theorem result_eq_ok {x : ParseM β α} {a : α} : result x = .ok a ↔ x = .ok a :=
  mapError_eq_ok

@[simp] theorem keeping_eq_ok {old : β} {x : Except Error α} {a : α} :
    keeping old x = .ok a ↔ x = .ok a :=
  mapError_eq_ok

@[simp] theorem within_eq_ok {whole : α → β} {x : ParseM α γ} {c : γ} :
    within whole x = .ok c ↔ x = .ok c :=
  mapError_eq_ok

@[simp] theorem contextWithin_eq_ok {text : String} {whole : α → β} {x : ParseM α γ} {c : γ} :
    contextWithin text whole x = .ok c ↔ x = .ok c :=
  mapError_eq_ok

end

/-! ## The reader -/

/-- `toArray`. -/
def toArray : JsonValue → Except Error (List JsonValue)
  | .array elements => .ok elements
  | _ => fail .invalidType "Could not cast to array!"

/-- `toObject`. -/
def toObject : JsonValue → Except Error (List (Bytes × JsonValue))
  | .object members => .ok members
  | _ => fail .invalidType "Could not cast to object!"

/-- `toBasicType<std::string>`. -/
def toBasicString : JsonValue → Except Error Bytes
  | .string value => .ok value
  | _ => fail .invalidType "Expected string"

/-- `toBasicType<bool>`. -/
def toBasicBool : JsonValue → Except Error Bool
  | .bool value => .ok value
  | _ => fail .invalidType "Expected bool"

/-- `toBasicType` of an unsigned type. -/
def toBasicUnsigned (width : Width) : JsonValue → Except Error (BitVec width.bits)
  | .integer z =>
    if z.1 < 0 then fail .invalidType "Expected unsigned int"
    else if 2 ^ width.bits ≤ z.1 then fail .invalidType "Unsigned integer out of range"
    else .ok (BitVec.ofInt width.bits z.1)
  | _ => fail .invalidType "Expected unsigned int"

/-- `toBasicType` of a signed type. -/
def toBasicSigned (width : Width) : JsonValue → Except Error (BitVec width.bits)
  | .integer z =>
    if 2 ^ 63 ≤ z.1 then fail .invalidType "Expected integer"
    else if z.1 < -2 ^ (width.bits - 1) ∨ 2 ^ (width.bits - 1) ≤ z.1 then
      fail .invalidType "integer out of range"
    else .ok (BitVec.ofInt width.bits z.1)
  | _ => fail .invalidType "Expected integer"

section

variable (conv : Conversions)

/-- `toBasicType<double>`. -/
def toBasicDouble : JsonValue → Except Error (BitVec 64)
  | .double value => .ok value
  | .integer z => .ok (conv.toDouble z.1)
  | _ => fail .invalidType "Expected float or double"

/-- `toBasicType` of an arithmetic type. -/
def toBasicType : (T : Arithmetic) → JsonValue → Except Error T.Value
  | .bool, v => toBasicBool v
  | .integer true width, v => toBasicSigned width v
  | .integer false width, v => toBasicUnsigned width v
  | .float, v => (toBasicDouble conv v).map conv.narrow
  | .double, v => toBasicDouble conv v

/-! ## Scalars -/

/-- `ReadParser` of an enumeration: a name of it, of which the map keeps the last value, or else a
value of its underlying type. -/
def readEnumeration (signed : Bool) (width : Width) (names : List (Bytes × BitVec width.bits))
    (v : JsonValue) : Except Error (BitVec width.bits) :=
  match toBasicString v with
  | .ok name =>
    match names.reverse.find? fun entry => entry.1 = name with
    | some entry => .ok entry.2
    | none => fail .invalidType ("Unknown enum name '" ++ nameText name ++ "'")
  | .error _ =>
    context "Failed to parse enum value: " (toBasicType conv (.integer signed width) v)

end

/-- `ReadParser` of `std::nullptr_t` and of `std::monostate`. -/
def readNull (monostate : Bool) (v : JsonValue) : Except Error Unit :=
  if v.isNull then .ok ()
  else fail .invalidType (if monostate then "Expected null for monostate" else "Expected null")

/-- `ReadParser` of `std::optional` and of the pointers, with the text of their errors. -/
def readNullable {α : Type} (text : String) (read : JsonValue → Except Error α) (v : JsonValue) :
    Except Error (Option α) :=
  if v.isNull then .ok none else (context text (read v)).map some

/-! ## Arrays -/

section

variable {α : Type}

/-- The loop of `parser_read_sequence`; `insert` refuses an item that a set holds already. -/
def readItems (read : JsonValue → Except Error α) (insert : List α → α → Option (List α)) :
    ℕ → List JsonValue → List α → Except Error (List α)
  | _, [], parsed => .ok parsed
  | index, v :: elements, parsed => do
    let item ← context ("Failed to parse sequence element " ++ toString index ++ ": ") (read v)
    match insert parsed item with
    | some parsed => readItems read insert (index + 1) elements parsed
    | none => fail .invalidField ("Duplicate value at sequence element " ++ toString index)

/-- `parser_read_sequence`. -/
def readSequence (read : JsonValue → Except Error α) (insert : List α → α → Option (List α))
    (v : JsonValue) : Except Error (List α) := do
  let elements ← toArray v
  readItems read insert 0 elements []

/-- The values of a `std::array`. -/
abbrev FixedArray (α : Type) (size : ℕ) := { values : List α // values.length = size }

theorem length_fixedArray (value old : α) (olds : List α) (left : FixedArray α olds.length) :
    (value :: left.1).length = (old :: olds).length := congrArg (· + 1) left.2

/-- The loop over a fixed array. -/
def readArrayItems (read : JsonValue → α → ParseM α α) :
    ℕ → List JsonValue → (values : List α) →
      ParseM (FixedArray α values.length) (FixedArray α values.length)
  | _, _, [] => .ok ⟨[], List.length_nil⟩
  | index, elements, old :: olds => do
    let value ← contextWithin ("Failed to parse fixed array element " ++ toString index ++ ": ")
      (fun left => ⟨left :: olds, rfl⟩) (read (elements.headD .null) old)
    let values ← within (fun left => ⟨value :: left.1, length_fixedArray value old olds left⟩)
      (readArrayItems read (index + 1) elements.tail olds)
    .ok ⟨value :: values.1, length_fixedArray value old olds values⟩

/-- `ReadParser` of `std::array`. -/
def readArray {size : ℕ} (read : JsonValue → α → ParseM α α) (v : JsonValue)
    (old : FixedArray α size) : ParseM (FixedArray α size) (FixedArray α size) := do
  let elements ← keeping old (toArray v)
  if elements.length ≠ size then
    keeping old (fail .invalidLength ("Expected fixed array with " ++ toString size ++
      " elements, got " ++ toString elements.length))
  else do
    let values ← within (fun left => ⟨left.1, left.2.trans old.2⟩)
      (readArrayItems read 0 elements old.1)
    .ok ⟨values.1, values.2.trans old.2⟩

end

/-! ## Objects with fixed fields -/

/-- A field that has to be there, with the text of its errors. -/
def readRequired {α β : Type} (whole : α → β) (members : List (Bytes × JsonValue)) (name : Bytes)
    (missing text : String) (read : JsonValue → α → ParseM α α) (old : α) : ParseM β α :=
  match findMember name members with
  | none => keeping (whole old) (fail .invalidField missing)
  | some field => contextWithin text whole (read field old)

/-- `ReadParser` of `std::pair`. -/
def readPair {α β : Type} (readFirst : JsonValue → α → ParseM α α)
    (readSecond : JsonValue → β → ParseM β β) (v : JsonValue) (old : α × β) :
    ParseM (α × β) (α × β) := do
  let members ← keeping old (toObject v)
  let first ← readRequired (fun left => (left, old.2)) members firstName
    "Required pair field 'first' is missing" "Failed to parse pair field 'first': " readFirst old.1
  let second ← readRequired (fun left => (first, left)) members secondName
    "Required pair field 'second' is missing" "Failed to parse pair field 'second': " readSecond
    old.2
  .ok (first, second)

/-! ## Maps -/

section

variable {α β : Type}

/-- The loop of `parser_read_key_value_array`. -/
def readEntries (readKey : JsonValue → α → ParseM α α) (initialKey : α)
    (readValue : JsonValue → β → ParseM β β) (initialValue : β) (unique : Bool)
    (equivalent : α → α → Bool) :
    ℕ → List JsonValue → List (α × β) → Except Error (List (α × β))
  | _, [], parsed => .ok parsed
  | index, v :: elements, parsed => do
    let entry := "Map entry " ++ toString index
    let parse := "Failed to parse map entry " ++ toString index
    let members ← context (parse ++ ": ") (toObject v)
    let key ← result (readRequired id members keyName
      (entry ++ " is missing required field 'key'") (parse ++ " key: ") readKey initialKey)
    let value ← result (readRequired id members valueName
      (entry ++ " is missing required field 'value'") (parse ++ " value: ") readValue initialValue)
    if unique && parsed.any (fun other => equivalent key other.1) then
      fail .invalidField (entry ++ " contains a duplicate key")
    else
      readEntries readKey initialKey readValue initialValue unique equivalent (index + 1) elements
        (parsed ++ [(key, value)])

/-- `parser_read_key_value_array`. -/
def readEntryMap (readKey : JsonValue → α → ParseM α α) (initialKey : α)
    (readValue : JsonValue → β → ParseM β β) (initialValue : β) (unique : Bool)
    (equivalent : α → α → Bool) (v : JsonValue) : Except Error (List (α × β)) := do
  let elements ← toArray v
  readEntries readKey initialKey readValue initialValue unique equivalent 0 elements []

/-- The callback of `parser_read_string_key_map`, for the members one after the other. -/
def readMembers (read : JsonValue → Except Error α) :
    List (Bytes × JsonValue) → Entries α → Except Error (Entries α)
  | [], parsed => .ok parsed
  | (name, field) :: members, parsed => do
    let value ← context ("Failed to parse map field '" ++ nameText name ++ "': ") (read field)
    match parsed.emplace name value with
    | some parsed => readMembers read members parsed
    | none => fail .invalidField ("Map contains duplicate key '" ++ nameText name ++ "'")

/-- `parser_read_string_key_map`. -/
def readStringMap (read : JsonValue → Except Error α) (v : JsonValue) :
    Except Error (Entries α) := do
  let members ← toObject v
  readMembers read members ⟨[], List.nodup_nil⟩

end

/-! ## Fields of reflected classes -/

section

variable {α : Type}

/-- `parser_read_missing_field`, where `null` is the null of an optional-like type. -/
def readMissingField (null : Option α) (name : Bytes) (tags : Tags) (old : α) : ParseM α α :=
  if tags.skippable then .ok old
  else
    match null with
    | some null => .ok null
    | none =>
      keeping old (fail .invalidField ("Required field '" ++ nameText name ++ "' is missing"))

/-- A field that was found: it is probed for a null before its own parser reads it. -/
def readPresentField (null : Option α) (name : Bytes) (read : JsonValue → α → ParseM α α)
    (field : JsonValue) (old : α) : ParseM α α :=
  match field.isNull, null with
  | true, some null => .ok null
  | _, _ =>
    contextWithin ("Failed to parse field '" ++ nameText name ++ "': ") id (read field old)

/-- `parser_read_reflect_field`, of a field that is neither ignored nor flattened. -/
def readReflectField (null : Option α) (name : Bytes) (tags : Tags)
    (read : JsonValue → α → ParseM α α) (v : JsonValue) (old : α) : ParseM α α := do
  let members ← keeping old (toObject v)
  match findMember (tags.fieldName name) members with
  | none => readMissingField null (tags.fieldName name) tags old
  | some field => readPresentField null (tags.fieldName name) read field old

end

/-! ## All types -/

section

variable (conv : Conversions) (env : Env)

mutual

/-- `parser_read`, for a target that holds `old`. -/
def parserRead : (T : Ty) → Tags → JsonValue → T.Value → ParseM T.Value T.Value
  | .arithmetic T, _, v, old => keeping old (toBasicType conv T v)
  | .string, _, v, old => keeping old (context "Failed to parse string: " (toBasicString v))
  | .enumeration signed width names, _, v, old =>
    keeping old (readEnumeration conv signed width names v)
  | .null monostate, _, v, old => keeping old (readNull monostate v)
  | .optional T, tags, v, old =>
    keeping old (readNullable "Failed to parse optional value: "
      (fun v => result (parserRead T tags v (env.default T))) v)
  | .pointer shared T, tags, v, old =>
    keeping old (readNullable (if shared then "Failed to parse shared_ptr value: "
      else "Failed to parse unique_ptr value: ")
      (fun v => result (parserRead T tags v (env.default T))) v)
  | .sequence unique T, _, v, old =>
    keeping old (readSequence (fun v => result (parserRead T {} v (env.default T)))
      (insertItem unique (env.equivalent T)) v)
  | .array _ T, _, v, old => readArray (parserRead T {}) v old
  | .tuple Ts, _, v, old => do
    let elements ← keeping old (toArray v)
    if elements.length ≠ Ts.length then
      keeping old (fail .invalidLength ("Expected tuple with " ++ toString Ts.length ++
        " elements, got " ++ toString elements.length))
    else readTuple Ts 0 elements old
  | .pair T U, _, v, old => readPair (parserRead T {}) (parserRead U {}) v old
  | .variant Ts, tags, v, old => keeping old <|
    if tags.unionEncoding = .untagged then
      let found := findAlternatives Ts tags.payload v 0 0 0
      if found.1 = 0 then fail .parseError "No variant alternative matched the input value"
      else if found.1 ≠ 1 then
        fail .parseError "Untagged variant input matches more than one alternative"
      else readAlternative Ts tags.payload v found.2
    else do
      let elements ← context "Variant must be encoded as [index, value]: " (toArray v)
      if elements.length ≠ 2 then
        fail .invalidLength "Variant array must contain exactly two elements"
      else do
        let index ← context "Failed to parse variant index: "
          (toBasicUnsigned .w64 (elements.headD .null))
        readAlternative Ts tags.payload (elements.tail.headD .null) index.toNat
  | .stringMap T, _, v, old =>
    keeping old (readStringMap (fun field => result (parserRead T {} field (env.default T))) v)
  | .entryMap unique K T, _, v, old =>
    keeping old (readEntryMap (parserRead K {}) (env.default K) (parserRead T {}) (env.default T)
      unique (env.equivalent K) v)
  | .object unframed fields, _, v, old => keeping old do
    let _ ← toObject v
    result (readFields fields v
      (if fields.copyable then old else env.default (.object unframed fields)))
  | .record fields, _, v, old => keeping old do
    let elements ← toArray v
    if elements.length ≠ fields.count then
      fail .invalidLength ("Expected reflected array with " ++ toString fields.count ++
        " elements, got " ++ toString elements.length)
    else
      result (readRecord fields elements 0
        (if fields.copyable then old else env.default (.record fields)))

/-- The elements of a tuple. -/
def readTuple : (Ts : Tys) → ℕ → List JsonValue → Ts.Values → ParseM Ts.Values Ts.Values
  | .nil, _, _, _ => .ok ()
  | .cons T Ts, index, elements, (old, olds) => do
    let value ← contextWithin ("Failed to parse tuple element " ++ toString index ++ ": ")
      (fun left => (left, olds)) (parserRead T {} (elements.headD .null) old)
    let values ← within (fun left => (value, left)) (readTuple Ts (index + 1) elements.tail olds)
    .ok (value, values)

/-- `findAlternatives`: the number of alternatives that match, and the index of the last one. -/
def findAlternatives : Alternatives → Tags → JsonValue → ℕ → ℕ → ℕ → ℕ × ℕ
  | .one T, tags, v, index, matchCount, matchIndex =>
    if (parserRead T tags v (env.default T)).isOk then (matchCount + 1, index)
    else (matchCount, matchIndex)
  | .cons T Ts, tags, v, index, matchCount, matchIndex =>
    if (parserRead T tags v (env.default T)).isOk then
      findAlternatives Ts tags v (index + 1) (matchCount + 1) index
    else findAlternatives Ts tags v (index + 1) matchCount matchIndex

/-- `readAlternative`. -/
def readAlternative : (Ts : Alternatives) → Tags → JsonValue → ℕ → Except Error Ts.Value
  | .one T, tags, v, 0 =>
    context "Failed to parse variant alternative: " (result (parserRead T tags v (env.default T)))
  | .one _, _, _, _ + 1 => fail .invalidIndex "Variant alternative index is out of range"
  | .cons T _, tags, v, 0 => do
    let value ← context "Failed to parse variant alternative: "
      (result (parserRead T tags v (env.default T)))
    .ok (.inl value)
  | .cons _ Ts, tags, v, index + 1 => do
    let value ← readAlternative Ts tags v index
    .ok (.inr value)

/-- The fields of a reflected class, from an object. -/
def readFields : (fields : Fields) → JsonValue → fields.Values → ParseM fields.Values fields.Values
  | .nil, _, _ => .ok ()
  | .cons name tags T rest, v, (old, olds) => do
    let value ← within (fun left => (left, olds))
      (if tags.ignore then .ok old
      else if tags.flat && T.isObject then readFlat T v old
      else readReflectField T.setNull name tags (parserRead T tags) v old)
    let values ← within (fun left => (value, left)) (readFields rest v olds)
    .ok (value, values)

/-- The fields of a flattened class, from the object that holds them. -/
def readFlat : (T : Ty) → JsonValue → T.Value → ParseM T.Value T.Value
  | .object _ fields, v, old => do
    let _ ← keeping old (toObject v)
    readFields fields v old
  | _, _, old => .ok old

/-- The elements of a reflected class without names. -/
def readRecord : (fields : Fields) → List JsonValue → ℕ → fields.Values →
    ParseM fields.Values fields.Values
  | .nil, _, _, _ => .ok ()
  | .cons _ tags T rest, elements, index, (old, olds) =>
    if tags.ignore then do
      let values ← within (fun left => (old, left)) (readRecord rest elements (index + 1) olds)
      .ok (old, values)
    else do
      let value ← contextWithin ("Failed to parse reflected element " ++ toString index ++ ": ")
        (fun left => (left, olds)) (parserRead T tags (elements.headD .null) old)
      let values ← within (fun left => (value, left))
        (readRecord rest elements.tail (index + 1) olds)
      .ok (value, values)

end

end

end NekoProto.Json
