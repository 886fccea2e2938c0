import NekoProto.Lib.InPlace
import NekoProto.Parsing.Read

/-!
# Reading values, for any reader

`parser_read<R>` over a reader `R` that is a parameter (`Backend`), for a program whose classes have
any traits (`Program`). A read is given what its target holds; it gives the target's new value, or
an error with what a failed read leaves there.

A target is read in place if it is a fixed array, a tuple, a pair or a flattened class. A reflected
class is read into a copy of the target, or into a value-initialized object, or in place
(`Strategy`). Everything else is read into a new value.
-/

namespace NekoProto.Generic

open Binary Parsing InPlace
open Binary.Reader (nameText)

/-! ## Readers -/

/-- What a reader has that reads values one after the other. -/
structure Stream (State InputValue : Type) where
  isRaw : InputValue → Bool
  isFramedObject : InputValue → Bool
  next : InputValue → EStateM Stop State InputValue

/-- A reader: its types and static functions, with the state they share. -/
structure Backend where
  State : Type
  InputValue : Type
  InputArray : Type
  InputObject : Type
  toArray : Tags → InputValue → EStateM Stop State InputArray
  toObject : Tags → InputValue → EStateM Stop State InputObject
  toBasicType : (T : Arithmetic) → Tags → InputValue → EStateM Stop State T.Value
  toBasicString : Tags → InputValue → EStateM Stop State Bytes
  isEmpty : Tags → InputValue → EStateM Stop State Bool
  arraySize : InputArray → EStateM Stop State ℕ
  arrayElement : InputArray → ℕ → EStateM Stop State InputValue
  objectField : Tags → InputObject → Bytes → EStateM Stop State (Except Error InputValue)
  forEachObjectMember : {β : Type} → Tags → InputObject →
    (Bytes → InputValue → β → EStateM Stop State (Bool × β)) → β → EStateM Stop State (Bool × β)
  toFixedBasicType : Option ((T : Arithmetic) → Tags → InputValue → ℕ →
    EStateM Stop State T.Value)
  stream : Option (Stream State InputValue)
  /-- `checkpoint` of the first state, and `restore` in the second one. -/
  restore : Option (State → InputValue → State → State)

namespace Backend

variable (R : Backend)

/-- A computation without a target. -/
abbrev Op := EStateM Stop R.State

/-- A read into a target of type `β`. -/
abbrev ParseM (β : Type) := TargetM Stop R.State β

end Backend

/-! ## Errors -/

/-- An error under a longer text. -/
def describe (text : String) : Stop → Stop
  | .error e => .error { e with msg := text ++ e.msg }
  | stop => stop

/-- `parser_error`. -/
def fail {σ α : Type} (code : ErrorCode) (msg : String) : EStateM Stop σ α :=
  throw (.error ⟨code, msg⟩)

/-- `parser_context`. -/
def context {σ α : Type} (text : String) (x : EStateM Stop σ α) : EStateM Stop σ α :=
  EStateM.adaptExcept (describe text) x

/-- `parser_context`, of a read into a target. -/
def contextOf {σ β α : Type} (text : String) (x : TargetM Stop σ β α) : TargetM Stop σ β α :=
  rename (describe text) x

/-- The result of a computation as a value. A fault is no result. -/
def result {σ α : Type} (x : EStateM Stop σ α) : EStateM Stop σ (Except Error α) := fun s =>
  match x s with
  | .ok a t => .ok (.ok a) t
  | .error (.error e) t => .ok (.error e) t
  | .error stop t => .error stop t

/-- A result, or its error. -/
def orThrow {σ α : Type} : Except Error α → EStateM Stop σ α
  | .ok a => pure a
  | .error e => throw (.error e)

/-- The result of a read, with what its target holds then. -/
def settle {σ α : Type} (x : TargetM Stop σ α α) : TargetM Stop σ α (Except Error Unit × α) :=
  fun s =>
  match x s with
  | .ok a t => .ok (.ok (), a) t
  | .error ⟨.error e, left⟩ t => .ok (.error e, left) t
  | .error failure t => .error failure t

/-! ## Programs -/

/-- What the parsers take from the program, with the traits of its types. -/
structure Program extends Env where
  copyConstructible : Ty → Bool
  moveAssignable : Ty → Bool
  defaultConstructible : Ty → Bool

/-- A program whose classes have the traits that their fields give them. -/
def Program.ofEnv (env : Env) : Program :=
  { env with
    copyConstructible := Ty.copyable
    moveAssignable := fun _ => true
    defaultConstructible := fun _ => true }

/-- Where the parser of a reflected class reads to. -/
inductive Strategy
  | copy | fresh | inPlace
  deriving DecidableEq, Repr

namespace Program

variable (P : Program)

/-- The choice of `ReadParser` of a reflected class. -/
def strategy (T : Ty) : Strategy :=
  if P.moveAssignable T && P.copyConstructible T then .copy
  else if P.moveAssignable T && P.defaultConstructible T then .fresh
  else .inPlace

/-- `parsed`, before it is read: the working object. -/
def working (T : Ty) (old : T.Value) : T.Value :=
  match P.strategy T with
  | .fresh => P.default T
  | _ => old

/-- `optional_like_type<T>::set_null`, where `T` is optional-like. -/
def setNull : (T : Ty) → Option T.Value
  | .optional T => if P.copyConstructible T then some none else none
  | .variant Ts => Ts.monostate
  | _ => none

/-- `ReadParser` of a reflected class: what is read into `parsed` is committed when it succeeds. -/
def readReflected {σ : Type} (T : Ty) (readInPlace : T.Value → TargetM Stop σ T.Value T.Value)
    (old : T.Value) : TargetM Stop σ T.Value T.Value :=
  match P.strategy T with
  | .copy => keeping old (dropping (readInPlace old))
  | .fresh => keeping old (dropping (readInPlace (P.default T)))
  | .inPlace => readInPlace old

end Program

namespace Backend

variable (R : Backend)

/-! ## Scalars -/

/-- `ReadParser` of an arithmetic type. -/
def readArithmetic (T : Arithmetic) (tags : Tags) (v : R.InputValue) : R.Op T.Value :=
  match tags.fixedLengthOf T, R.toFixedBasicType with
  | some size, some toFixedBasicType =>
    if size ≠ T.size then
      fail .invalidLength ("Fixed-length arithmetic field requires " ++ toString T.size ++
        " bytes for its C++ type, got " ++ toString size)
    else toFixedBasicType T tags v size
  | _, _ => R.toBasicType T tags v

/-- `ReadParser` of an enumeration: a name of it, of which the map keeps the last value, or else a
value of its underlying type. -/
def readEnumeration (signed : Bool) (width : Width) (names : List (Bytes × BitVec width.bits))
    (tags : Tags) (v : R.InputValue) : R.Op (BitVec width.bits) := do
  let name ← result (R.toBasicString tags v)
  match name with
  | .ok name =>
    match names.reverse.find? fun entry => entry.1 = name with
    | some entry => pure entry.2
    | none => fail .invalidType ("Unknown enum name '" ++ nameText name ++ "'")
  | .error _ =>
    context "Failed to parse enum value: " (R.readArithmetic (.integer signed width) tags v)

/-- `ReadParser` of `std::nullptr_t` and of `std::monostate`. -/
def readNull (monostate : Bool) (tags : Tags) (v : R.InputValue) : R.Op Unit := do
  let empty ← R.isEmpty tags v
  if empty then pure ()
  else fail .invalidType (if monostate then "Expected null for monostate" else "Expected null")

/-- `ReadParser` of `std::optional` and of the pointers, with the text of their errors. -/
def readNullable {α : Type} (text : String) (tags : Tags) (read : R.Op α) (v : R.InputValue) :
    R.Op (Option α) := do
  let empty ← R.isEmpty tags v
  if empty then pure none
  else do
    let value ← context text read
    pure (some value)

/-! ## Arrays -/

section

variable {α : Type}

/-- The loop of `parser_read_sequence`; `insert` refuses an item that a set holds already. -/
def readItems (read : R.InputValue → R.Op α) (insert : List α → α → Option (List α))
    (array : R.InputArray) : ℕ → ℕ → List α → R.Op (List α)
  | 0, _, parsed => pure parsed
  | count + 1, index, parsed => do
    let element ← R.arrayElement array index
    let item ← context ("Failed to parse sequence element " ++ toString index ++ ": ")
      (read element)
    match insert parsed item with
    | some parsed => readItems read insert array count (index + 1) parsed
    | none => fail .invalidField ("Duplicate value at sequence element " ++ toString index)

/-- `parser_read_sequence`. -/
def readSequence (tags : Tags) (read : R.InputValue → R.Op α)
    (insert : List α → α → Option (List α)) (v : R.InputValue) : R.Op (List α) := do
  let array ← R.toArray tags v
  let size ← R.arraySize array
  R.readItems read insert array size 0 []

/-- An element of an array, with the text of its errors. -/
def readElement (text : String) (array : R.InputArray) (index : ℕ)
    (read : R.InputValue → α → R.ParseM α α) (old : α) : R.ParseM α α := do
  let element ← keeping old (R.arrayElement array index)
  contextOf text (read element old)

/-- The values of a `std::array`. -/
abbrev Fixed (α : Type) (size : ℕ) := { values : List α // values.length = size }

/-- A value in front of those of a shorter array. -/
def Fixed.cons {olds : List α} (old value : α) (left : Fixed α olds.length) :
    Fixed α (old :: olds).length :=
  ⟨value :: left.1, congrArg (· + 1) left.2⟩

/-- The loop over a fixed array. -/
def readArrayItems (read : R.InputValue → α → R.ParseM α α) (array : R.InputArray) :
    ℕ → (values : List α) → R.ParseM (Fixed α values.length) (Fixed α values.length)
  | _, [] => pure ⟨[], rfl⟩
  | index, old :: olds =>
    inTurn (Fixed.cons old)
      (R.readElement ("Failed to parse fixed array element " ++ toString index ++ ": ") array
        index read old) id ⟨olds, rfl⟩
      fun _ => readArrayItems read array (index + 1) olds

theorem readArrayItems_cons {read : R.InputValue → α → R.ParseM α α} {array : R.InputArray}
    {index : ℕ} {old : α} {olds : List α} :
    R.readArrayItems read array index (old :: olds) =
      inTurn (Fixed.cons old)
        (R.readElement ("Failed to parse fixed array element " ++ toString index ++ ": ") array
          index read old) id ⟨olds, rfl⟩
        fun _ => R.readArrayItems read array (index + 1) olds := rfl

/-- `ReadParser` of `std::array`. -/
def readArray {size : ℕ} (tags : Tags) (read : R.InputValue → α → R.ParseM α α)
    (v : R.InputValue) (old : Fixed α size) : R.ParseM (Fixed α size) (Fixed α size) := do
  let array ← keeping old (R.toArray tags v)
  let actualSize ← keeping old (R.arraySize array)
  if actualSize ≠ size then
    keeping old (fail .invalidLength ("Expected fixed array with " ++ toString size ++
      " elements, got " ++ toString actualSize))
  else do
    let values ← within (fun left => ⟨left.1, left.2.trans old.2⟩)
      (R.readArrayItems read array 0 old.1)
    pure ⟨values.1, values.2.trans old.2⟩

end

/-! ## Objects with fixed fields -/

/-- A field that has to be there, with the text of its errors. -/
def readRequired {α : Type} (object : R.InputObject) (name : Bytes) (missing text : String)
    (read : R.InputValue → α → R.ParseM α α) (old : α) : R.ParseM α α := do
  let field ← keeping old (R.objectField {} object name)
  match field with
  | .error _ => keeping old (fail .invalidField missing)
  | .ok field => contextOf text (read field old)

/-- `ReadParser` of `std::pair`. -/
def readPair {α β : Type} (tags : Tags) (readFirst : R.InputValue → α → R.ParseM α α)
    (readSecond : R.InputValue → β → R.ParseM β β) (v : R.InputValue) (old : α × β) :
    R.ParseM (α × β) (α × β) := do
  let object ← keeping old (R.toObject tags v)
  inTurn Prod.mk
    (R.readRequired object firstName "Required pair field 'first' is missing"
      "Failed to parse pair field 'first': " readFirst old.1) id old.2
    fun _ => R.readRequired object secondName "Required pair field 'second' is missing"
      "Failed to parse pair field 'second': " readSecond old.2

/-! ## Maps -/

section

variable {α β : Type}

/-- The loop of `parser_read_key_value_array`. -/
def readEntries (readKey : R.InputValue → α → R.ParseM α α) (initialKey : α)
    (readValue : R.InputValue → β → R.ParseM β β) (initialValue : β) (unique : Bool)
    (equivalent : α → α → Bool) (array : R.InputArray) :
    ℕ → ℕ → List (α × β) → R.Op (List (α × β))
  | 0, _, parsed => pure parsed
  | count + 1, index, parsed => do
    let entry := "Map entry " ++ toString index
    let parse := "Failed to parse map entry " ++ toString index
    let element ← R.arrayElement array index
    let object ← context (parse ++ ": ") (R.toObject {} element)
    let key ← dropping (R.readRequired object keyName
      (entry ++ " is missing required field 'key'") (parse ++ " key: ") readKey initialKey)
    let value ← dropping (R.readRequired object valueName
      (entry ++ " is missing required field 'value'") (parse ++ " value: ") readValue
      initialValue)
    if unique && parsed.any (fun other => equivalent key other.1) then
      fail .invalidField (entry ++ " contains a duplicate key")
    else
      readEntries readKey initialKey readValue initialValue unique equivalent array count
        (index + 1) (parsed ++ [(key, value)])

/-- `parser_read_key_value_array`. -/
def readEntryMap (tags : Tags) (readKey : R.InputValue → α → R.ParseM α α) (initialKey : α)
    (readValue : R.InputValue → β → R.ParseM β β) (initialValue : β) (unique : Bool)
    (equivalent : α → α → Bool) (v : R.InputValue) : R.Op (List (α × β)) := do
  let array ← R.toArray tags v
  let size ← R.arraySize array
  R.readEntries readKey initialKey readValue initialValue unique equivalent array size 0 []

/-- The callback of `parser_read_string_key_map`, with the result and the entries it captures. -/
def readMember (read : R.InputValue → R.Op α) (name : Bytes) (field : R.InputValue) :
    Except Error Unit × Entries α → R.Op (Bool × Except Error Unit × Entries α)
  | (.error e, parsed) => pure (false, .error e, parsed)
  | (.ok (), parsed) => do
    let value ← result
      (context ("Failed to parse map field '" ++ nameText name ++ "': ") (read field))
    match value with
    | .error e => pure (false, .error e, parsed)
    | .ok value =>
      match parsed.emplace name value with
      | some parsed => pure (true, .ok (), parsed)
      | none =>
        pure (false, .error ⟨.invalidField, "Map contains duplicate key '" ++ nameText name ++ "'"⟩,
          parsed)

/-- `parser_read_string_key_map`. The boolean of `forEachObjectMember` is not looked at. -/
def readStringMap (tags : Tags) (read : R.InputValue → R.Op α) (v : R.InputValue) :
    R.Op (Entries α) := do
  let object ← R.toObject tags v
  let (_, outcome, parsed) ←
    R.forEachObjectMember tags object (R.readMember read) (.ok (), ⟨[], List.nodup_nil⟩)
  let _ ← orThrow outcome
  pure parsed

end

/-! ## Fields of reflected classes -/

section

variable {α : Type}

/-- `parser_read_missing_field`, where `null` is the null of an optional-like type. -/
def readMissingField (null : Option α) (name : Bytes) (tags : Tags) (old : α) : R.ParseM α α :=
  if tags.skippable then pure old
  else
    match null with
    | some null => pure null
    | none =>
      keeping old (fail .invalidField ("Required field '" ++ nameText name ++ "' is missing"))

/-- A field that was found: it is probed for a null before its own parser reads it. -/
def readPresentField (null : Option α) (name : Bytes) (tags : Tags)
    (read : R.InputValue → α → R.ParseM α α) (field : R.InputValue) (old : α) : R.ParseM α α := do
  let empty ← keeping old (R.isEmpty tags field)
  match empty, null with
  | true, some null => pure null
  | _, _ => contextOf ("Failed to parse field '" ++ nameText name ++ "': ") (read field old)

/-- `parser_read_reflect_field`, of a field that is neither ignored nor flattened. -/
def readReflectField (null : Option α) (name : Bytes) (tags : Tags)
    (read : R.InputValue → α → R.ParseM α α) (v : R.InputValue) (old : α) : R.ParseM α α := do
  let object ← keeping old (R.toObject {} v)
  let field ← keeping old (R.objectField tags object (tags.fieldName name))
  match field with
  | .error _ => R.readMissingField null (tags.fieldName name) tags old
  | .ok field => R.readPresentField null (tags.fieldName name) tags read field old

/-- A value of a class without a frame, and the handle behind it, which moves on also when the
value is refused. -/
def readUnframedField (stream : Stream R.State R.InputValue) (name : Bytes) (tags : Tags)
    (read : R.InputValue → α → R.ParseM α α) (v : R.InputValue) (old : α) :
    R.ParseM α (α × R.InputValue) :=
  if tags.ignore then pure (old, v)
  else do
    let (outcome, value) ←
      settle (contextOf ("Failed to parse field '" ++ nameText name ++ "': ") (read v old))
    let v ← keeping value (stream.next v)
    let _ ← keeping value (orThrow outcome)
    pure (value, v)

end

/-- A field of a raw fixed record. -/
def readRawField (name : Bytes) (tags : Tags) (v : R.InputValue) : (T : Ty) → R.Op T.Value
  | .enumeration signed width _ =>
    context ("Failed to parse raw fixed field '" ++ nameText name ++ "': ")
      (R.readArithmetic (.integer signed width) tags v)
  | .arithmetic T =>
    context ("Failed to parse raw fixed field '" ++ nameText name ++ "': ")
      (R.readArithmetic T tags v)
  | _ =>
    fail .invalidType ("raw_fixed_data field '" ++ nameText name ++
      "' must be an arithmetic or enum value with a fixed wire width")

/-- A field of a raw fixed record, and the handle behind it. -/
def readRawFieldNext (stream : Stream R.State R.InputValue) (name : Bytes) (tags : Tags) (T : Ty)
    (v : R.InputValue) (old : T.Value) : R.ParseM T.Value (T.Value × R.InputValue) :=
  if tags.ignore then pure (old, v)
  else if tags.fixedLength.isNone then
    keeping old (fail .invalidLength
      ("raw_fixed_data field '" ++ nameText name ++ "' requires fixed_length"))
  else do
    let value ← keeping old (R.readRawField name tags v T)
    let v ← keeping value (stream.next v)
    pure (value, v)

/-- The fields of a raw fixed record. -/
def readRawFields (stream : Stream R.State R.InputValue) :
    (fields : Fields) → R.InputValue → fields.Values → R.ParseM fields.Values fields.Values
  | .nil, _, _ => pure ()
  | .cons name tags T rest, v, (old, olds) =>
    inTurn Prod.mk (R.readRawFieldNext stream name tags T v old) Prod.fst olds
      fun field => readRawFields stream rest field.2 olds

/-! ## Variants -/

/-- `tryAlternative`: the input state is restored after it, if the reader can do that. -/
def tryAlternative {α : Type} (read : R.Op α) (v : R.InputValue) : R.Op Bool := do
  let s ← get
  let tried ← result read
  match R.restore with
  | some restore => modify (restore s v)
  | none => pure ()
  match tried with
  | .ok _ => pure true
  | .error _ => pure false

/-! ## All types -/

/-- How a reflected class with names stands in the input. -/
inductive Layout
  | raw (stream : Stream R.State R.InputValue)
  | refused
  | unframed (stream : Stream R.State R.InputValue)
  | framed

/-- The choice of `readInPlace`. -/
def layout (unframed : Bool) (tags : Tags) (v : R.InputValue) : R.Layout :=
  match R.stream with
  | none => .framed
  | some stream =>
    if tags.rawFixedData then if stream.isRaw v then .raw stream else .refused
    else if unframed && !stream.isFramedObject v then .unframed stream
    else .framed

variable (P : Program)

mutual

/-- `parser_read<R>`, for a target that holds `old`. -/
def parserRead : (T : Ty) → Tags → R.InputValue → T.Value → R.ParseM T.Value T.Value
  | .arithmetic T, tags, v, old => keeping old (R.readArithmetic T tags v)
  | .string, tags, v, old =>
    keeping old (context "Failed to parse string: " (R.toBasicString tags v))
  | .enumeration signed width names, tags, v, old =>
    keeping old (R.readEnumeration signed width names tags v)
  | .null monostate, tags, v, old => keeping old (R.readNull monostate tags v)
  | .optional T, tags, v, old =>
    keeping old (R.readNullable "Failed to parse optional value: " tags
      (dropping (parserRead T tags v (P.default T))) v)
  | .pointer shared T, tags, v, old =>
    keeping old (R.readNullable (if shared then "Failed to parse shared_ptr value: "
      else "Failed to parse unique_ptr value: ") tags
      (dropping (parserRead T tags v (P.default T))) v)
  | .sequence unique T, tags, v, old =>
    keeping old (R.readSequence tags (fun v => dropping (parserRead T {} v (P.default T)))
      (insertItem unique (P.equivalent T)) v)
  | .array _ T, tags, v, old => R.readArray tags (parserRead T {}) v old
  | .tuple Ts, tags, v, old => do
    let array ← keeping old (R.toArray tags v)
    let actualSize ← keeping old (R.arraySize array)
    if actualSize ≠ Ts.length then
      keeping old (fail .invalidLength ("Expected tuple with " ++ toString Ts.length ++
        " elements, got " ++ toString actualSize))
    else readTuple Ts array 0 old
  | .pair T U, tags, v, old => R.readPair tags (parserRead T {}) (parserRead U {}) v old
  | .variant Ts, tags, v, old => keeping old <|
    if tags.unionEncoding = .untagged then do
      let (matchCount, matchIndex) ← findAlternatives Ts tags.payload v 0 0 0
      if matchCount = 0 then fail .parseError "No variant alternative matched the input value"
      else if matchCount ≠ 1 then
        fail .parseError "Untagged variant input matches more than one alternative"
      else readAlternative Ts tags.payload v matchIndex
    else do
      let array ← context "Variant must be encoded as [index, value]: "
        (R.toArray tags.payload v)
      let size ← R.arraySize array
      if size ≠ 2 then
        fail .invalidLength "Variant array must contain exactly two elements"
      else do
        let element ← R.arrayElement array 0
        let index ← context "Failed to parse variant index: "
          (R.readArithmetic (.integer false .w64) {} element)
        let element ← R.arrayElement array 1
        readAlternative Ts tags.payload element (BitVec.toNat index)
  | .stringMap T, tags, v, old =>
    keeping old
      (R.readStringMap tags (fun field => dropping (parserRead T {} field (P.default T))) v)
  | .entryMap unique K T, tags, v, old =>
    keeping old (R.readEntryMap tags (parserRead K {}) (P.default K) (parserRead T {})
      (P.default T) unique (P.equivalent K) v)
  | .object unframed fields, tags, v, old =>
    P.readReflected (.object unframed fields) (fun parsed =>
      match R.layout unframed tags v with
      | .raw stream => R.readRawFields stream fields v parsed
      | .refused =>
        keeping parsed (fail .invalidType "raw_fixed_data requires a raw binary input segment")
      | .unframed stream => readUnframed stream fields v parsed
      | .framed => do
        let _ ← keeping parsed (R.toObject tags v)
        readFields fields v parsed) old
  | .record fields, tags, v, old =>
    P.readReflected (.record fields) (fun parsed => do
      let array ← keeping parsed (R.toArray tags v)
      let actualSize ← keeping parsed (R.arraySize array)
      if actualSize ≠ fields.count then
        keeping parsed (fail .invalidLength ("Expected reflected array with " ++
          toString fields.count ++ " elements, got " ++ toString actualSize))
      else readRecord fields array 0 0 parsed) old

/-- The elements of a tuple. -/
def readTuple : (Ts : Tys) → R.InputArray → ℕ → Ts.Values → R.ParseM Ts.Values Ts.Values
  | .nil, _, _, _ => pure ()
  | .cons T Ts, array, index, (old, olds) =>
    inTurn Prod.mk
      (R.readElement ("Failed to parse tuple element " ++ toString index ++ ": ") array index
        (parserRead T {}) old) id olds
      fun _ => readTuple Ts array (index + 1) olds

/-- `findAlternatives`: the number of alternatives that match, and the index of the last one. -/
def findAlternatives : Alternatives → Tags → R.InputValue → ℕ → ℕ → ℕ → R.Op (ℕ × ℕ)
  | .one T, tags, v, index, matchCount, matchIndex => do
    let found ← R.tryAlternative (dropping (parserRead T tags v (P.default T))) v
    pure (if found then (matchCount + 1, index) else (matchCount, matchIndex))
  | .cons T Ts, tags, v, index, matchCount, matchIndex => do
    let found ← R.tryAlternative (dropping (parserRead T tags v (P.default T))) v
    if found then findAlternatives Ts tags v (index + 1) (matchCount + 1) index
    else findAlternatives Ts tags v (index + 1) matchCount matchIndex

/-- `readAlternative`. -/
def readAlternative : (Ts : Alternatives) → Tags → R.InputValue → ℕ → R.Op Ts.Value
  | .one T, tags, v, 0 =>
    context "Failed to parse variant alternative: "
      (dropping (parserRead T tags v (P.default T)))
  | .one _, _, _, _ + 1 => fail .invalidIndex "Variant alternative index is out of range"
  | .cons T _, tags, v, 0 => do
    let value ← context "Failed to parse variant alternative: "
      (dropping (parserRead T tags v (P.default T)))
    pure (.inl value)
  | .cons _ Ts, tags, v, index + 1 => do
    let value ← readAlternative Ts tags v index
    pure (.inr value)

/-- The fields of a reflected class, from an object. -/
def readFields : (fields : Fields) → R.InputValue → fields.Values →
    R.ParseM fields.Values fields.Values
  | .nil, _, _ => pure ()
  | .cons name tags T rest, v, (old, olds) =>
    inTurn Prod.mk
      (if tags.ignore then pure old
      else if tags.flat && T.isObject then readFlat T v old
      else R.readReflectField (P.setNull T) name tags (parserRead T tags) v old) id olds
      fun _ => readFields rest v olds

/-- The fields of a flattened class, from the object that holds them. -/
def readFlat : (T : Ty) → R.InputValue → T.Value → R.ParseM T.Value T.Value
  | .object _ fields, v, old => do
    let _ ← keeping old (R.toObject {} v)
    readFields fields v old
  | _, _, old => pure old

/-- The fields of a class without a frame: one value after the other. -/
def readUnframed (stream : Stream R.State R.InputValue) :
    (fields : Fields) → R.InputValue → fields.Values → R.ParseM fields.Values fields.Values
  | .nil, _, _ => pure ()
  | .cons name tags T rest, v, (old, olds) =>
    inTurn Prod.mk (R.readUnframedField stream name tags (parserRead T tags) v old) Prod.fst olds
      fun field => readUnframed stream rest field.2 olds

/-- The elements of a reflected class without names. -/
def readRecord : (fields : Fields) → R.InputArray → ℕ → ℕ → fields.Values →
    R.ParseM fields.Values fields.Values
  | .nil, _, _, _, _ => pure ()
  | .cons _ tags T rest, array, index, elementIndex, (old, olds) =>
    inTurn Prod.mk
      (if tags.ignore then pure old
      else R.readElement ("Failed to parse reflected element " ++ toString index ++ ": ") array
        elementIndex (parserRead T tags) old) id olds
      fun _ => readRecord rest array (index + 1)
        (if tags.ignore then elementIndex else elementIndex + 1) olds

end

end Backend

end NekoProto.Generic
