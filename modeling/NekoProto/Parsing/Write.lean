import NekoProto.Parsing.Read

/-!
# Writing values

`parser_write` over the Binary Writer, one case for each kind of type. A write is given its parent
and the Writer, and a failed write leaves them as they are then, since the destructors of the open
containers still run. Whether an empty optional field is written as a null is a setting of the
build (`NEKO_WRITE_NULL_FOR_EMPTY_OPTIONAL`), here the parameter `nullForEmpty`.
-/

namespace NekoProto.Binary

/-! ## Parents of a write -/

namespace Parent

/-- `~ContainerScope`, of the container of a parent. -/
def finish (w : Writer) : Parent → Writer
  | root => w
  | array scope => w.finish scope
  | object _ scope => w.finish scope
  | idObject _ scope => w.finish scope

/-- The parent with another name, in the same object. -/
def field (name : Bytes) : Parent → Parent
  | object _ scope => object name scope
  | idObject _ scope => idObject name scope
  | parent => parent

end Parent

/-- `beginRawFixedDataAsRoot`. -/
def Writer.beginRawFixedDataAsRoot (w : Writer) : Writer := { w with rawRoot := true }

/-- `result`. -/
def Writer.result (w : Writer) : Except Error Unit :=
  match w.error with
  | some e => .error e
  | none => .ok ()

end NekoProto.Binary

namespace NekoProto.Parsing

open Binary Binary.Reader

/-- A write below a parent. -/
abbrev WriteM := EStateM Error (Parent × Writer)

/-- `parser_context`, of a write. -/
def writeContext (text : String) (write : WriteM Unit) : WriteM Unit := fun s =>
  match write s with
  | .error e t => .error { e with msg := text ++ e.msg } t
  | r => r

/-! ## Containers -/

/-- A result with another state. -/
def mapState (f : Parent → Writer → Parent × Writer) :
    EStateM.Result Error (Parent × Writer) Unit → EStateM.Result Error (Parent × Writer) Unit
  | .ok _ (parent, w) => .ok () (f parent w)
  | .error e (parent, w) => .error e (f parent w)

/-- The end of an open container, after its content was written or has failed. -/
def close (outer : Parent) :
    EStateM.Result Error (Parent × Writer) Unit → EStateM.Result Error (Parent × Writer) Unit :=
  mapState fun inner w => (outer, inner.finish w)

/-- `addArray`, with the content of the array. -/
def inArray (size : ℕ) (content : WriteM Unit) : WriteM Unit := fun (parent, w) =>
  let (scope, parent, w) := parent.addArray size w
  close parent (content (.array scope, w))

/-- `addObject`, with the content of the object. -/
def inObject (size : ℕ) (content : WriteM Unit) : WriteM Unit := fun (parent, w) =>
  let (scope, parent, w) := parent.addObject size w
  close parent (content (.object [] scope, w))

/-- `addIdObject`, with the content of the object. -/
def inIdObject (size : ℕ) (content : WriteM Unit) : WriteM Unit := fun (parent, w) =>
  let (scope, parent, w) := parent.addIdObject size w
  close parent (content (.idObject [] scope, w))

/-- A write with a parent that names a field of the open object. -/
def named (name : Bytes) (write : WriteM Unit) : WriteM Unit := fun (parent, w) =>
  mapState (fun parent w => (parent.field [], w)) (write (parent.field name, w))

/-! ## Scalars -/

/-- `addNull`. -/
def writeNull : WriteM Unit := modify fun (parent, w) => parent.addNull w

/-- `addValue`. -/
def writeValue (value : BasicValue) : WriteM Unit := modify fun (parent, w) =>
  parent.addValue value w

/-- `WriteParser` of an arithmetic type. -/
def writeArithmetic (T : Arithmetic) (tags : Tags) (value : T.Value) : WriteM Unit :=
  match tags.fixedLengthOf T with
  | some size =>
    if size ≠ T.size then
      throw ⟨.invalidLength, "Fixed-length arithmetic field requires " ++ toString T.size ++
        " bytes for its C++ type, got " ++ toString size⟩
    else modify fun (parent, w) => parent.addFixedValue T value size w
  | none => writeValue (.arithmetic T value)

/-- `Reflect<T>::name` of an enumeration. -/
def enumerationName {n : ℕ} (names : List (Bytes × BitVec n)) (value : BitVec n) : Bytes :=
  ((names.find? fun entry => entry.2 = value).map Prod.fst).getD []

/-- `WriteParser` of an enumeration. -/
def writeEnumeration (signed : Bool) (width : Width) (names : List (Bytes × BitVec width.bits))
    (tags : Tags) (value : BitVec width.bits) : WriteM Unit :=
  if enumerationName names value ≠ [] then writeValue (.string (enumerationName names value))
  else writeArithmetic (.integer signed width) tags value

/-! ## Elements and members -/

section

variable {α β : Type}

/-- The loop over a sequence or a fixed array. -/
def writeElements (kind : String) (write : α → WriteM Unit) : ℕ → List α → WriteM Unit
  | _, [] => pure ()
  | index, value :: values => do
    writeContext ("Failed to write " ++ kind ++ " element " ++ toString index ++ ": ")
      (write value)
    writeElements kind write (index + 1) values

/-- The loop of `parser_write_key_value_array`. -/
def writeEntries (writeKey : α → WriteM Unit) (writeValue : β → WriteM Unit) :
    ℕ → List (α × β) → WriteM Unit
  | _, [] => pure ()
  | index, (key, value) :: entries => do
    let entry := "Failed to write map entry " ++ toString index
    inObject 2 do
      writeContext (entry ++ " key: ") (named keyName (writeKey key))
      writeContext (entry ++ " value: ") (named valueName (writeValue value))
    writeEntries writeKey writeValue (index + 1) entries

/-- The loop of `parser_write_string_key_map`. -/
def writeMembers (write : α → WriteM Unit) : List (Bytes × α) → WriteM Unit
  | [] => pure ()
  | (name, value) :: entries => do
    writeContext ("Failed to write map field '" ++ nameText name ++ "': ")
      (named name (write value))
    writeMembers write entries

end

/-! ## Fields of reflected classes -/

section

variable (nullForEmpty : Bool)

/-- `parser_should_skip_empty_field`. -/
def shouldSkipEmptyField (T : Ty) (value : T.Value) : Bool :=
  T.optionalLike && !T.hasValue value && !nullForEmpty

mutual

/-- `parser_reflect_emitted_field_count`. -/
def emittedFieldCount : (fields : Fields) → fields.Values → ℕ
  | .nil, _ => 0
  | .cons _ tags T rest, (value, values) =>
    emittedFieldCountOne T tags value + emittedFieldCount rest values

/-- `parser_reflect_emitted_field_count_one`. -/
def emittedFieldCountOne : (T : Ty) → Tags → T.Value → ℕ
  | .object unframed fields, tags, value =>
    if tags.ignore || shouldSkipEmptyField nullForEmpty (.object unframed fields) value then 0
    else if tags.flat then emittedFieldCount fields value
    else 1
  | T, tags, value => if tags.ignore || shouldSkipEmptyField nullForEmpty T value then 0 else 1

end

/-- `parser_write_reflect_field`, from the writes of the field as a flattened class and as a value.
The null of an empty optional stands under the name of the member, not under that of its tag. -/
def writeReflectField (T : Ty) (name : Bytes) (tags : Tags) (value : T.Value)
    (flat write : WriteM Unit) : WriteM Unit :=
  if tags.ignore then pure ()
  else if tags.flat && T.isObject then flat
  else if shouldSkipEmptyField nullForEmpty T value then pure ()
  else if T.optionalLike && !T.hasValue value then named name writeNull
  else
    writeContext ("Failed to write field '" ++ nameText (tags.fieldName name) ++ "': ")
      (named (tags.fieldName name) write)

end

/-- An element of a reflected class without names. -/
def writeRecordElement (tags : Tags) (index : ℕ) (write : WriteM Unit) : WriteM Unit :=
  if tags.ignore then pure ()
  else writeContext ("Failed to write reflected element " ++ toString index ++ ": ") write

/-- A field of a raw fixed record. -/
def writeRawField (name : Bytes) (tags : Tags) : (T : Ty) → T.Value → WriteM Unit
  | .enumeration signed width _, value =>
    writeContext ("Failed to write raw fixed field '" ++ nameText name ++ "': ")
      (writeArithmetic (.integer signed width) tags value)
  | .arithmetic T, value =>
    writeContext ("Failed to write raw fixed field '" ++ nameText name ++ "': ")
      (writeArithmetic T tags value)
  | _, _ =>
    throw ⟨.invalidType, "raw_fixed_data field '" ++ nameText name ++
      "' must be an arithmetic or enum value with a fixed wire width"⟩

/-- The fields of a raw fixed record. -/
def writeRawFields : (fields : Fields) → fields.Values → WriteM Unit
  | .nil, _ => pure ()
  | .cons name tags T rest, (value, values) => do
    if tags.ignore then pure ()
    else if tags.fixedLength.isNone then
      throw ⟨.invalidLength, "raw_fixed_data field '" ++ nameText name ++
        "' requires fixed_length"⟩
    else writeRawField name tags T value
    writeRawFields rest values

/-- A raw fixed record. -/
def writeRaw (fields : Fields) (values : fields.Values) : WriteM Unit := do
  let (parent, w) ← get
  if parent ≠ .root then
    throw ⟨.invalidType, "raw_fixed_data is only valid for a binary root value"⟩
  else do
    set (parent, w.beginRawFixedDataAsRoot)
    writeRawFields fields values

/-! ## All types -/

/-- `std::variant::index`. -/
def Alternatives.index : (Ts : Alternatives) → Ts.Value → ℕ
  | .one _, _ => 0
  | .cons _ _, .inl _ => 0
  | .cons _ Ts, .inr value => Ts.index value + 1

section

variable (nullForEmpty : Bool)

mutual

/-- `parser_write`. -/
def parserWrite : (T : Ty) → Tags → T.Value → WriteM Unit
  | .arithmetic T, tags, value => writeArithmetic T tags value
  | .string, _, value => writeValue (.string value)
  | .enumeration signed width names, tags, value => writeEnumeration signed width names tags value
  | .null _, _, _ => writeNull
  | .optional _, _, none => writeNull
  | .optional T, tags, some value => parserWrite T tags value
  | .pointer _ _, _, none => writeNull
  | .pointer _ T, tags, some value => parserWrite T tags value
  | .sequence _ T, _, values =>
    inArray (List.length values) (writeElements "sequence" (parserWrite T {}) 0 values)
  | .array size T, _, values =>
    inArray size (writeElements "fixed array" (parserWrite T {}) 0 values.1)
  | .tuple Ts, _, values => inArray Ts.length (writeTuple Ts 0 values)
  | .pair T U, _, (first, second) => inObject 2 do
    writeContext "Failed to write pair field 'first': " (named firstName (parserWrite T {} first))
    writeContext "Failed to write pair field 'second': "
      (named secondName (parserWrite U {} second))
  | .variant Ts, tags, value =>
    if tags.unionEncoding = .untagged then writeActive Ts tags.payload value
    else inArray 2 do
      writeContext "Failed to write variant index: "
        (writeArithmetic (.integer false .w64) {} (BitVec.ofNat 64 (Ts.index value)))
      writeActive Ts tags.payload value
  | .stringMap T, _, entries =>
    inObject entries.1.length (writeMembers (parserWrite T {}) entries.1)
  | .entryMap _ K T, _, entries =>
    inArray (List.length entries) (writeEntries (parserWrite K {}) (parserWrite T {}) 0 entries)
  | .object _ fields, tags, values =>
    if tags.rawFixedData then writeRaw fields values
    else inIdObject (emittedFieldCount nullForEmpty fields values) (writeFields fields values)
  | .record fields, _, values => inArray fields.count (writeRecord fields 0 values)

/-- The elements of a tuple. -/
def writeTuple : (Ts : Tys) → ℕ → Ts.Values → WriteM Unit
  | .nil, _, _ => pure ()
  | .cons T Ts, index, (value, values) => do
    writeContext ("Failed to write tuple element " ++ toString index ++ ": ")
      (parserWrite T {} value)
    writeTuple Ts (index + 1) values

/-- `writeActive`. -/
def writeActive : (Ts : Alternatives) → Tags → Ts.Value → WriteM Unit
  | .one T, tags, value => parserWrite T tags value
  | .cons T _, tags, .inl value => parserWrite T tags value
  | .cons _ Ts, tags, .inr value => writeActive Ts tags value

/-- `parser_write_reflect_fields`. -/
def writeFields : (fields : Fields) → fields.Values → WriteM Unit
  | .nil, _ => pure ()
  | .cons name tags T rest, (value, values) => do
    writeReflectField nullForEmpty T name tags value (writeFlat T value)
      (parserWrite T tags value)
    writeFields rest values

/-- The fields of a flattened class, into the object that holds them. -/
def writeFlat : (T : Ty) → T.Value → WriteM Unit
  | .object _ fields, values => writeFields fields values
  | _, _ => pure ()

/-- The elements of a reflected class without names. -/
def writeRecord : (fields : Fields) → ℕ → fields.Values → WriteM Unit
  | .nil, _, _ => pure ()
  | .cons _ tags T rest, index, (value, values) => do
    writeRecordElement tags index (parserWrite T tags value)
    writeRecord rest (index + 1) values

end

/-! ## Documents -/

/-- `BinaryBackend::write` with a new Writer: the result and the buffer. -/
def write (T : Ty) (tags : Tags) (value : T.Value) : Except Error Unit × Bytes :=
  if tags.rawFixedData && !T.isObject then
    (.error ⟨.invalidType,
      "raw_fixed_data requires a reflected object with named fixed-width fields"⟩, [])
  else
    match parserWrite nullForEmpty T tags value (.root, {}) with
    | .ok _ (_, w) => (w.result, w.buffer)
    | .error e (_, w) => (.error e, w.buffer)

end

end NekoProto.Parsing
