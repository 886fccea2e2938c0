import NekoProto.Binary.Reader

/-!
# The Writer

`binary::Writer`, with the scopes it hands out for open containers and the parents through which
the parsing layer addresses it (`parsing::Parent`). A scope is passed along with the Writer; its
destructor is `finish`.
-/

namespace NekoProto.Binary

/-! ## The buffer -/

/-- `Writer`. -/
structure Writer where
  buffer : Bytes := []
  documentStarted : Bool := false
  rawRoot : Bool := false
  error : Option Error := none
  deriving DecidableEq, Repr

namespace Writer

/-- `_setError`, which keeps the first error. -/
def setError (code : ErrorCode) (message : String) (w : Writer) : Writer :=
  match w.error with
  | some _ => w
  | none => { w with error := some ⟨code, message⟩ }

/-- `_pushByte`. -/
def pushByte (byte : UInt8) (w : Writer) : Writer := { w with buffer := w.buffer ++ [byte] }

/-- `_appendBytes`. -/
def appendBytes (bytes : Bytes) (w : Writer) : Writer := { w with buffer := w.buffer ++ bytes }

/-- The loop of `_writeUleb128`, with a fuel of the bits of a value. -/
def writeUlebLoop : ℕ → UInt64 → Writer → Writer
  | 0, _, w => w
  | fuel + 1, value, w =>
    let byte := (value &&& 0x7F).toUInt8
    let value := value >>> 7
    if value ≠ 0 then writeUlebLoop fuel value (w.pushByte (byte ||| 0x80)) else w.pushByte byte

/-- `_writeUleb128`. -/
def writeUleb128 (value : UInt64) (w : Writer) : Writer := writeUlebLoop 64 value w

/-- `_ensureDocumentHeader`. -/
def ensureDocumentHeader (w : Writer) : Writer :=
  if w.documentStarted ∨ w.rawRoot then w
  else { w with documentStarted := true }.appendBytes binaryMagic

end Writer

/-! ## Values -/

/-- A value of a type that `_writeValue` accepts. -/
inductive BasicValue
  | string (bytes : Bytes)
  | arithmetic (T : Arithmetic) (value : T.Value)

/-- The big-endian bytes of a value (`htobe` and `_appendBytes`). -/
def Arithmetic.bytes : (T : Arithmetic) → T.Value → Bytes
  | .bool, value => [if value then 1 else 0]
  | .integer _ w, value => BigEndian.toBytes w.bytes value.toNat
  | .float, value => BigEndian.toBytes 4 value.toNat
  | .double, value => BigEndian.toBytes 8 value.toNat

/-- The zigzag code of a signed integer. -/
def zigzag {n : ℕ} (value : BitVec n) : BitVec n :=
  let negative := value.slt 0
  let magnitude := if negative then -(value + 1) + 1 else value
  (magnitude <<< 1) - (if negative then 1 else 0)

namespace Writer

/-- `_writeFloating`. -/
def writeFloating (tag : ValueTag) (bytes : Bytes) (w : Writer) : Writer :=
  (w.pushByte tag.toByte).appendBytes bytes

/-- `_writeValue`. -/
def writeValue (value : BasicValue) (w : Writer) : Writer :=
  let w := w.ensureDocumentHeader
  match value with
  | .string bytes =>
    ((w.pushByte ValueTag.string.toByte).writeUleb128 (UInt64.ofNat bytes.length)).appendBytes bytes
  | .arithmetic .bool value => w.pushByte (if value then ValueTag.true else ValueTag.false).toByte
  | .arithmetic (.integer true _) value =>
    (w.pushByte ValueTag.signedInteger.toByte).writeUleb128 (UInt64.ofNat (zigzag value).toNat)
  | .arithmetic (.integer false _) value =>
    (w.pushByte ValueTag.unsignedInteger.toByte).writeUleb128 (UInt64.ofNat value.toNat)
  | .arithmetic .float value => w.writeFloating .float32 (Arithmetic.float.bytes value)
  | .arithmetic .double value => w.writeFloating .float64 (Arithmetic.double.bytes value)

/-- `_writeRawFixed`. -/
def writeRawFixed (T : Arithmetic) (value : T.Value) (size : ℕ) (w : Writer) : Writer :=
  if size ≠ T.size then
    w.setError .invalidLength "Raw fixed binary value width does not match its C++ type"
  else w.appendBytes (T.bytes value)

/-- `_writeFixed`. -/
def writeFixed (T : Arithmetic) (value : T.Value) (size : ℕ) (w : Writer) : Writer :=
  let w := w.ensureDocumentHeader
  if size ≠ T.size then
    w.setError .invalidLength "Fixed binary value width does not match its C++ type"
  else
    match T with
    | .bool => w.pushByte (if value then ValueTag.true else ValueTag.false).toByte
    | .integer signed width =>
      (w.pushByte (fixedTag signed width).toByte).writeRawFixed (.integer signed width) value size
    | .float => w.writeFloating .float32 (Arithmetic.float.bytes value)
    | .double => w.writeFloating .float64 (Arithmetic.double.bytes value)

/-- `_writeRawValue`. -/
def writeRawValue (value : BasicValue) (w : Writer) : Writer :=
  match value with
  | .string bytes => (w.writeUleb128 (UInt64.ofNat bytes.length)).appendBytes bytes
  | .arithmetic T value => w.writeRawFixed T value T.size

end Writer

/-! ## Container scopes -/

/-- `ContainerKind`. -/
inductive ContainerKind
  | array | namedObject | idObject
  deriving DecidableEq, Repr

/-- The tag of a container. -/
def ContainerKind.tag : ContainerKind → ValueTag
  | array => .array
  | namedObject => .namedObject
  | idObject => .idObject

/-- `ContainerScope`. -/
structure Scope (kind : ContainerKind) where
  expected : ℕ
  actual : ℕ := 0
  ids : List UInt32 := []
  deriving DecidableEq, Repr

/-- `_increment`. -/
def Scope.increment {kind : ContainerKind} (scope : Scope kind) : Scope kind :=
  { scope with actual := scope.actual + 1 }

/-- `_rememberId`: whether the id is new. -/
def Scope.rememberId (scope : Scope .idObject) (id : UInt32) : Bool × Scope .idObject :=
  if id ∈ scope.ids then (false, scope) else (true, { scope with ids := id :: scope.ids })

namespace Writer

/-- `~ContainerScope`. -/
def finish {kind : ContainerKind} (scope : Scope kind) (w : Writer) : Writer :=
  if scope.actual ≠ scope.expected then
    w.setError .invalidLength
      "Binary container emitted member count does not match its declared count"
  else w

/-- `_writeContainerHeader`. -/
def writeContainerHeader (tag : ValueTag) (size : ℕ) (w : Writer) : Writer :=
  (w.ensureDocumentHeader.pushByte tag.toByte).writeUleb128 (UInt64.ofNat size)

/-- `_beginNamedField`. -/
def beginNamedField (name : Bytes) (parent : Scope .namedObject) (w : Writer) :
    Scope .namedObject × Writer :=
  (parent.increment, (w.writeUleb128 (UInt64.ofNat name.length)).appendBytes name)

/-- `_beginIdField`. -/
def beginIdField (name : Bytes) (parent : Scope .idObject) (w : Writer) :
    Scope .idObject × Writer :=
  let parent := parent.increment
  if ¬useHashedFieldId name then
    (parent, (w.writeUleb128 (UInt64.ofNat name.length <<< 1)).appendBytes name)
  else
    let id := fieldId name
    let (fresh, parent) := parent.rememberId id
    let w := if fresh then w else
      w.setError .invalidField "Reflected binary object contains colliding hashed field ids"
    (parent, w.writeUleb128 ((id.toUInt64 <<< 1) ||| 1))

/-! ## Adding values

Each addition counts the value in the open container and writes its key, then the value. -/

section

variable (kind : ContainerKind)

/-- A container at the root. -/
def containerAsRoot (size : ℕ) (w : Writer) : Scope kind × Writer :=
  ({ expected := size }, w.writeContainerHeader kind.tag size)

/-- A container in an array. -/
def addContainerToArray (size : ℕ) (parent : Scope .array) (w : Writer) :
    Scope kind × Scope .array × Writer :=
  ({ expected := size }, parent.increment, w.writeContainerHeader kind.tag size)

/-- A container in a `NamedObject`. -/
def addContainerToObject (name : Bytes) (size : ℕ) (parent : Scope .namedObject) (w : Writer) :
    Scope kind × Scope .namedObject × Writer :=
  let (parent, w) := w.beginNamedField name parent
  ({ expected := size }, parent, w.writeContainerHeader kind.tag size)

/-- A container in an `IdObject`. -/
def addContainerToIdObject (name : Bytes) (size : ℕ) (parent : Scope .idObject) (w : Writer) :
    Scope kind × Scope .idObject × Writer :=
  let (parent, w) := w.beginIdField name parent
  ({ expected := size }, parent, w.writeContainerHeader kind.tag size)

end

/-- `arrayAsRoot`. -/
def arrayAsRoot := containerAsRoot .array

/-- `objectAsRoot`. -/
def objectAsRoot := containerAsRoot .namedObject

/-- `idObjectAsRoot`. -/
def idObjectAsRoot := containerAsRoot .idObject

/-- `addArrayToArray`. -/
def addArrayToArray := addContainerToArray .array

/-- `addObjectToArray`. -/
def addObjectToArray := addContainerToArray .namedObject

/-- `addIdObjectToArray`. -/
def addIdObjectToArray := addContainerToArray .idObject

/-- `addArrayToObject`, in a `NamedObject`. -/
def addArrayToObject := addContainerToObject .array

/-- `addObjectToObject`, in a `NamedObject`. -/
def addObjectToObject := addContainerToObject .namedObject

/-- `addIdObjectToObject`, in a `NamedObject`. -/
def addIdObjectToObject := addContainerToObject .idObject

/-- `addArrayToObject`, in an `IdObject`. -/
def addArrayToIdObject := addContainerToIdObject .array

/-- `addObjectToObject`, in an `IdObject`. -/
def addObjectToIdObject := addContainerToIdObject .namedObject

/-- `addIdObjectToObject`, in an `IdObject`. -/
def addIdObjectToIdObject := addContainerToIdObject .idObject

/-- `nullAsRoot`. -/
def nullAsRoot (w : Writer) : Writer :=
  if w.rawRoot then w.setError .invalidType "raw_fixed_data binary values cannot encode null"
  else w.ensureDocumentHeader.pushByte ValueTag.null.toByte

/-- `addNullToArray`. -/
def addNullToArray (parent : Scope .array) (w : Writer) : Scope .array × Writer :=
  (parent.increment, w.ensureDocumentHeader.pushByte ValueTag.null.toByte)

/-- `addNullToObject`, in a `NamedObject`. -/
def addNullToObject (name : Bytes) (parent : Scope .namedObject) (w : Writer) :
    Scope .namedObject × Writer :=
  let (parent, w) := w.beginNamedField name parent
  (parent, w.pushByte ValueTag.null.toByte)

/-- `addNullToObject`, in an `IdObject`. -/
def addNullToIdObject (name : Bytes) (parent : Scope .idObject) (w : Writer) :
    Scope .idObject × Writer :=
  let (parent, w) := w.beginIdField name parent
  (parent, w.pushByte ValueTag.null.toByte)

/-- `valueAsRoot`. -/
def valueAsRoot (value : BasicValue) (w : Writer) : Writer :=
  if w.rawRoot then w.writeRawValue value else w.writeValue value

/-- `addValueToArray`. -/
def addValueToArray (value : BasicValue) (parent : Scope .array) (w : Writer) :
    Scope .array × Writer :=
  (parent.increment, w.writeValue value)

/-- `addValueToObject`, in a `NamedObject`. -/
def addValueToObject (name : Bytes) (value : BasicValue) (parent : Scope .namedObject)
    (w : Writer) : Scope .namedObject × Writer :=
  let (parent, w) := w.beginNamedField name parent
  (parent, w.writeValue value)

/-- `addValueToObject`, in an `IdObject`. -/
def addValueToIdObject (name : Bytes) (value : BasicValue) (parent : Scope .idObject)
    (w : Writer) : Scope .idObject × Writer :=
  let (parent, w) := w.beginIdField name parent
  (parent, w.writeValue value)

section

variable (T : Arithmetic) (value : T.Value) (size : ℕ)

/-- `fixedValueAsRoot`. -/
def fixedValueAsRoot (w : Writer) : Writer :=
  if w.rawRoot then w.writeRawFixed T value size else w.writeFixed T value size

/-- `addFixedValueToArray`. -/
def addFixedValueToArray (parent : Scope .array) (w : Writer) : Scope .array × Writer :=
  (parent.increment, w.writeFixed T value size)

/-- `addFixedValueToObject`, in a `NamedObject`. -/
def addFixedValueToObject (name : Bytes) (parent : Scope .namedObject) (w : Writer) :
    Scope .namedObject × Writer :=
  let (parent, w) := w.beginNamedField name parent
  (parent, w.writeFixed T value size)

/-- `addFixedValueToObject`, in an `IdObject`. -/
def addFixedValueToIdObject (name : Bytes) (parent : Scope .idObject) (w : Writer) :
    Scope .idObject × Writer :=
  let (parent, w) := w.beginIdField name parent
  (parent, w.writeFixed T value size)

end

end Writer

/-! ## Parents -/

/-- `parsing::Parent`: where the next value goes, with the scope of the open container. -/
inductive Parent
  | root
  | array (array : Scope .array)
  | object (name : Bytes) (object : Scope .namedObject)
  | idObject (name : Bytes) (object : Scope .idObject)
  deriving DecidableEq, Repr

namespace Parent

/-- The parent after an addition to its container. -/
def after {α kind} (parent : Scope kind → Parent) : α × Scope kind × Writer → α × Parent × Writer
  | (opened, scope, w) => (opened, parent scope, w)

/-- `addArray`. -/
def addArray (size : ℕ) (w : Writer) : Parent → Scope .array × Parent × Writer
  | root => ((w.arrayAsRoot size).1, root, (w.arrayAsRoot size).2)
  | array scope => after array (w.addArrayToArray size scope)
  | object name scope => after (object name) (w.addArrayToObject name size scope)
  | idObject name scope => after (idObject name) (w.addArrayToIdObject name size scope)

/-- `addObject`. -/
def addObject (size : ℕ) (w : Writer) : Parent → Scope .namedObject × Parent × Writer
  | root => ((w.objectAsRoot size).1, root, (w.objectAsRoot size).2)
  | array scope => after array (w.addObjectToArray size scope)
  | object name scope => after (object name) (w.addObjectToObject name size scope)
  | idObject name scope => after (idObject name) (w.addObjectToIdObject name size scope)

/-- `addIdObject`. -/
def addIdObject (size : ℕ) (w : Writer) : Parent → Scope .idObject × Parent × Writer
  | root => ((w.idObjectAsRoot size).1, root, (w.idObjectAsRoot size).2)
  | array scope => after array (w.addIdObjectToArray size scope)
  | object name scope => after (object name) (w.addIdObjectToObject name size scope)
  | idObject name scope => after (idObject name) (w.addIdObjectToIdObject name size scope)

/-- `addNull`. -/
def addNull (w : Writer) : Parent → Parent × Writer
  | root => (root, w.nullAsRoot)
  | array scope => (w.addNullToArray scope).map array id
  | object name scope => (w.addNullToObject name scope).map (object name) id
  | idObject name scope => (w.addNullToIdObject name scope).map (idObject name) id

/-- `addValue`. -/
def addValue (value : BasicValue) (w : Writer) : Parent → Parent × Writer
  | root => (root, w.valueAsRoot value)
  | array scope => (w.addValueToArray value scope).map array id
  | object name scope => (w.addValueToObject name value scope).map (object name) id
  | idObject name scope => (w.addValueToIdObject name value scope).map (idObject name) id

/-- `addFixedValue`. -/
def addFixedValue (T : Arithmetic) (value : T.Value) (size : ℕ) (w : Writer) :
    Parent → Parent × Writer
  | root => (root, w.fixedValueAsRoot T value size)
  | array scope => (w.addFixedValueToArray T value size scope).map array id
  | object name scope => (w.addFixedValueToObject T value size name scope).map (object name) id
  | idObject name scope =>
    (w.addFixedValueToIdObject T value size name scope).map (idObject name) id

end Parent

end NekoProto.Binary
