import NekoProto.Binary.ReadExact

/-!
# Value trees

The values that go through a Writer and a Reader: what emitting one through the additions of the
Writer does (`emit`), how it is read back through the accessors of the Reader when only its shape
is known (`readBack`), and its tree in the grammar (`wire`).
-/

namespace NekoProto.Binary

/-! ## Trees and shapes -/

/-- A value. Integers of `value` are written as varints, those of `fixed` in their width. -/
inductive Tree
  | null
  | value (value : BasicValue)
  | fixed (signed : Bool) (width : Width) (value : BitVec width.bits)
  | array (elements : List Tree)
  | object (named : Bool) (members : List (Bytes × Tree))

/-- What a reader knows of a value: its types, and the names of its members. -/
inductive Shape
  | null
  | string
  | arithmetic (T : Arithmetic)
  | fixed (signed : Bool) (width : Width)
  | array (elements : List Shape)
  | object (named : Bool) (members : List (Bytes × Shape))

namespace Tree

mutual

/-- The shape of a value. -/
def shape : Tree → Shape
  | null => .null
  | value (.string _) => .string
  | value (.arithmetic T _) => .arithmetic T
  | fixed signed width _ => .fixed signed width
  | array elements => .array (shapeList elements)
  | object named members => .object named (shapeMembers members)

/-- The shapes of elements. -/
def shapeList : List Tree → List Shape
  | [] => []
  | t :: ts => shape t :: shapeList ts

/-- The names and the shapes of members. -/
def shapeMembers : List (Bytes × Tree) → List (Bytes × Shape)
  | [] => []
  | (name, t) :: ms => (name, shape t) :: shapeMembers ms

end

mutual

/-- The tree of the grammar. -/
def wire : Tree → Wire
  | null => .null
  | value v => v.wire
  | fixed signed width v => (Arithmetic.integer signed width).fixedWire v
  | array elements => .array (wireList elements)
  | object named members => .object named (wireMembers named members)

/-- The trees of elements. -/
def wireList : List Tree → List Wire
  | [] => []
  | t :: ts => wire t :: wireList ts

/-- The keys and the trees of members. -/
def wireMembers (named : Bool) : List (Bytes × Tree) → List (Key × Wire)
  | [] => []
  | (name, t) :: ms => (memberKey named name, wire t) :: wireMembers named ms

end

mutual

/-- The bytes of all strings of a value. -/
def stringBytes : Tree → ℕ
  | value (.string bytes) => bytes.length
  | array elements => stringBytesList elements
  | object _ members => stringBytesMembers members
  | _ => 0

/-- The bytes of all strings of elements. -/
def stringBytesList : List Tree → ℕ
  | [] => 0
  | t :: ts => stringBytes t + stringBytesList ts

/-- The bytes of all strings of the values of members. -/
def stringBytesMembers : List (Bytes × Tree) → ℕ
  | [] => 0
  | (_, t) :: ms => stringBytes t + stringBytesMembers ms

end

/-- The names of one object: distinct, and in an `IdObject` not empty and without a common hash
among those that are written as a hash. -/
structure NamesFit (named : Bool) (names : List Bytes) : Prop where
  distinct : names.Nodup
  nonempty : named = false → [] ∉ names
  hashes : named = false → names.Pairwise fun n m =>
    useHashedFieldId n → useHashedFieldId m → fieldId n ≠ fieldId m

mutual

/-- The names of every object of a value fit. -/
def NamesOk : Tree → Prop
  | array elements => NamesOkList elements
  | object named members => NamesFit named (members.map Prod.fst) ∧ NamesOkMembers members
  | _ => True

/-- The names fit in each element. -/
def NamesOkList : List Tree → Prop
  | [] => True
  | t :: ts => NamesOk t ∧ NamesOkList ts

/-- The names fit in the value of each member. -/
def NamesOkMembers : List (Bytes × Tree) → Prop
  | [] => True
  | (_, t) :: ms => NamesOk t ∧ NamesOkMembers ms

end

/-! ## Writing -/

mutual

/-- A value added to a parent, with the count of its container declared before. -/
def emit : Tree → Parent → Writer → Parent × Writer
  | null, parent, w => parent.addNull w
  | value v, parent, w => parent.addValue v w
  | fixed signed width v, parent, w =>
    parent.addFixedValue (.integer signed width) v width.bytes w
  | array elements, parent, w =>
    let (scope, parent, w) := parent.addArray elements.length w
    let (scope, w) := emitElements elements scope w
    (parent, w.finish scope)
  | object true members, parent, w =>
    let (scope, parent, w) := parent.addObject members.length w
    let (scope, w) := emitMembers members scope w
    (parent, w.finish scope)
  | object false members, parent, w =>
    let (scope, parent, w) := parent.addIdObject members.length w
    let (scope, w) := emitIdMembers members scope w
    (parent, w.finish scope)

/-- The elements of an open array. -/
def emitElements : List Tree → Scope .array → Writer → Scope .array × Writer
  | [], scope, w => (scope, w)
  | t :: ts, scope, w =>
    match emit t (.array scope) w with
    | (.array scope, w) => emitElements ts scope w
    | (_, w) => (scope, w)

/-- The members of an open `NamedObject`. -/
def emitMembers : List (Bytes × Tree) → Scope .namedObject → Writer → Scope .namedObject × Writer
  | [], scope, w => (scope, w)
  | (name, t) :: ms, scope, w =>
    match emit t (.object name scope) w with
    | (.object _ scope, w) => emitMembers ms scope w
    | (_, w) => (scope, w)

/-- The members of an open `IdObject`. -/
def emitIdMembers : List (Bytes × Tree) → Scope .idObject → Writer → Scope .idObject × Writer
  | [], scope, w => (scope, w)
  | (name, t) :: ms, scope, w =>
    match emit t (.idObject name scope) w with
    | (.idObject _ scope, w) => emitIdMembers ms scope w
    | (_, w) => (scope, w)

end

/-- The buffer and the error of a Writer that was given one value at the root. -/
def document (t : Tree) : Writer := (t.emit .root {}).2

end Tree

/-! ## Reading -/

namespace Shape

mutual

/-- A value read through the accessors that match its shape. -/
def readBack (inp : Input) : Shape → InputValue → ReadM Tree
  | null, v => do
    let isNull ← Reader.isEmpty inp v
    if isNull then pure .null else Reader.typeError "null"
  | string, v => do
    let bytes ← Reader.toBasicString inp v
    pure (.value (.string bytes))
  | arithmetic T, v => do
    let value ← Reader.toBasicType inp T v
    pure (.value (.arithmetic T value))
  | fixed signed width, v => do
    let value ← Reader.readFixed inp (.integer signed width) v width.bytes
    pure (.fixed signed width value)
  | array elements, v => do
    let handle ← Reader.toArray inp v
    if Reader.arraySize handle ≠ elements.length then
      fail .invalidLength "Unexpected number of elements"
    else do
      let values ← readElements inp elements handle 0
      pure (.array values)
  | object named members, v => do
    let handle ← Reader.toObject inp v
    if Reader.objectSize handle ≠ members.length then
      fail .invalidLength "Unexpected number of members"
    else do
      let values ← readMembers inp members handle
      pure (.object named values)

/-- The elements of an array from an index on. -/
def readElements (inp : Input) : List Shape → InputValue → ℕ → ReadM (List Tree)
  | [], _, _ => pure []
  | s :: ss, handle, index => do
    let state ← get
    let value ← readBack inp s (Reader.arrayElement inp state handle index)
    let values ← readElements inp ss handle (index + 1)
    pure (value :: values)

/-- The members of an object, looked up by their names. -/
def readMembers (inp : Input) : List (Bytes × Shape) → InputValue → ReadM (List (Bytes × Tree))
  | [], _ => pure []
  | (name, s) :: ms, handle => do
    let state ← get
    match Reader.objectField inp state handle name with
    | .error e => throw (.error e)
    | .ok field => do
      let value ← readBack inp s field
      let values ← readMembers inp ms handle
      pure ((name, value) :: values)

end

end Shape

end NekoProto.Binary
