import NekoProto.Json.Value
import NekoProto.Lib.Rfc8259

/-!
# The JSON text writer

`json::TextWriter` of `text_json_writer.hpp`: the events add nodes to a tree through handles, and
`str()` renders it. A handle is the place of its node. An append to a vector may move its
elements; here it always does, so a handle to an element, or to what is below it, is lost with the
next append to the same node, and an event with a lost handle is `none`. The sizes that the events
are given only reserve memory, and are left out.
-/

namespace NekoProto.Json.TextWriter

open Binary

/-! ## Nodes -/

/-- `Node::Kind`. -/
inductive Kind
  | null | scalar | string | raw | array | object
  deriving DecidableEq, Repr

/-- `Node`. -/
inductive Node
  | mk (kind : Kind) (value : Bytes) (array : List Node) (objectNames : List Bytes)
    (objectValues : List Node)

namespace Node

def array : Node → List Node | mk _ _ array _ _ => array
def objectValues : Node → List Node | mk _ _ _ _ objectValues => objectValues

/-- `Node{}`. -/
def empty : Node := mk .null [] [] [] []

/-- `_initializeArray`. -/
def initializeArray : Node := mk .array [] [] [] []

/-- `_initializeObject`. -/
def initializeObject : Node := mk .object [] [] [] []

/-- `array.emplace_back()`, and what is made of the new node. -/
def emplaceArray (child : Node) : Node → Node
  | mk kind value array names values => mk kind value (array ++ [child]) names values

/-- `emplaceObject`, and what is made of the new node. -/
def emplaceObject (name : Bytes) (child : Node) : Node → Node
  | mk kind value array names values =>
    mk kind value array (names ++ [name]) (values ++ [child])

end Node

/-! ## Values -/

/-- The values of the types that `_setValue` takes, other than floating-point ones. -/
inductive Scalar
  | raw (text : Bytes)
  | string (value : Bytes)
  | bool (value : Bool)
  | integer (value : ℤ)

/-- `"true"` and `"false"`. -/
def boolText (value : Bool) : Bytes :=
  if value then [0x74, 0x72, 0x75, 0x65] else [0x66, 0x61, 0x6C, 0x73, 0x65]

/-- `_numberToString` of an integral type: `std::to_chars`. -/
def numberToString (value : ℤ) : Bytes := Rfc8259.integerText value

/-- `_setValue`. -/
def setValue : Scalar → Node
  | .raw text => .mk .raw text [] [] []
  | .string value => .mk .string value [] [] []
  | .bool value => .mk .scalar (boolText value) [] [] []
  | .integer value => .mk .scalar (numberToString value) [] [] []

/-! ## Rendering -/

/-- `KHex`. -/
def hexDigit (n : UInt8) : UInt8 := if n < 10 then 0x30 + n else 0x61 + (n - 10)

/-- The `switch` of `_escape`. -/
def escapeByte (ch : UInt8) : Bytes :=
  if ch = 0x22 then [0x5C, 0x22]
  else if ch = 0x5C then [0x5C, 0x5C]
  else if ch = 0x08 then [0x5C, 0x62]
  else if ch = 0x0C then [0x5C, 0x66]
  else if ch = 0x0A then [0x5C, 0x6E]
  else if ch = 0x0D then [0x5C, 0x72]
  else if ch = 0x09 then [0x5C, 0x74]
  else if ch < 0x20 then
    [0x5C, 0x75, 0x30, 0x30, hexDigit ((ch >>> 4) &&& 0x0F), hexDigit (ch &&& 0x0F)]
  else [ch]

/-- `_escape`. -/
def escape (value : Bytes) : Bytes := value.flatMap escapeByte

mutual

/-- `_render`. -/
def render : Node → Bytes
  | .mk kind value array names values =>
    match kind with
    | .null => [0x6E, 0x75, 0x6C, 0x6C]
    | .scalar | .raw => value
    | .string => 0x22 :: (escape value ++ [0x22])
    | .array => 0x5B :: (renderArray true array ++ [0x5D])
    | .object => 0x7B :: (renderObject true names values ++ [0x7D])

/-- The loop over the elements of an array. -/
def renderArray : Bool → List Node → Bytes
  | _, [] => []
  | first, node :: nodes =>
    (if first then [] else [0x2C]) ++ (render node ++ renderArray false nodes)

/-- The loop over the names of an object, with its values. The two lists are of one length. -/
def renderObject : Bool → List Bytes → List Node → Bytes
  | first, name :: names, node :: nodes =>
    (if first then [] else [0x2C]) ++
      (0x22 :: (escape name ++ 0x22 :: 0x3A :: (render node ++ renderObject false names nodes)))
  | _, _, _ => []

end

/-! ## Handles -/

/-- A step from a node to an element of one of its vectors. -/
inductive Step
  | element (index : ℕ)
  | member (index : ℕ)
  deriving DecidableEq, Repr

/-- A `Node*`: the place of the node. -/
abbrev Handle := List Step

namespace Node

/-- The node a step leads to. -/
def child : Step → Node → Option Node
  | .element index, mk _ _ array _ _ => array[index]?
  | .member index, mk _ _ _ _ values => values[index]?

/-- The node with another one where the step leads. -/
def setChild : Step → Node → Node → Node
  | .element index, c, mk kind value array names values =>
    mk kind value (array.set index c) names values
  | .member index, c, mk kind value array names values =>
    mk kind value array names (values.set index c)

/-- The node at a place. -/
def at? : Handle → Node → Option Node
  | [], node => some node
  | step :: handle, node => (node.child step).bind (at? handle)

/-- A change of the node at a place. -/
def modify (f : Node → Node) : Handle → Node → Node
  | [], node => f node
  | step :: handle, node =>
    match node.child step with
    | some c => setChild step (modify f handle c) node
    | none => node

end Node

/-! ## The writer -/

/-- `TextWriter`: `mRoot`, with the handles that were given out and are not lost. -/
structure Writer where
  root : Node := .empty
  live : List Handle := []

/-- A node below another one. -/
def Below (handle below : Handle) : Prop := handle <+: below ∧ below ≠ handle

instance (handle below : Handle) : Decidable (Below handle below) :=
  inferInstanceAs (Decidable (_ ∧ _))

namespace Writer

/-- A new root. -/
def asRoot (node : Node) (_w : Writer) : Option (Writer × Handle) :=
  some ({ root := node, live := [[]] }, [])

/-- A new element of the array of a handle. -/
def addToArray (node : Node) (parent : Handle) (w : Writer) : Option (Writer × Handle) :=
  if parent ∈ w.live then do
    let array ← w.root.at? parent
    let handle := parent ++ [.element array.array.length]
    some ({
      root := w.root.modify (Node.emplaceArray node) parent
      live := handle :: w.live.filter fun h => ¬Below parent h }, handle)
  else none

/-- A new member of the object of a handle. -/
def addToObject (name : Bytes) (node : Node) (parent : Handle) (w : Writer) :
    Option (Writer × Handle) :=
  if parent ∈ w.live then do
    let object ← w.root.at? parent
    let handle := parent ++ [.member object.objectValues.length]
    some ({
      root := w.root.modify (Node.emplaceObject name node) parent
      live := handle :: w.live.filter fun h => ¬Below parent h }, handle)
  else none

/-- `arrayAsRoot`. -/
def arrayAsRoot : Writer → Option (Writer × Handle) := asRoot .initializeArray

/-- `objectAsRoot`. -/
def objectAsRoot : Writer → Option (Writer × Handle) := asRoot .initializeObject

/-- `nullAsRoot`. -/
def nullAsRoot : Writer → Option (Writer × Handle) := asRoot .empty

/-- `valueAsRoot`. -/
def valueAsRoot (value : Scalar) : Writer → Option (Writer × Handle) := asRoot (setValue value)

/-- `addArrayToArray`. -/
def addArrayToArray : Handle → Writer → Option (Writer × Handle) := addToArray .initializeArray

/-- `addArrayToObject`. -/
def addArrayToObject (name : Bytes) : Handle → Writer → Option (Writer × Handle) :=
  addToObject name .initializeArray

/-- `addObjectToArray`. -/
def addObjectToArray : Handle → Writer → Option (Writer × Handle) := addToArray .initializeObject

/-- `addObjectToObject`. -/
def addObjectToObject (name : Bytes) : Handle → Writer → Option (Writer × Handle) :=
  addToObject name .initializeObject

/-- `addValueToArray`. -/
def addValueToArray (value : Scalar) : Handle → Writer → Option (Writer × Handle) :=
  addToArray (setValue value)

/-- `addValueToObject`. -/
def addValueToObject (name : Bytes) (value : Scalar) : Handle → Writer →
    Option (Writer × Handle) := addToObject name (setValue value)

/-- `addNullToArray`. -/
def addNullToArray : Handle → Writer → Option (Writer × Handle) := addToArray .empty

/-- `addNullToObject`. -/
def addNullToObject (name : Bytes) : Handle → Writer → Option (Writer × Handle) :=
  addToObject name .empty

/-- `str`. -/
def str (w : Writer) : Bytes := render w.root

end Writer

/-! ## The events of a value -/

/-- `Parent<TextWriter>`: where a value is put. -/
inductive Parent
  | root
  | array (array : Handle)
  | object (name : Bytes) (object : Handle)

namespace Parent

/-- `Parent::addArray`. -/
def addArray : Parent → Writer → Option (Writer × Handle)
  | root => Writer.arrayAsRoot
  | array handle => Writer.addArrayToArray handle
  | object name handle => Writer.addArrayToObject name handle

/-- `Parent::addObject`. -/
def addObject : Parent → Writer → Option (Writer × Handle)
  | root => Writer.objectAsRoot
  | array handle => Writer.addObjectToArray handle
  | object name handle => Writer.addObjectToObject name handle

/-- `Parent::addNull`. -/
def addNull : Parent → Writer → Option (Writer × Handle)
  | root => Writer.nullAsRoot
  | array handle => Writer.addNullToArray handle
  | object name handle => Writer.addNullToObject name handle

/-- `Parent::addValue`. -/
def addValue (value : Scalar) : Parent → Writer → Option (Writer × Handle)
  | root => Writer.valueAsRoot value
  | array handle => Writer.addValueToArray value handle
  | object name handle => Writer.addValueToObject name value handle

end Parent

mutual

/-- The events of a value, as its callers make them: a container is added, and what is in it is
added to its handle, one after the other. A double has no events here. -/
def emit : JsonValue → Parent → Writer → Option Writer
  | .null, parent, w => (parent.addNull w).map Prod.fst
  | .bool value, parent, w => (parent.addValue (.bool value) w).map Prod.fst
  | .integer value, parent, w => (parent.addValue (.integer value.1) w).map Prod.fst
  | .double _, _, _ => none
  | .string value, parent, w => (parent.addValue (.string value) w).map Prod.fst
  | .array elements, parent, w => do
    let r ← parent.addArray w
    emitElements elements r.2 r.1
  | .object members, parent, w => do
    let r ← parent.addObject w
    emitMembers members r.2 r.1

/-- The events of the elements of an array. -/
def emitElements : List JsonValue → Handle → Writer → Option Writer
  | [], _, w => some w
  | v :: vs, handle, w => do
    let w ← emit v (.array handle) w
    emitElements vs handle w

/-- The events of the members of an object. -/
def emitMembers : List (Bytes × JsonValue) → Handle → Writer → Option Writer
  | [], _, w => some w
  | (name, v) :: members, handle, w => do
    let w ← emit v (.object name handle) w
    emitMembers members handle w

end

end NekoProto.Json.TextWriter
