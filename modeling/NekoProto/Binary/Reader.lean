import NekoProto.Binary.Parse
import NekoProto.Lib.BigEndian

/-!
# The Reader

`binary::Reader` over a parsed document. Nodes are shared in the source and carry a flag
`consumed`; here a node is known by the parse that made it and the offset where it begins, and the
state keeps the nodes that are consumed. A framed value is one of these nodes, a raw value stands
for the bytes at the shared offset.
-/

namespace NekoProto.Binary

/-! ## Basic types -/

/-- The width of an integer type. -/
inductive Width
  | w8 | w16 | w32 | w64
  deriving DecidableEq, Repr

/-- `sizeof` of an integer type. -/
def Width.bytes : Width → ℕ
  | .w8 => 1
  | .w16 => 2
  | .w32 => 4
  | .w64 => 8

/-- The bits of an integer type. -/
abbrev Width.bits (w : Width) : ℕ := 8 * w.bytes

/-- The arithmetic types of a value. -/
inductive Arithmetic
  | bool
  | integer (signed : Bool) (width : Width)
  | float
  | double
  deriving DecidableEq, Repr

/-- The values of an arithmetic type; floating-point values are kept as their bits. -/
abbrev Arithmetic.Value : Arithmetic → Type
  | .bool => Bool
  | .integer _ w => BitVec w.bits
  | .float => BitVec 32
  | .double => BitVec 64

/-- `sizeof(T)`. -/
def Arithmetic.size : Arithmetic → ℕ
  | .bool => 1
  | .integer _ w => w.bytes
  | .float => 4
  | .double => 8

/-- `_fixedTag<U>()`. -/
def fixedTag : Bool → Width → ValueTag
  | true, .w8 => .fixedSigned8
  | true, .w16 => .fixedSigned16
  | true, .w32 => .fixedSigned32
  | true, .w64 => .fixedSigned64
  | false, .w8 => .fixedUnsigned8
  | false, .w16 => .fixedUnsigned16
  | false, .w32 => .fixedUnsigned32
  | false, .w64 => .fixedUnsigned64

/-! ## State and handles -/

/-- A node, by the parse that made it and the offset where it begins. -/
structure NodeId where
  parse : ℕ
  begin : ℕ
  deriving DecidableEq, Repr

/-- The part of `Reader::State` that changes, with the flags of the nodes. -/
structure State where
  offset : ℕ := 0
  remainingAllocation : ℕ
  framed : Bool := false
  error : Option Error := none
  consumed : List NodeId := []
  parses : ℕ := 0
  deriving DecidableEq, Repr

/-- A computation on the state of a Reader. -/
abbrev ReadM := EStateM Stop State

/-- `Reader::InputValue`: a framed node, a raw value, or a failed one. -/
inductive InputValue
  | node (parse : ℕ) (node : Node)
  | raw (parse : ℕ) (error : Option Error)
  | error (error : Error)

namespace InputValue

/-- The node of a handle, for its flag. -/
def id : InputValue → Option NodeId
  | node parse n => some ⟨parse, n.begin⟩
  | raw parse _ => some ⟨parse, 0⟩
  | error _ => none

/-- The tag of the node: `Null` unless a parse has set it. -/
def tag : InputValue → ValueTag
  | node _ n => n.tag
  | _ => .null

/-- The elements of the node. -/
def elements : InputValue → List InputValue
  | node parse n => n.elements.map (node parse)
  | _ => []

/-- The members of the node. -/
def members : InputValue → List (Member InputValue)
  | node parse n =>
    n.members.map fun m => { name := m.name, id := m.id, value := node parse m.value }
  | _ => []

end InputValue

namespace Reader

/-! ## Errors -/

/-- `_typeError`. -/
def typeError {α : Type} (expected : String) : ReadM α :=
  fail .invalidType ("Binary value is not a " ++ expected)

/-- The text of a name in a message. -/
def nameText (name : Bytes) : String := String.ofList (name.map fun b => Char.ofNat b.toNat)

/-- `_missingField`. -/
def missingField (name : Bytes) : Error :=
  ⟨.invalidField, "Binary object does not contain field '" ++ nameText name ++ "'"⟩

/-! ## Construction and framing -/

/-- The constructor. -/
def init (inp : Input) : State :=
  let state : State := { remainingAllocation := inp.limits.maxTotalAllocatedBytes }
  if inp.isNull then
    { state with error := some ⟨.parseError, "Binary input handle is null"⟩ }
  else if inp.limits.maxInputBytes < inp.size then
    { state with error := some ⟨.invalidLength, "Binary input exceeds configured byte limit"⟩ }
  else if inp.data.take binaryMagic.length = binaryMagic then
    { state with framed := true, offset := binaryMagic.length }
  else state

/-- `inputResult`. -/
def inputResult (s : State) : Except Error Unit :=
  match s.error with
  | some e => .error e
  | none => .ok ()

/-- `finish`. -/
def finish (inp : Input) (s : State) : Except Error Unit :=
  match s.error with
  | some e => .error e
  | none =>
    if s.offset ≠ inp.size then
      .error ⟨.parseError, "Binary input contains trailing or unconsumed bytes"⟩
    else .ok ()

/-- A computation on the budget alone. -/
def onBudget {α : Type} (x : ParseM α) : ReadM α := fun s =>
  match x s.remainingAllocation with
  | .ok a r => .ok a { s with remainingAllocation := r }
  | .error e r => .error e { s with remainingAllocation := r }

/-- A parse whose errors go into the handle. The offset moves only when it succeeds. -/
def parseAt (inp : Input) (cursor depth : ℕ) : ReadM InputValue := fun s =>
  match onBudget (parseNode inp (nodeFuel inp.limits depth) cursor inp.size depth) s with
  | .ok (node, cursor) s =>
    .ok (.node s.parses node) { s with offset := cursor, parses := s.parses + 1 }
  | .error (.error e) s => .ok (.error e) s
  | .error stop s => .error stop s

/-- `_rawValue`. -/
def rawValue (inp : Input) : ReadM InputValue := do
  let s ← get
  set { s with parses := s.parses + 1 }
  pure (.raw s.parses (if inp.size ≤ s.offset then
    some ⟨.parseError, "Unexpected end of raw fixed binary data"⟩ else none))

/-- `root`. -/
def root (inp : Input) : ReadM InputValue := do
  let s ← get
  match s.error with
  | some e => pure (.error e)
  | none => if s.framed then parseAt inp s.offset 0 else rawValue inp

/-! ## Validation and consumption -/

/-- `_validateHandle`. -/
def validateHandle (inp : Input) (s : State) (v : InputValue) : Option Error :=
  if inp.isNull then some ⟨.parseError, "Binary input handle is null"⟩
  else
    match s.error with
    | some e => some e
    | none =>
      match v with
      | .node _ _ => none
      | .raw _ e => e
      | .error e => some e

/-- The flag `consumed` of the node. -/
def isConsumed (s : State) (v : InputValue) : Bool :=
  match v.id with
  | some id => id ∈ s.consumed
  | none => false

/-- `_validate`. -/
def validate (inp : Input) (s : State) (v : InputValue) : Option Error :=
  match validateHandle inp s v with
  | some e => some e
  | none =>
    if isConsumed s v then some ⟨.parseError, "Binary value was already consumed"⟩ else none

/-- `if (auto error = _validate(input); error) return *error;` -/
def requireValid (inp : Input) (v : InputValue) : ReadM Unit := do
  let s ← get
  match validate inp s v with
  | some e => throw (.error e)
  | none => pure ()

/-- `node->consumed = true`. -/
def consume (v : InputValue) : ReadM Unit := do
  let s ← get
  match v.id with
  | some id => set { s with consumed := id :: s.consumed }
  | none => pure ()

/-- `_consumeRaw`. -/
def consumeRaw (v : InputValue) (stop : ℕ) : ReadM Unit := do
  consume v
  let s ← get
  set { s with offset := stop }

/-- `next`. -/
def next (inp : Input) (v : InputValue) : ReadM InputValue := do
  let s ← get
  match validateHandle inp s v with
  | some e => pure (.error e)
  | none =>
    match v with
    | .node _ n => parseAt inp n.end n.depth
    | _ => rawValue inp

/-! ## Containers -/

/-- `isRaw`. -/
def isRaw : InputValue → Bool
  | .raw _ _ => true
  | _ => false

/-- `isFramedObject`. -/
def isFramedObject : InputValue → Bool
  | .node _ n => n.tag = .namedObject ∨ n.tag = .idObject
  | _ => false

/-- `arraySize`. -/
def arraySize (v : InputValue) : ℕ := v.elements.length

/-- `arrayElement`. -/
def arrayElement (inp : Input) (s : State) (array : InputValue) (index : ℕ) : InputValue :=
  match validateHandle inp s array with
  | some e => .error e
  | none =>
    match array.elements[index]? with
    | some v =>
      if array.tag = .array then v
      else .error ⟨.invalidIndex, "Binary array index is out of range"⟩
    | none => .error ⟨.invalidIndex, "Binary array index is out of range"⟩

/-- `objectSize`. -/
def objectSize (v : InputValue) : ℕ := v.members.length

/-- `namedIndex.find(name)`, and the member at that index. -/
def findName (v : InputValue) (name : Bytes) : Option InputValue :=
  (v.members.find? fun m => (v.tag = .namedObject ∨ m.name ≠ []) ∧ m.name = name).map Member.value

/-- `idIndex.find(id)`, and the member at that index. -/
def findId (v : InputValue) (id : UInt32) : Option InputValue :=
  (v.members.find? fun m => ¬(v.tag = .namedObject ∨ m.name ≠ []) ∧ m.id = id).map Member.value

/-- A lookup, or the error of a missing field. -/
def fieldOr (name : Bytes) (found : Option InputValue) : Except Error InputValue :=
  match found with
  | some v => .ok v
  | none => .error (missingField name)

/-- `objectField`. -/
def objectField (inp : Input) (s : State) (object : InputValue) (name : Bytes) :
    Except Error InputValue :=
  match validateHandle inp s object with
  | some e => .error e
  | none =>
    if object.tag = .namedObject then fieldOr name (findName object name)
    else if object.tag = .idObject then
      if useHashedFieldId name then fieldOr name (findId object (fieldId name))
      else fieldOr name (findName object name)
    else .error ⟨.invalidType, "Binary value is not a object"⟩

/-- The loop of `forEachObjectMember`; `acc` stands for what the callback captures. -/
def forEachMember {β : Type} (fn : Bytes → InputValue → β → ReadM (Bool × β)) :
    List (Member InputValue) → β → ReadM (Bool × β)
  | [], acc => pure (true, acc)
  | m :: ms, acc => do
    let (go, acc) ← fn m.name m.value acc
    if go then forEachMember fn ms acc else pure (false, acc)

/-- `forEachObjectMember`. -/
def forEachObjectMember {β : Type} (inp : Input) (object : InputValue)
    (fn : Bytes → InputValue → β → ReadM (Bool × β)) (acc : β) : ReadM (Bool × β) := do
  let s ← get
  match validateHandle inp s object with
  | some _ => pure (false, acc)
  | none =>
    if object.tag ≠ .namedObject then pure (false, acc)
    else forEachMember fn object.members acc

/-- `toArray`. -/
def toArray (inp : Input) (v : InputValue) : ReadM InputValue := do
  requireValid inp v
  if isRaw v ∨ v.tag ≠ .array then typeError "array" else pure v

/-- `toObject`. -/
def toObject (inp : Input) (v : InputValue) : ReadM InputValue := do
  requireValid inp v
  if isFramedObject v then pure v else typeError "object"

/-! ## Scalars -/

/-- `isEmpty`, which consumes a null. -/
def isEmpty (inp : Input) (v : InputValue) : ReadM Bool := do
  let s ← get
  if (validate inp s v).isSome ∨ isRaw v ∨ v.tag ≠ .null then pure false
  else do
    consume v
    pure true

/-- The value of an integral type from its varint. -/
def decodeInteger {n : ℕ} (signed : Bool) (encoded : BitVec n) : ReadM (BitVec n) :=
  if signed then
    let magnitude := (encoded >>> 1) + (encoded &&& 1)
    if encoded &&& 1 ≠ 0 then
      let minimumMagnitude := BitVec.intMax n + 1
      if minimumMagnitude < magnitude then fail .invalidType "Binary integer is out of range"
      else if magnitude = minimumMagnitude then pure (BitVec.intMin n)
      else pure (-magnitude)
    else if BitVec.intMax n < magnitude then fail .invalidType "Binary integer is out of range"
    else pure magnitude
  else pure encoded

/-- The big-endian number at an offset (`memcpy` and `betoh`). -/
def bitsAt (inp : Input) (n offset size : ℕ) : ReadM (BitVec n) := do
  let bytes ← bytesAt inp offset size
  pure (BitVec.ofNat n (BigEndian.ofBytes bytes))

/-- `_readFloating`, for either floating-point type. -/
def readFloating (inp : Input) (tag : ValueTag) (kind : String) (n : ℕ) (v : InputValue)
    (node : Node) : ReadM (BitVec n) :=
  if node.tag ≠ tag then typeError kind
  else do
    let bits ← bitsAt inp n node.dataBegin tag.fixedWidth
    consume v
    pure bits

/-- `_readRaw<std::string>`. -/
def readRawString (inp : Input) (v : InputValue) : ReadM Bytes := do
  let s ← get
  let (size, cursor) ← readUleb inp 64 s.offset inp.size
  let rest ← subSize inp.size cursor
  if inp.limits.maxStringBytes < size ∨ rest < size then
    fail .invalidLength "Raw binary string exceeds configured limit"
  else do
    onBudget (charge size)
    let value ← bytesAt inp cursor size
    let cursor ← addSize cursor size
    consumeRaw v cursor
    pure value

/-- The length check of `_readRawFixed`. -/
def requireRaw (inp : Input) (T : Arithmetic) (size : ℕ) : ReadM Unit := do
  let s ← get
  let rest ← subSize inp.size s.offset
  if size ≠ T.size ∨ rest < size then
    fail .parseError "Unexpected end of raw fixed binary data"
  else pure ()

/-- A raw boolean, which is consumed before it is checked. -/
def readRawBool (inp : Input) (v : InputValue) : ReadM Bool := do
  let s ← get
  let byte ← byteAt inp s.offset
  let stop ← addSize s.offset 1
  consumeRaw v stop
  if 1 < byte then fail .parseError "Raw binary bool must be 0 or 1" else pure (byte != 0)

/-- A raw number. -/
def readRawBits (inp : Input) (n : ℕ) (v : InputValue) (size : ℕ) : ReadM (BitVec n) := do
  let s ← get
  let bits ← bitsAt inp n s.offset size
  let stop ← addSize s.offset size
  consumeRaw v stop
  pure bits

/-- `_readRawFixed`. -/
def readRawFixed (inp : Input) (v : InputValue) (size : ℕ) : (T : Arithmetic) → ReadM T.Value
  | .bool => do
    requireRaw inp .bool size
    readRawBool inp v
  | .integer signed w => do
    requireRaw inp (.integer signed w) size
    readRawBits inp w.bits v size
  | .float => do
    requireRaw inp .float size
    readRawBits inp 32 v size
  | .double => do
    requireRaw inp .double size
    readRawBits inp 64 v size

/-- `toBasicType` of a framed node. -/
def toBasicNode (inp : Input) (v : InputValue) (node : Node) : (T : Arithmetic) → ReadM T.Value
  | .bool =>
    if node.tag ≠ .false ∧ node.tag ≠ .true then typeError "bool"
    else do
      consume v
      pure (decide (node.tag = .true))
  | .integer signed w =>
    if node.tag ≠ (if signed then .signedInteger else .unsignedInteger) then
      typeError (if signed then "signed integer" else "unsigned integer")
    else do
      let (decoded, _) ← readUleb inp w.bits node.dataBegin node.dataEnd
      consume v
      decodeInteger signed (BitVec.ofNat w.bits decoded)
  | .float => readFloating inp .float32 "float32" 32 v node
  | .double => readFloating inp .float64 "float64" 64 v node

/-- `toBasicType`, of an arithmetic type. -/
def toBasicType (inp : Input) (T : Arithmetic) (v : InputValue) : ReadM T.Value := do
  requireValid inp v
  match v with
  | .node _ node => toBasicNode inp v node T
  | .raw _ _ => readRawFixed inp v T.size T
  | .error e => throw (.error e)

/-- `toBasicType<std::string>`. -/
def toBasicString (inp : Input) (v : InputValue) : ReadM Bytes := do
  requireValid inp v
  match v with
  | .node _ node =>
    if node.tag ≠ .string then typeError "string"
    else do
      let size ← subSize node.dataEnd node.dataBegin
      onBudget (charge size)
      consume v
      bytesAt inp node.dataBegin size
  | .raw _ _ => readRawString inp v
  | .error e => throw (.error e)

/-- `readFixed` of a framed node. -/
def readFixedNode (inp : Input) (v : InputValue) (node : Node) (size : ℕ) :
    (T : Arithmetic) → ReadM T.Value
  | .bool => toBasicType inp .bool v
  | .integer signed w =>
    if size ≠ w.bytes ∨ node.tag ≠ fixedTag signed w then typeError "fixed-width integer"
    else do
      let bits ← bitsAt inp w.bits node.dataBegin w.bytes
      consume v
      pure bits
  | .float =>
    if size ≠ 4 then fail .invalidLength "Invalid fixed floating-point width"
    else readFloating inp .float32 "float32" 32 v node
  | .double =>
    if size ≠ 8 then fail .invalidLength "Invalid fixed floating-point width"
    else readFloating inp .float64 "float64" 64 v node

/-- `readFixed`, and `toFixedBasicType`. -/
def readFixed (inp : Input) (T : Arithmetic) (v : InputValue) (size : ℕ) : ReadM T.Value := do
  requireValid inp v
  match v with
  | .node _ node => readFixedNode inp v node size T
  | .raw _ _ => readRawFixed inp v size T
  | .error e => throw (.error e)

end Reader

end NekoProto.Binary
