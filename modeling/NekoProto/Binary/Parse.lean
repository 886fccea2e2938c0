import NekoProto.Binary.Format

/-!
# Parsing a Binary V2 document

`Reader::_parseNode` of `binary_reader.hpp` and what it calls. The cursor is passed on and handed
back; the state is the remaining allocation budget, which a failed parse leaves reduced. Besides
the errors of the source, a parse can stop with a fault of its own: a read outside the buffer, a
`size_t` operation that leaves its range, or a lack of fuel. None of the three happens
(`parseNode_safe`).

The recursion into children is on a fuel of the depth limit, the loops are on the declared
counts.
-/

namespace NekoProto.Binary

/-- Why a read stops: an error of the source, or a fault that the source leaves undefined. -/
inductive Stop
  | error (error : Error)
  | outOfBounds
  | wrapped
  | outOfFuel
  deriving DecidableEq, Repr

/-- A computation on the remaining allocation budget. -/
abbrev ParseM := EStateM Stop ℕ

/-- `sa::error(code, msg)`. -/
def fail {σ α : Type} (code : ErrorCode) (msg : String) : EStateM Stop σ α :=
  throw (.error ⟨code, msg⟩)

/-- The part of `Reader::State` that does not change: the buffer and the limits. The size and the
limits are `size_t`; of a null pointer nothing is ever read. -/
structure Input where
  data : Bytes
  isNull : Bool := false
  limits : ParseLimits := {}
  abi : Abi := {}
  size_lt : data.length < 2 ^ 64
  limits_lt : limits.Sized

/-- `State::size`. -/
def Input.size (inp : Input) : ℕ := inp.data.length

/-! ## Nodes -/

/-- `Reader::Member`. -/
structure Member (α : Type) where
  name : Bytes := []
  id : UInt32 := 0
  value : α
  deriving DecidableEq, Repr

/-- `Reader::Node` of a framed value. The flag `consumed` is kept with the read state, and the
maps `namedIndex` and `idIndex` are functions of the members. -/
inductive Node
  | mk (tag : ValueTag) (begin dataBegin dataEnd «end» depth : ℕ) (elements : List Node)
    (members : List (Member Node))

namespace Node

def tag : Node → ValueTag | mk tag _ _ _ _ _ _ _ => tag
def begin : Node → ℕ | mk _ b _ _ _ _ _ _ => b
def dataBegin : Node → ℕ | mk _ _ db _ _ _ _ _ => db
def dataEnd : Node → ℕ | mk _ _ _ de _ _ _ _ => de
def «end» : Node → ℕ | mk _ _ _ _ e _ _ _ => e
def depth : Node → ℕ | mk _ _ _ _ _ d _ _ => d
def elements : Node → List Node | mk _ _ _ _ _ _ es _ => es
def members : Node → List (Member Node) | mk _ _ _ _ _ _ _ ms => ms

end Node

/-! ## Machine arithmetic -/

section

variable {σ : Type}

/-- `a + b` on `size_t`. -/
def addSize (a b : ℕ) : EStateM Stop σ ℕ :=
  if a + b < 2 ^ 64 then pure (a + b) else throw .wrapped

/-- `a - b` on `size_t`. -/
def subSize (a b : ℕ) : EStateM Stop σ ℕ :=
  if b ≤ a then pure (a - b) else throw .wrapped

/-- `state.data[offset]`. -/
def byteAt (inp : Input) (offset : ℕ) : EStateM Stop σ UInt8 :=
  match inp.data[offset]? with
  | some byte => pure byte
  | none => throw .outOfBounds

/-- The `size` bytes of the buffer from `offset` on. -/
def bytesAt (inp : Input) (offset size : ℕ) : EStateM Stop σ Bytes :=
  if offset + size ≤ inp.size then pure ((inp.data.drop offset).take size) else throw .outOfBounds

/-! ## Varints -/

/-- The loop of `_readUleb` for an unsigned type of `bits` bits. -/
def readUlebLoop (inp : Input) (bits start limit : ℕ) :
    ℕ → ℕ → ℕ → ℕ → EStateM Stop σ (ℕ × ℕ)
  | 0, cursor, _, _ =>
    if cursor < limit then throw .outOfFuel else fail .parseError "Truncated binary varint"
  | fuel + 1, cursor, shift, value =>
    if cursor < limit then do
      let byte ← byteAt inp cursor
      let cursor ← addSize cursor 1
      let chunk := (byte &&& 0x7F).toNat
      if bits ≤ shift ∨ (2 ^ bits - 1) >>> shift < chunk then
        fail .invalidType "Binary varint is out of range"
      else
        let value := value ||| (chunk <<< shift)
        if byte &&& 0x80 = 0 then do
          let length ← subSize cursor start
          if 1 < length ∧ chunk = 0 then
            fail .parseError "Binary varint is not minimally encoded"
          else pure (value, cursor)
        else readUlebLoop inp bits start limit fuel cursor (shift + 7) value
    else fail .parseError "Truncated binary varint"

/-- `_readUleb`: the value, and the cursor after it. -/
def readUleb (inp : Input) (bits cursor limit : ℕ) : EStateM Stop σ (ℕ × ℕ) :=
  readUlebLoop inp bits cursor limit (limit - cursor) cursor 0 0

/-- `_readCount`. -/
def readCount (inp : Input) (cursor limit maximum : ℕ) (kind : String) :
    EStateM Stop σ (ℕ × ℕ) := do
  let (count, cursor) ← readUleb inp 64 cursor limit
  if maximum < count ∨ 2 ^ 64 - 1 < count then
    fail .invalidLength ("Binary " ++ kind ++ " exceeds configured member limit")
  else pure (count, cursor)

end

/-! ## The allocation budget -/

/-- `_charge`. -/
def charge (bytes : ℕ) : ParseM Unit := do
  let remaining ← get
  if remaining < bytes then fail .invalidLength "Binary parse allocation budget exceeded"
  else do
    let remaining ← subSize remaining bytes
    set remaining

/-- `_chargeProduct`. -/
def chargeProduct (count elementSize : ℕ) : ParseM Unit :=
  if count ≠ 0 ∧ (2 ^ 64 - 1) / count < elementSize then
    fail .invalidLength "Binary parse allocation size overflow"
  else if count * elementSize < 2 ^ 64 then charge (count * elementSize)
  else throw .wrapped

/-! ## Values -/

/-- The limits of a value, as `_parseNode` sees them: the cursor after the tag, the end of the
input, and the depth. -/
structure Frame where
  start : ℕ
  cursor : ℕ
  limit : ℕ
  depth : ℕ

/-- `_fixedWidth`, with the widths of the floating-point tags. -/
def ValueTag.fixedWidth : ValueTag → ℕ
  | .fixedSigned8 | .fixedUnsigned8 => 1
  | .fixedSigned16 | .fixedUnsigned16 => 2
  | .fixedSigned32 | .fixedUnsigned32 | .float32 => 4
  | .fixedSigned64 | .fixedUnsigned64 | .float64 => 8
  | _ => 0

/-- A value without payload. -/
def parseEmpty (tag : ValueTag) (fr : Frame) : ParseM (Node × ℕ) :=
  pure (.mk tag fr.start 0 0 fr.cursor fr.depth [] [], fr.cursor)

/-- A varint value. -/
def parseVarint (inp : Input) (tag : ValueTag) (fr : Frame) : ParseM (Node × ℕ) := do
  let (_, cursor) ← readUleb inp 64 fr.cursor fr.limit
  pure (.mk tag fr.start fr.cursor cursor cursor fr.depth [] [], cursor)

/-- A fixed-width value: `_takeFixed`, and the width 0 of the `default` case. -/
def parseFixed (tag : ValueTag) (fr : Frame) : ParseM (Node × ℕ) := do
  let rest ← subSize fr.limit fr.cursor
  if tag.fixedWidth = 0 ∨ rest < tag.fixedWidth then
    fail .parseError "Truncated fixed-width binary value"
  else do
    let cursor ← addSize fr.cursor tag.fixedWidth
    pure (.mk tag fr.start fr.cursor cursor cursor fr.depth [] [], cursor)

/-- The `size` bytes from the cursor on, checked against the limits. -/
def takeString (inp : Input) (size cursor limit : ℕ) (msg : String) : ParseM (Bytes × ℕ) := do
  if inp.limits.maxStringBytes < size then fail .invalidLength msg
  else do
    let rest ← subSize limit cursor
    if rest < size then fail .invalidLength msg
    else do
      let bytes ← bytesAt inp cursor size
      let cursor ← addSize cursor size
      pure (bytes, cursor)

/-- A string. -/
def parseString (inp : Input) (fr : Frame) : ParseM (Node × ℕ) := do
  let (size, start) ← readUleb inp 64 fr.cursor fr.limit
  let (_, cursor) ← takeString inp size start fr.limit "Binary string exceeds configured byte limit"
  pure (.mk .string fr.start start cursor cursor fr.depth [] [], cursor)

section

variable (child : ℕ → ℕ → ℕ → ParseM (Node × ℕ))

/-- The loop over the elements of an array. -/
def parseElements (limit depth : ℕ) : ℕ → ℕ → List Node → ParseM (List Node × ℕ)
  | 0, cursor, elements => pure (elements, cursor)
  | count + 1, cursor, elements => do
    let depth' ← addSize depth 1
    let (element, cursor) ← child cursor limit depth'
    parseElements limit depth count cursor (elements ++ [element])

/-- An array. -/
def parseArray (inp : Input) (fr : Frame) : ParseM (Node × ℕ) := do
  let (count, cursor) ← readCount inp fr.cursor fr.limit inp.limits.maxContainerElements "array"
  chargeProduct count inp.abi.pointerSize
  let (elements, cursor) ← parseElements child fr.limit fr.depth count cursor []
  pure (.mk .array fr.start 0 0 cursor fr.depth elements [], cursor)

/-- The members `namedIndex` knows by name: all of a `NamedObject`, those of an `IdObject` that have
a name. -/
def inNamedIndex (tag : ValueTag) (m : Member Node) : Bool := tag = .namedObject ∨ m.name ≠ []

/-- `namedIndex.contains(name)`. -/
def namedIndexContains (tag : ValueTag) (members : List (Member Node)) (name : Bytes) : Bool :=
  members.any fun m => inNamedIndex tag m ∧ m.name = name

/-- `idIndex.contains(id)`. -/
def idIndexContains (tag : ValueTag) (members : List (Member Node)) (id : UInt32) : Bool :=
  members.any fun m => ¬inNamedIndex tag m ∧ m.id = id

/-- The key of a member of a `NamedObject`: its name. -/
def parseName (inp : Input) (members : List (Member Node)) (cursor limit : ℕ) :
    ParseM (Bytes × UInt32 × ℕ) := do
  let (size, cursor) ← readUleb inp 64 cursor limit
  let (name, cursor) ←
    takeString inp size cursor limit "Binary field name exceeds configured limit"
  if namedIndexContains .namedObject members name then
    fail .invalidField "Binary object contains a duplicate field name"
  else pure (name, 0, cursor)

/-- The key of a member of an `IdObject`: its name, or the hash of it. -/
def parseKey (inp : Input) (members : List (Member Node)) (cursor limit : ℕ) :
    ParseM (Bytes × UInt32 × ℕ) := do
  let (key, cursor) ← readUleb inp 64 cursor limit
  if key &&& 1 = 0 then do
    let (name, cursor) ←
      takeString inp (key >>> 1) cursor limit "Binary reflected field name exceeds configured limit"
    if namedIndexContains .idObject members name then
      fail .invalidField "Binary object contains a duplicate reflected field name"
    else pure (name, 0, cursor)
  else if 2 ^ 32 - 1 < key >>> 1 then
    fail .invalidField "Binary reflected field id is out of range"
  else if idIndexContains .idObject members (UInt32.ofNat (key >>> 1)) then
    fail .invalidField "Binary object contains a duplicate reflected field id"
  else pure ([], UInt32.ofNat (key >>> 1), cursor)

/-- The key of a member. -/
def parseMemberKey (inp : Input) (tag : ValueTag) (members : List (Member Node))
    (cursor limit : ℕ) : ParseM (Bytes × UInt32 × ℕ) :=
  if tag = .namedObject then parseName inp members cursor limit
  else parseKey inp members cursor limit

/-- The loop over the members of an object. -/
def parseMembers (inp : Input) (tag : ValueTag) (limit depth : ℕ) :
    ℕ → ℕ → List (Member Node) → ParseM (List (Member Node) × ℕ)
  | 0, cursor, members => pure (members, cursor)
  | count + 1, cursor, members => do
    let (name, id, cursor) ← parseMemberKey inp tag members cursor limit
    let depth' ← addSize depth 1
    let (value, cursor) ← child cursor limit depth'
    parseMembers inp tag limit depth count cursor (members ++ [{ name := name, id := id, value }])

/-- An object. -/
def parseObject (inp : Input) (tag : ValueTag) (fr : Frame) : ParseM (Node × ℕ) := do
  let (count, cursor) ← readCount inp fr.cursor fr.limit inp.limits.maxObjectFields "object"
  chargeProduct count inp.abi.memberSize
  let (members, cursor) ← parseMembers child inp tag fr.limit fr.depth count cursor []
  pure (.mk tag fr.start 0 0 cursor fr.depth [] members, cursor)

/-- The `switch` of `_parseNode`. -/
def parsePayload (inp : Input) (tag : ValueTag) (fr : Frame) : ParseM (Node × ℕ) :=
  match tag with
  | .null | .false | .true => parseEmpty tag fr
  | .signedInteger | .unsignedInteger => parseVarint inp tag fr
  | .string => parseString inp fr
  | .array => parseArray child inp fr
  | .namedObject | .idObject => parseObject child inp tag fr
  | _ => parseFixed tag fr

end

/-- `_parseNode`: the node at the cursor, and the cursor after it. -/
def parseNode (inp : Input) : ℕ → ℕ → ℕ → ℕ → ParseM (Node × ℕ)
  | 0, _, _, _ => throw .outOfFuel
  | fuel + 1, cursor, limit, depth =>
    if inp.limits.maxDepth < depth then
      fail .invalidLength "Binary nesting exceeds configured depth limit"
    else if limit ≤ cursor ∨ inp.size < limit then
      fail .parseError "Unexpected end of binary value"
    else do
      charge inp.abi.nodeSize
      let rawTag ← byteAt inp cursor
      let next ← addSize cursor 1
      match ValueTag.ofByte rawTag with
      | none => fail .invalidType "Unknown binary value tag"
      | some tag => parsePayload (parseNode inp fuel) inp tag ⟨cursor, next, limit, depth⟩

/-- The fuel for a node at a given depth: its own call, and one for each depth up to the first that
is refused. -/
def nodeFuel (limits : ParseLimits) (depth : ℕ) : ℕ := limits.maxDepth + 2 - depth

end NekoProto.Binary
