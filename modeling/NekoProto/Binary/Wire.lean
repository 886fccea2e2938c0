import NekoProto.Binary.Parse
import NekoProto.Lib.Leb128
import NekoProto.Lib.Segment

/-!
# The grammar of framed values

A tree for every framed value (`Wire`), with its bytes (`encode`), the limits it must keep
(`Fits`), what parsing it costs (`charge`), and the nodes the parser builds for it when it stands
at a given offset and depth (`layout`). The parser accepts exactly the encodings of trees that
fit, and builds their layout; this is proved in `ParseExact`.
-/

namespace NekoProto.Binary

/-! ## Keys -/

/-- The key of a member: a literal name, or the hash of one. -/
inductive Key
  | literal (name : Bytes)
  | hash (id : UInt32)
  deriving DecidableEq, Repr

namespace Key

/-- `Member::name` under this key. -/
def name : Key → Bytes
  | literal name => name
  | hash _ => []

/-- `Member::id` under this key. -/
def id : Key → UInt32
  | literal _ => 0
  | hash id => id

/-- The bytes of a key, in a `NamedObject` or in an `IdObject`. -/
def encode (named : Bool) : Key → Bytes
  | literal name => Leb128.encode (if named then name.length else 2 * name.length) ++ name
  | hash id => Leb128.encode (2 * id.toNat + 1)

/-- The keys the parser accepts by themselves. -/
def Fits (limits : ParseLimits) (named : Bool) : Key → Prop
  | literal name =>
    name.length ≤ limits.maxStringBytes ∧ (named = false → 2 * name.length < 2 ^ 64)
  | hash _ => named = false

/-- Whether the parser refuses a key after an earlier one. The empty name of an `IdObject` goes
to the index of the hashes, as if it were the hash 0. -/
def Clashes (named : Bool) : Key → Key → Prop
  | literal n, literal m => n = m ∧ (named = true ∨ n ≠ [])
  | literal n, hash j => n = [] ∧ j = 0
  | hash _, literal _ => False
  | hash i, hash j => i = j

instance (named : Bool) : DecidableRel (Clashes named)
  | literal n, literal m => inferInstanceAs (Decidable (n = m ∧ (named = true ∨ n ≠ [])))
  | literal n, hash j => inferInstanceAs (Decidable (n = [] ∧ j = 0))
  | hash _, literal _ => isFalse (fun h => h)
  | hash i, hash j => inferInstanceAs (Decidable (i = j))

/-- Two keys that are the same hash. -/
def SameHash : Key → Key → Prop
  | hash i, hash j => i = j
  | _, _ => False

end Key

/-- No key clashes with an earlier one. -/
def KeysFit (named : Bool) (keys : List Key) : Prop :=
  keys.Pairwise fun earlier later => ¬Key.Clashes named earlier later

/-! ## Trees -/

/-- A framed value. -/
inductive Wire
  | null
  | bool (value : Bool)
  | integer (signed : Bool) (value : ℕ)
  | fixed (tag : ValueTag) (payload : Bytes)
  | string (bytes : Bytes)
  | array (elements : List Wire)
  | object (named : Bool) (members : List (Key × Wire))

/-- The tag of an object. -/
def objectTag (named : Bool) : ValueTag := if named then .namedObject else .idObject

/-- The tag of an integer. -/
def integerTag (signed : Bool) : ValueTag := if signed then .signedInteger else .unsignedInteger

/-- The tag of a boolean. -/
def boolTag (value : Bool) : ValueTag := if value then .true else .false

namespace Wire

/-- The tag of a value. -/
def tag : Wire → ValueTag
  | null => .null
  | bool value => boolTag value
  | integer signed _ => integerTag signed
  | fixed tag _ => tag
  | string _ => .string
  | array _ => .array
  | object named _ => objectTag named

mutual

/-- The bytes of a value. -/
def encode : Wire → Bytes
  | null => [ValueTag.null.toByte]
  | bool value => [(boolTag value).toByte]
  | integer signed value => (integerTag signed).toByte :: Leb128.encode value
  | fixed tag payload => tag.toByte :: payload
  | string bytes => ValueTag.string.toByte :: (Leb128.encode bytes.length ++ bytes)
  | array elements =>
    ValueTag.array.toByte :: (Leb128.encode elements.length ++ encodeList elements)
  | object named members =>
    (objectTag named).toByte :: (Leb128.encode members.length ++ encodeMembers named members)

/-- The bytes of the elements of an array. -/
def encodeList : List Wire → Bytes
  | [] => []
  | w :: ws => encode w ++ encodeList ws

/-- The bytes of the members of an object. -/
def encodeMembers (named : Bool) : List (Key × Wire) → Bytes
  | [] => []
  | (key, w) :: ms => key.encode named ++ (encode w ++ encodeMembers named ms)

end

mutual

/-- What the parser checks of a value at a given depth. -/
def Fits (limits : ParseLimits) : ℕ → Wire → Prop
  | depth, null => depth ≤ limits.maxDepth
  | depth, bool _ => depth ≤ limits.maxDepth
  | depth, integer _ value => depth ≤ limits.maxDepth ∧ value < 2 ^ 64
  | depth, fixed tag payload =>
    depth ≤ limits.maxDepth ∧ tag.fixedWidth ≠ 0 ∧ payload.length = tag.fixedWidth
  | depth, string bytes => depth ≤ limits.maxDepth ∧ bytes.length ≤ limits.maxStringBytes
  | depth, array elements =>
    depth ≤ limits.maxDepth ∧ elements.length ≤ limits.maxContainerElements ∧
      FitsList limits (depth + 1) elements
  | depth, object named members =>
    depth ≤ limits.maxDepth ∧ members.length ≤ limits.maxObjectFields ∧
      KeysFit named (members.map Prod.fst) ∧ FitsMembers limits named (depth + 1) members

/-- What the parser checks of each element. -/
def FitsList (limits : ParseLimits) : ℕ → List Wire → Prop
  | _, [] => True
  | depth, w :: ws => Fits limits depth w ∧ FitsList limits depth ws

/-- What the parser checks of each member by itself. -/
def FitsMembers (limits : ParseLimits) (named : Bool) : ℕ → List (Key × Wire) → Prop
  | _, [] => True
  | depth, (key, w) :: ms =>
    key.Fits limits named ∧ Fits limits depth w ∧ FitsMembers limits named depth ms

end

mutual

/-- What the parser checks of a value at a given depth, but for the keys among themselves. -/
def Within (limits : ParseLimits) : ℕ → Wire → Prop
  | depth, null => depth ≤ limits.maxDepth
  | depth, bool _ => depth ≤ limits.maxDepth
  | depth, integer _ value => depth ≤ limits.maxDepth ∧ value < 2 ^ 64
  | depth, fixed tag payload =>
    depth ≤ limits.maxDepth ∧ tag.fixedWidth ≠ 0 ∧ payload.length = tag.fixedWidth
  | depth, string bytes => depth ≤ limits.maxDepth ∧ bytes.length ≤ limits.maxStringBytes
  | depth, array elements =>
    depth ≤ limits.maxDepth ∧ elements.length ≤ limits.maxContainerElements ∧
      WithinList limits (depth + 1) elements
  | depth, object named members =>
    depth ≤ limits.maxDepth ∧ members.length ≤ limits.maxObjectFields ∧
      WithinMembers limits named (depth + 1) members

/-- The limits of each element. -/
def WithinList (limits : ParseLimits) : ℕ → List Wire → Prop
  | _, [] => True
  | depth, w :: ws => Within limits depth w ∧ WithinList limits depth ws

/-- The limits of each member. -/
def WithinMembers (limits : ParseLimits) (named : Bool) : ℕ → List (Key × Wire) → Prop
  | _, [] => True
  | depth, (key, w) :: ms =>
    key.Fits limits named ∧ Within limits depth w ∧ WithinMembers limits named depth ms

end

mutual

/-- No two keys of an object clash, at any depth. -/
def KeysOk : Wire → Prop
  | array elements => KeysOkList elements
  | object named members => KeysFit named (members.map Prod.fst) ∧ KeysOkMembers members
  | _ => True

/-- No keys clash in the elements. -/
def KeysOkList : List Wire → Prop
  | [] => True
  | w :: ws => KeysOk w ∧ KeysOkList ws

/-- No keys clash in the values of the members. -/
def KeysOkMembers : List (Key × Wire) → Prop
  | [] => True
  | (_, w) :: ms => KeysOk w ∧ KeysOkMembers ms

end

mutual

/-- The checks of the parser are those of each value by itself and those of the keys. -/
theorem fits_iff {limits : ParseLimits} : (w : Wire) → (depth : ℕ) →
    (w.Fits limits depth ↔ w.Within limits depth ∧ w.KeysOk)
  | null, _ => by simp only [Fits, Within, KeysOk, and_true]
  | bool _, _ => by simp only [Fits, Within, KeysOk, and_true]
  | integer _ _, _ => by simp only [Fits, Within, KeysOk, and_true]
  | fixed _ _, _ => by simp only [Fits, Within, KeysOk, and_true]
  | string _, _ => by simp only [Fits, Within, KeysOk, and_true]
  | array elements, depth => by
    simp only [Fits, Within, KeysOk, fitsList_iff elements (depth + 1), and_assoc]
  | object named members, depth => by
    simp only [Fits, Within, KeysOk, fitsMembers_iff named members (depth + 1)]
    tauto

theorem fitsList_iff {limits : ParseLimits} : (ws : List Wire) → (depth : ℕ) →
    (FitsList limits depth ws ↔ WithinList limits depth ws ∧ KeysOkList ws)
  | [], _ => by simp only [FitsList, WithinList, KeysOkList, and_true]
  | w :: ws, depth => by
    simp only [FitsList, WithinList, KeysOkList, fits_iff w depth, fitsList_iff ws depth]
    tauto

theorem fitsMembers_iff {limits : ParseLimits} (named : Bool) : (ms : List (Key × Wire)) →
    (depth : ℕ) → (FitsMembers limits named depth ms ↔
      WithinMembers limits named depth ms ∧ KeysOkMembers ms)
  | [], _ => by simp only [FitsMembers, WithinMembers, KeysOkMembers, and_true]
  | (key, w) :: ms, depth => by
    simp only [FitsMembers, WithinMembers, KeysOkMembers, fits_iff w depth,
      fitsMembers_iff named ms depth]
    tauto

end

mutual

/-- No two keys of an object are the same hash, at any depth. -/
def HashesOk : Wire → Prop
  | array elements => HashesOkList elements
  | object _ members =>
    (members.map Prod.fst).Pairwise (fun k l => ¬Key.SameHash k l) ∧ HashesOkMembers members
  | _ => True

/-- No hash is repeated in the elements. -/
def HashesOkList : List Wire → Prop
  | [] => True
  | w :: ws => HashesOk w ∧ HashesOkList ws

/-- No hash is repeated in the values of the members. -/
def HashesOkMembers : List (Key × Wire) → Prop
  | [] => True
  | (_, w) :: ms => HashesOk w ∧ HashesOkMembers ms

end

mutual

/-- The allocation the parser charges for a value. -/
def charge (abi : Abi) : Wire → ℕ
  | array elements =>
    abi.nodeSize + (elements.length * abi.pointerSize + chargeList abi elements)
  | object _ members =>
    abi.nodeSize + (members.length * abi.memberSize + chargeMembers abi members)
  | _ => abi.nodeSize

/-- The allocation charged for elements. -/
def chargeList (abi : Abi) : List Wire → ℕ
  | [] => 0
  | w :: ws => charge abi w + chargeList abi ws

/-- The allocation charged for members. -/
def chargeMembers (abi : Abi) : List (Key × Wire) → ℕ
  | [] => 0
  | (_, w) :: ms => charge abi w + chargeMembers abi ms

end

mutual

/-- The node of a value at an offset and a depth. -/
def layout : ℕ → ℕ → Wire → Node
  | pos, depth, null => .mk .null pos 0 0 (pos + 1) depth [] []
  | pos, depth, bool value => .mk (boolTag value) pos 0 0 (pos + 1) depth [] []
  | pos, depth, integer signed value =>
    let stop := pos + 1 + (Leb128.encode value).length
    .mk (integerTag signed) pos (pos + 1) stop stop depth [] []
  | pos, depth, fixed tag payload =>
    let stop := pos + 1 + payload.length
    .mk tag pos (pos + 1) stop stop depth [] []
  | pos, depth, string bytes =>
    let start := pos + 1 + (Leb128.encode bytes.length).length
    .mk .string pos start (start + bytes.length) (start + bytes.length) depth [] []
  | pos, depth, array elements =>
    let start := pos + 1 + (Leb128.encode elements.length).length
    .mk .array pos 0 0 (start + (encodeList elements).length) depth
      (layoutList start (depth + 1) elements) []
  | pos, depth, object named members =>
    let start := pos + 1 + (Leb128.encode members.length).length
    .mk (objectTag named) pos 0 0 (start + (encodeMembers named members).length) depth []
      (layoutMembers named start (depth + 1) members)

/-- The nodes of the elements of an array. -/
def layoutList : ℕ → ℕ → List Wire → List Node
  | _, _, [] => []
  | pos, depth, w :: ws => layout pos depth w :: layoutList (pos + (encode w).length) depth ws

/-- The members of an object. -/
def layoutMembers (named : Bool) : ℕ → ℕ → List (Key × Wire) → List (Member Node)
  | _, _, [] => []
  | pos, depth, (key, w) :: ms =>
    let start := pos + (key.encode named).length
    { name := key.name, id := key.id, value := layout start depth w } ::
      layoutMembers named (start + (encode w).length) depth ms

end

end Wire

end NekoProto.Binary
