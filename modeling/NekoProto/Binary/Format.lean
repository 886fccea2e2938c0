import Mathlib.Data.Nat.Notation
import Mathlib.Tactic.IntervalCases

/-!
# The Binary V2 format

The constants of `binary_writer.hpp` that the Writer and the Reader share: the value tags, the
magic, and the choice between a literal name and a hash for the key of a reflected field.
-/

namespace NekoProto.Binary

/-- The bytes of a buffer, of a string or of a name. -/
abbrev Bytes := List UInt8

/-! ## Errors -/

/-- `sa::ErrorCode`. -/
inductive ErrorCode
  | ok | unknown | invalidIndex | invalidField | invalidType | parseError | invalidLength
  deriving DecidableEq, Repr

/-- `sa::Error`, with its code in the serialization category. -/
structure Error where
  code : ErrorCode
  msg : String
  deriving DecidableEq, Repr

/-! ## Tags -/

/-- `ValueTag`. -/
inductive ValueTag
  | null | false | true | signedInteger | unsignedInteger | float32 | float64 | string | array
  | namedObject | idObject | fixedSigned8 | fixedSigned16 | fixedSigned32 | fixedSigned64
  | fixedUnsigned8 | fixedUnsigned16 | fixedUnsigned32 | fixedUnsigned64
  deriving DecidableEq, Repr

namespace ValueTag

/-- The byte of a tag. -/
def toByte : ValueTag → UInt8
  | null => 0
  | false => 1
  | true => 2
  | signedInteger => 3
  | unsignedInteger => 4
  | float32 => 5
  | float64 => 6
  | string => 7
  | array => 8
  | namedObject => 9
  | idObject => 10
  | fixedSigned8 => 11
  | fixedSigned16 => 12
  | fixedSigned32 => 13
  | fixedSigned64 => 14
  | fixedUnsigned8 => 15
  | fixedUnsigned16 => 16
  | fixedUnsigned32 => 17
  | fixedUnsigned64 => 18

/-- All tags, in the order of their bytes. -/
def all : List ValueTag :=
  [null, false, true, signedInteger, unsignedInteger, float32, float64, string, array,
    namedObject, idObject, fixedSigned8, fixedSigned16, fixedSigned32, fixedSigned64,
    fixedUnsigned8, fixedUnsigned16, fixedUnsigned32, fixedUnsigned64]

/-- The tag of a byte; there is none above `FixedUnsigned64`. -/
def ofByte (byte : UInt8) : Option ValueTag := all[byte.toNat]?

theorem ofByte_toByte (tag : ValueTag) : ofByte tag.toByte = some tag := by
  cases tag <;> rfl

theorem ofByte_eq_some {byte : UInt8} {tag : ValueTag} (h : ofByte byte = some tag) :
    byte = tag.toByte := by
  obtain ⟨hlt, -⟩ := List.getElem?_eq_some_iff.mp h
  have hbyte : byte = UInt8.ofNat byte.toNat := UInt8.ofNat_toNat.symm
  generalize byte.toNat = n at h hlt hbyte
  subst hbyte
  have : n < 19 := hlt
  interval_cases n <;> cases h <;> rfl

end ValueTag

/-- `BinaryMagic`. -/
def binaryMagic : Bytes := [0x4E, 0x50, 0x02]

/-! ## Field keys -/

/-- `fieldId`: 32-bit FNV-1a. -/
def fieldId (name : Bytes) : UInt32 :=
  name.foldl (fun hash ch => (hash ^^^ ch.toUInt32) * 16777619) 2166136261

/-- The loop of `ulebSize`, with a fuel of the bits of a value. -/
def ulebSizeLoop : ℕ → UInt64 → ℕ → ℕ
  | 0, _, size => size
  | fuel + 1, value, size =>
    if 0x80 ≤ value then ulebSizeLoop fuel (value >>> 7) (size + 1) else size

/-- `ulebSize`. -/
def ulebSize (value : UInt64) : ℕ := ulebSizeLoop 64 value 1

/-- `useHashedFieldId`. -/
def useHashedFieldId (name : Bytes) : Bool :=
  let namedKey := UInt64.ofNat name.length <<< 1
  let hashedKey := ((fieldId name).toUInt64 <<< 1) ||| 1
  ulebSize hashedKey < ulebSize namedKey + name.length

/-! ## Limits -/

/-- `ParseLimits`, with its defaults. -/
structure ParseLimits where
  maxInputBytes : ℕ := 16 * 1024 * 1024
  maxStringBytes : ℕ := 4 * 1024 * 1024
  maxContainerElements : ℕ := 1 * 1024 * 1024
  maxObjectFields : ℕ := 64 * 1024
  maxDepth : ℕ := 64
  maxTotalAllocatedBytes : ℕ := 32 * 1024 * 1024
  deriving DecidableEq, Repr

/-- The limits are of type `size_t`. -/
structure ParseLimits.Sized (limits : ParseLimits) : Prop where
  input : limits.maxInputBytes < 2 ^ 64
  string : limits.maxStringBytes < 2 ^ 64
  elements : limits.maxContainerElements < 2 ^ 64
  fields : limits.maxObjectFields < 2 ^ 64
  depth : limits.maxDepth < 2 ^ 64
  budget : limits.maxTotalAllocatedBytes < 2 ^ 64

theorem ParseLimits.sized_default : ParseLimits.Sized {} := by
  constructor <;> decide

/-- The sizes the Reader charges for, which depend on the platform: `sizeof(Node)`,
`sizeof(std::shared_ptr<Node>)` and `sizeof(Member) + sizeof(std::size_t)`. -/
structure Abi where
  nodeSize : ℕ := 264
  pointerSize : ℕ := 16
  memberSize : ℕ := 48
  deriving DecidableEq, Repr

end NekoProto.Binary
