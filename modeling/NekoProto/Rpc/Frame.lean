import NekoProto.Rpc.Error
import NekoProto.Lib.BigEndian

/-!
# Frames and their extensions

The contents of a frame (`NekoRpcFrameCodec::FrameParts`) as the backend builds and reads them:
the header, the method bytes, the TLV extensions and the payload. An enumeration with a fixed
underlying type keeps that type, since a peer may send any value of it.
-/

namespace NekoProto.Rpc

/-! ## Enumerations -/

/-- `NekoRpcKind`. -/
structure Kind where
  wire : UInt8
  deriving DecidableEq, Repr

namespace Kind

def request : Kind := ⟨1⟩
def response : Kind := ⟨2⟩
def notify : Kind := ⟨3⟩
def cancel : Kind := ⟨4⟩
def hello : Kind := ⟨5⟩

end Kind

/-- `NekoRpcFlag`: the bits of a header's flags. -/
structure Flag where
  bit : UInt8
  deriving DecidableEq, Repr

namespace Flag

def error : Flag := ⟨1⟩
def methodId : Flag := ⟨2⟩
def hasExtensions : Flag := ⟨4⟩
def compressed : Flag := ⟨8⟩

end Flag

/-- `NekoRpcExtensionType`. -/
structure ExtensionType where
  wire : UInt16
  deriving DecidableEq, Repr

namespace ExtensionType

def methodId : ExtensionType := ⟨1⟩
def methodTableVersion : ExtensionType := ⟨2⟩
def methodTable : ExtensionType := ⟨3⟩
def methodTableDelta : ExtensionType := ⟨4⟩
def methodSignatureHash : ExtensionType := ⟨5⟩
def methodMinimumCompatibleVersion : ExtensionType := ⟨6⟩
def compression : ExtensionType := ⟨16⟩
def compressionAlgorithm : ExtensionType := ⟨17⟩
def compressionMinPayloadSize : ExtensionType := ⟨18⟩

end ExtensionType

/-- `NekoRpcFeatureMode`. -/
inductive FeatureMode
  | disable | auto | require
  deriving DecidableEq, Repr

/-- `feature_enabled`. -/
def FeatureMode.enabled (mode : FeatureMode) : Bool := mode ≠ .disable

/-! ## Frames -/

/-- The header fields the backend sets and reads. The sizes, the magic and the version are the
frame codec's. -/
structure Header where
  kind : Kind
  flags : UInt8
  codec : UInt8
  id : UInt64
  deriving DecidableEq, Repr

/-- Whether a flag is set. -/
def Header.has (h : Header) (f : Flag) : Bool := h.flags &&& f.bit ≠ 0

/-- `ExtensionMapType` and `ExtensionStore`: the entries of a `std::map`, in the order of their
wire types. -/
abbrev ExtensionMap := List (ExtensionType × MessageType)

/-- `FrameParts`. -/
structure FrameParts where
  header : Header
  method : MessageType
  extensions : ExtensionMap
  payload : MessageType
  deriving DecidableEq, Repr

namespace ExtensionMap

/-- `find`. -/
def find (type : ExtensionType) : ExtensionMap → Option MessageType
  | [] => none
  | (t, value) :: m => if t = type then some value else find type m

/-- `contains`. -/
def contains (m : ExtensionMap) (type : ExtensionType) : Bool := (find type m).isSome

/-- `m[type] = value`. -/
def set (type : ExtensionType) (value : MessageType) : ExtensionMap → ExtensionMap
  | [] => [(type, value)]
  | (t, v) :: m =>
    if t = type then (type, value) :: m
    else if type.wire < t.wire then (type, value) :: (t, v) :: m
    else (t, v) :: set type value m

@[simp] theorem find_set_self (type : ExtensionType) (value : MessageType) (m : ExtensionMap) :
    find type (set type value m) = some value := by
  induction m with
  | nil => simp [set, find]
  | cons entry m ih =>
    unfold set
    split_ifs with heq hlt
    · simp [find]
    · simp [find]
    · simp [find, heq, ih]

theorem find_set_ne {type type' : ExtensionType} (h : type ≠ type') (value : MessageType)
    (m : ExtensionMap) : find type' (set type value m) = find type' m := by
  induction m with
  | nil => simp [set, find, h]
  | cons entry m ih =>
    unfold set
    split_ifs with heq hlt
    · simp [find, h, heq]
    · simp [find, h]
    · simp [find, ih]

end ExtensionMap

/-! ## Integers on the wire -/

/-- `integerValue` and `appendInteger`: an integer of `size` bytes. -/
def integerValue (size value : ℕ) : MessageType := BigEndian.toBytes size value

/-- `readInteger`: the integer of `size` bytes at `offset`. -/
def readInteger (size : ℕ) (data : MessageType) (offset : ℕ) : ℕ :=
  BigEndian.ofBytes ((data.drop offset).take size)

/-- `readIntegerValue`. -/
def readIntegerValue (size : ℕ) (data : MessageType) : Option ℕ :=
  if data.length ≠ size then none else some (readInteger size data 0)

/-- `readIntegerTlv`. -/
def readIntegerTlv (size : ℕ) (extensions : ExtensionMap) (type : ExtensionType) : Option ℕ :=
  (extensions.find type).bind (readIntegerValue size)

@[simp] theorem length_integerValue (size value : ℕ) :
    (integerValue size value).length = size := BigEndian.length_toBytes size value

/-- An integer that fits its width is read back. -/
theorem readInteger_append {size value offset : ℕ} (h : value < 256 ^ size)
    {pre : MessageType} (hpre : pre.length = offset) (post : MessageType) :
    readInteger size (pre ++ (integerValue size value ++ post)) offset = value := by
  unfold readInteger
  rw [List.drop_left' hpre, List.take_left' (length_integerValue size value)]
  exact BigEndian.ofBytes_toBytes_of_lt h

theorem readIntegerValue_integerValue {size value : ℕ} (h : value < 256 ^ size) :
    readIntegerValue size (integerValue size value) = some value := by
  unfold readIntegerValue
  rw [if_neg (by simp)]
  have hread := readInteger_append h List.length_nil []
  rw [List.nil_append, List.append_nil] at hread
  exact congrArg some hread

theorem toNat_lt_bytes (v : UInt64) : v.toNat < 256 ^ 8 := v.toNat_lt

end NekoProto.Rpc
