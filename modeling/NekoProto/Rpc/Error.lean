import Mathlib.Data.Nat.Notation

/-!
# RPC error codes

`rpc/error.hpp`: the enumeration `RpcError`, and `std::error_code` as the pair of a category and a
value. A category is the RPC layer's own or any other. The numbers of `ilias::IoError` live
outside the repository, so its members are kept by name.
-/

namespace NekoProto.Rpc

/-- A byte string (`std::vector<std::byte>`, `std::span<const std::byte>`). -/
abbrev MessageType := List UInt8

/-- `RpcError`. -/
inductive RpcError
  | ok | methodNotBind | clientNotInit | responseIdNotMatch | invalidRequest | methodNotFound
  | invalidParams | internalError | methodIdNotNegotiated | methodTableOutdated
  | methodIdNotFound | methodIdRemoved | methodSignatureMismatch
  | methodIdRequiredButUnsupported | compressionRequiredButUnsupported | overloaded
  | deadlineExceeded
  deriving DecidableEq, Repr

/-- The enumerator values of `RpcError`. -/
def RpcError.value : RpcError → Int32
  | .ok => 0
  | .methodNotBind => 1
  | .clientNotInit => 2
  | .responseIdNotMatch => 3
  | .invalidRequest => 4
  | .methodNotFound => 5
  | .invalidParams => 6
  | .internalError => 7
  | .methodIdNotNegotiated => 8
  | .methodTableOutdated => 9
  | .methodIdNotFound => 10
  | .methodIdRemoved => 11
  | .methodSignatureMismatch => 12
  | .methodIdRequiredButUnsupported => 13
  | .compressionRequiredButUnsupported => 14
  | .overloaded => 15
  | .deadlineExceeded => 16

/-- The categories of a `std::error_code`: the RPC layer's own, and any other. -/
inductive ErrorCategory
  | rpc
  | other (name : String)
  deriving DecidableEq, Repr

/-- `std::error_code`. -/
structure ErrorCode where
  category : ErrorCategory
  value : Int32
  deriving DecidableEq, Repr

/-- `make_error_code`. -/
def RpcError.toErrorCode (error : RpcError) : ErrorCode := ⟨.rpc, error.value⟩

/-- The values of the errors a method id may be refused with. -/
def MethodIdErrorValue (value : Int32) : Prop :=
  value = RpcError.methodIdNotNegotiated.value ∨ value = RpcError.methodTableOutdated.value ∨
    value = RpcError.methodIdNotFound.value ∨ value = RpcError.methodIdRemoved.value ∨
    value = RpcError.methodSignatureMismatch.value

instance (value : Int32) : Decidable (MethodIdErrorValue value) :=
  inferInstanceAs (Decidable (_ ∨ _ ∨ _ ∨ _ ∨ _))

/-- `_isMethodIdError`. -/
def isMethodIdError (error : ErrorCode) : Bool :=
  if error.category ≠ .rpc then false else MethodIdErrorValue error.value

/-- The members of `ilias::IoError` the codecs return. -/
inductive IoError
  | messageTooLarge
  deriving DecidableEq, Repr

/-- The error of a codec's `ilias::Result`. -/
inductive CodecError
  | rpc (error : RpcError)
  | io (error : IoError)
  deriving DecidableEq, Repr

end NekoProto.Rpc
