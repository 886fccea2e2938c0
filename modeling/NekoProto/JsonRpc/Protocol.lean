import NekoProto.Json.Write

/-!
# JSON-RPC envelopes

`jsonrpc/protocol.hpp`: the ids, what a server reads of a request before it knows the method, and
the responses. They are reflected classes; only the ids have a parser of their own.
-/

namespace NekoProto.JsonRpc

open Binary Parsing Json

/-! ## Names -/

/-- `"2.0"`. -/
def version : Bytes := [0x32, 0x2E, 0x30]

/-- `"jsonrpc"`. -/
def jsonrpcName : Bytes := [0x6A, 0x73, 0x6F, 0x6E, 0x72, 0x70, 0x63]

/-- `"method"`. -/
def methodName : Bytes := [0x6D, 0x65, 0x74, 0x68, 0x6F, 0x64]

/-- `"params"`. -/
def paramsName : Bytes := [0x70, 0x61, 0x72, 0x61, 0x6D, 0x73]

/-- `"id"`. -/
def idName : Bytes := [0x69, 0x64]

/-- `"result"`. -/
def resultName : Bytes := [0x72, 0x65, 0x73, 0x75, 0x6C, 0x74]

/-- `"error"`. -/
def errorName : Bytes := [0x65, 0x72, 0x72, 0x6F, 0x72]

/-- `"code"`. -/
def codeName : Bytes := [0x63, 0x6F, 0x64, 0x65]

/-- `"message"`. -/
def messageName : Bytes := [0x6D, 0x65, 0x73, 0x73, 0x61, 0x67, 0x65]

/-! ## Ids -/

/-- `JsonRpcIdType`. -/
inductive JsonRpcId
  | monostate
  | integer (value : BitVec 64)
  | string (value : Bytes)
  deriving DecidableEq, Repr

namespace JsonRpcId

/-- `std::holds_alternative<std::monostate>`. -/
def isMonostate : JsonRpcId → Bool
  | monostate => true
  | _ => false

/-- `WriteParser<W, JsonRpcIdType>`. -/
def write : JsonRpcId → JsonValue
  | monostate => .null
  | integer value => .integer (integerOf false .w64 value)
  | string value => .string value

/-- `ReadParser<R, JsonRpcIdType>`. -/
def read (v : JsonValue) (old : JsonRpcId) : ParseM JsonRpcId JsonRpcId :=
  keeping old <|
    if v.isNull then .ok monostate
    else
      match toBasicUnsigned .w64 v with
      | .ok value => .ok (integer value)
      | .error _ =>
        match toBasicString v with
        | .ok value => .ok (string value)
        | .error _ =>
          fail .invalidType "JSON-RPC id must be null, an unsigned integer, or a string"

end JsonRpcId

/-! ## Fields -/

section

variable (nullForEmpty : Bool) (conv : Conversions) (env : Env)

/-- A field without tags. -/
def readField (T : Ty) (name : Bytes) (v : JsonValue) (old : T.Value) : Except Error T.Value :=
  result (readReflectField T.setNull name {} (parserRead conv env T {}) v old)

/-- The field `id`. -/
def readId (v : JsonValue) : Except Error JsonRpcId :=
  result (readReflectField (some .monostate) idName {} JsonRpcId.read v .monostate)

/-- A field without tags. -/
def writeField (T : Ty) (name : Bytes) (value : T.Value) : List (Bytes × JsonValue) :=
  writeReflectField nullForEmpty (T.optionalLike && !T.hasValue value) name {}
    (parserWrite nullForEmpty conv T {} value)

/-- The field `id`. -/
def writeId (id : JsonRpcId) : List (Bytes × JsonValue) :=
  writeReflectField nullForEmpty id.isMonostate idName {} id.write

/-! ## Requests -/

/-- `JsonRpcRequestMethod`. -/
structure RequestMethod where
  jsonrpc : Option Bytes
  method : Bytes
  id : JsonRpcId
  deriving DecidableEq, Repr

/-- The reads of its fields. -/
def readRequestMethod (v : JsonValue) : Except Error RequestMethod := do
  let _ ← toObject v
  let jsonrpc ← readField conv env (.optional .string) jsonrpcName v none
  let method ← readField conv env .string methodName v []
  let id ← readId v
  .ok ⟨jsonrpc, method, id⟩

/-! ## Responses -/

/-- `JsonRpcErrorResponse`. -/
def errorResponse : Ty :=
  .object false (.cons codeName {} (.arithmetic (.integer true .w64))
    (.cons messageName {} .string .nil))

/-- `code` of a `JsonRpcErrorResponse`. -/
def errorResponseCode (error : errorResponse.Value) : BitVec 64 := error.1

/-- The return type of a method, `none` for `void`. -/
abbrev RawReturnType := Option Ty

/-- What a method returns. -/
def RawReturnType.Value : RawReturnType → Type
  | none => Unit
  | some T => T.Value

/-- What `ReturnType` is an optional of: `std::nullptr_t` stands for `void`. -/
def RawReturnType.result : RawReturnType → Ty
  | none => .null false
  | some T => T

/-- `JsonRpcResponse`. -/
structure Response (R : RawReturnType) where
  jsonrpc : Bytes := version
  result : Option R.result.Value := none
  error : Option errorResponse.Value := none
  id : JsonRpcId := .monostate

/-- The reads of its fields. -/
def readResponse (R : RawReturnType) (v : JsonValue) : Except Error (Response R) := do
  let _ ← toObject v
  let jsonrpc ← readField conv env .string jsonrpcName v version
  let result ← readField conv env (.optional R.result) resultName v none
  let error ← readField conv env (.optional errorResponse) errorName v none
  let id ← readId v
  .ok { jsonrpc := jsonrpc, result := result, error := error, id := id }

/-- The writes of its fields. -/
def writeResponse {R : RawReturnType} (response : Response R) : JsonValue :=
  .object (writeField nullForEmpty conv .string jsonrpcName response.jsonrpc ++
    writeField nullForEmpty conv (.optional R.result) resultName response.result ++
    writeField nullForEmpty conv (.optional errorResponse) errorName response.error ++
    writeId nullForEmpty response.id)

end

end NekoProto.JsonRpc
