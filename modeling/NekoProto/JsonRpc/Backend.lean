import NekoProto.JsonRpc.Protocol
import NekoProto.Rpc.Dispatcher

/-!
# The JSON-RPC backend

`jsonrpc/backend.hpp`: what the server makes of a message, the responses that it appends and
encodes, and what the client makes of them. The text of the messages of the error categories is
a parameter.
-/

namespace NekoProto.JsonRpc

open Binary Parsing Json
open Rpc (RpcError MessageType Decoded)

/-! ## Errors -/

/-- `JsonRpcError`. -/
inductive JsonRpcError
  | ok | methodNotBind | clientNotInit | responseIdNotMatch | messageToolLarge | overloaded
  | deadlineExceeded | parseError | invalidRequest | methodNotFound | invalidParams
  | internalError
  deriving DecidableEq, Repr

namespace JsonRpcError

/-- The enumerator values of `JsonRpcError`. -/
def value : JsonRpcError → Int32
  | ok => 0
  | methodNotBind => -32000
  | clientNotInit => -32001
  | responseIdNotMatch => -32002
  | messageToolLarge => -32003
  | overloaded => -32004
  | deadlineExceeded => -32005
  | parseError => -32700
  | invalidRequest => -32600
  | methodNotFound => -32601
  | invalidParams => -32602
  | internalError => -32603

/-- `make_error_code`. -/
def toErrorCode (error : JsonRpcError) : Rpc.ErrorCode := ⟨.other "jsonrpc", error.value⟩

end JsonRpcError

/-- The cases of the `switch` of `jsonRpcErrorCode`. -/
def rpcErrorCode : RpcError → Int32
  | .ok => JsonRpcError.ok.value
  | .invalidRequest | .methodIdNotNegotiated | .methodTableOutdated | .methodIdNotFound
  | .methodIdRemoved | .methodSignatureMismatch | .methodIdRequiredButUnsupported
  | .compressionRequiredButUnsupported => JsonRpcError.invalidRequest.value
  | .overloaded => JsonRpcError.overloaded.value
  | .deadlineExceeded => JsonRpcError.deadlineExceeded.value
  | .methodNotFound => JsonRpcError.methodNotFound.value
  | .invalidParams => JsonRpcError.invalidParams.value
  | .internalError => JsonRpcError.internalError.value
  | .methodNotBind => JsonRpcError.methodNotBind.value - (RpcError.methodNotBind.value - 1)
  | .clientNotInit => JsonRpcError.methodNotBind.value - (RpcError.clientNotInit.value - 1)
  | .responseIdNotMatch =>
    JsonRpcError.methodNotBind.value - (RpcError.responseIdNotMatch.value - 1)

/-- The enumerators of `RpcError`. -/
def rpcErrors : List RpcError :=
  [.ok, .methodNotBind, .clientNotInit, .responseIdNotMatch, .invalidRequest, .methodNotFound,
    .invalidParams, .internalError, .methodIdNotNegotiated, .methodTableOutdated,
    .methodIdNotFound, .methodIdRemoved, .methodSignatureMismatch,
    .methodIdRequiredButUnsupported, .compressionRequiredButUnsupported, .overloaded,
    .deadlineExceeded]

/-- `jsonRpcErrorCode`. -/
def jsonRpcErrorCode (error : Rpc.ErrorCode) : Int32 :=
  if error.category ≠ .rpc then error.value
  else
    match rpcErrors.find? fun known => known.value = error.value with
    | some known => rpcErrorCode known
    | none => JsonRpcError.internalError.value

/-! ## Requests -/

/-- The fields of `Options` that the messages depend on. -/
structure Options where
  maxMessageBytes : ℕ := 16 * 1024 * 1024

section

variable (text : JsonText) (nullForEmpty : Bool) (conv : Conversions) (env : Env)
  (message : Rpc.ErrorCode → Bytes)

/-- `DecodedRequest`, as `decodeIncoming` makes it. -/
structure DecodedRequest where
  value : JsonValue
  method : RequestMethod
  read : readRequestMethod conv env value = .ok method
  isVersion : method.jsonrpc = some version

/-- A request, if it is one of this version of the protocol. -/
def decodeRequest (v : JsonValue) : Option (DecodedRequest conv env) :=
  match h : readRequestMethod conv env v with
  | .error _ => none
  | .ok method =>
    if hversion : v.isObject ∧ method.jsonrpc = some version then
      some ⟨v, method, h, hversion.2⟩
    else none

variable {conv env} in
/-- `expectsResponse`. -/
def expectsResponse (request : DecodedRequest conv env) : Bool :=
  match request.method.id with
  | .monostate => false
  | .integer _ => request.method.jsonrpc.isSome
  | .string _ => true

/-! ## Responses -/

/-- `to_json_value`, of an object that is written so. -/
def toJsonValue (v : JsonValue) : Option JsonValue := (text.print v).bind text.parse

/-- `makeErrorResponse`. -/
def makeErrorResponse (error : Rpc.ErrorCode) : errorResponse.Value :=
  (BitVec.ofInt 64 (jsonRpcErrorCode error).toInt, message error, ())

/-- The response of `_appendProtocolError`. -/
def protocolError (id : JsonRpcId) (error : Rpc.ErrorCode) : JsonValue :=
  writeResponse nullForEmpty conv (R := none)
    { error := some (makeErrorResponse message error), id := id }

/-- `_appendProtocolError`. -/
def appendProtocolError (id : JsonRpcId) (error : Rpc.ErrorCode) : List JsonValue :=
  (toJsonValue text (protocolError nullForEmpty conv message id error)).toList

variable {env} in
/-- `appendError`. -/
def appendError (request : DecodedRequest conv env) (error : Rpc.ErrorCode) : List JsonValue :=
  if expectsResponse request then
    appendProtocolError text nullForEmpty conv message request.method.id error
  else []

/-- The response of `appendSuccess`. -/
def success (R : RawReturnType) (id : JsonRpcId) (value : R.result.Value) : JsonValue :=
  writeResponse nullForEmpty conv (R := R) { result := some value, id := id }

variable {env} in
/-- `appendSuccess`. -/
def appendSuccess (R : RawReturnType) (request : DecodedRequest conv env)
    (value : R.result.Value) : List JsonValue :=
  if expectsResponse request then
    match toJsonValue text (success nullForEmpty conv R request.method.id value) with
    | some response => [response]
    | none =>
      appendProtocolError text nullForEmpty conv message request.method.id
        JsonRpcError.internalError.toErrorCode
  else []

/-- What is put into the response: a `nullptr` for `void`. -/
def RawReturnType.toResult : (R : RawReturnType) → R.Value → R.result.Value
  | none, _ => ()
  | some _, value => value

/-- `invoke`, by what the method returns: nobody looks at what comes of one of `void`. -/
def invoke : (R : RawReturnType) → Except Rpc.ErrorCode R.Value → Except Rpc.ErrorCode R.Value
  | none, _ => .ok ()
  | some _, returned => returned

/-- The result that a handler has for `appendMethodReturn`: `_handle` calls it through `invoke`,
`_handleWithContext` calls the function itself. -/
def callHandler (R : RawReturnType) (withContext : Bool)
    (returned : Except Rpc.ErrorCode R.Value) : Except Rpc.ErrorCode R.Value :=
  if withContext then returned else invoke R returned

variable {env} in
/-- `appendMethodReturn`. -/
def appendMethodReturn (R : RawReturnType) (request : DecodedRequest conv env) :
    Except Rpc.ErrorCode R.Value → List JsonValue
  | .ok value => appendSuccess text nullForEmpty conv message R request (R.toResult value)
  | .error error => appendError text nullForEmpty conv message request error

/-- `encodeResponses`, without a context. -/
def encodeBuffer (responses : List JsonValue) (batch : Bool) : Bytes :=
  match responses with
  | [] => []
  | front :: _ => (text.print (if batch then .array responses else front)).getD []

/-- `encodeResponses`. -/
def encodeResponses (options : Options) (responses : List JsonValue) (batch : Bool) : Bytes :=
  let buffer := encodeBuffer text responses batch
  if options.maxMessageBytes < buffer.length then [] else buffer

/-! ## Messages -/

/-- The loop of `decodeIncoming` over the requests of a message. -/
def decodeRequests (batch : Bool) :
    List JsonValue → Decoded (DecodedRequest conv env) JsonValue
  | [] => { batch := batch }
  | v :: vs =>
    let decoded := decodeRequests batch vs
    match decodeRequest conv env v with
    | some request => { decoded with requests := request :: decoded.requests }
    | none =>
      { decoded with
        responses := appendProtocolError text nullForEmpty conv message .monostate
          JsonRpcError.invalidRequest.toErrorCode ++ decoded.responses }

/-- A message that is answered by an error and has no requests. -/
def refuse (error : JsonRpcError) : Decoded (DecodedRequest conv env) JsonValue :=
  { responses := appendProtocolError text nullForEmpty conv message .monostate error.toErrorCode }

/-- `decodeIncoming`. -/
def decodeIncoming (options : Options) (data : Bytes) :
    Decoded (DecodedRequest conv env) JsonValue :=
  if options.maxMessageBytes < data.length then
    refuse text nullForEmpty conv env message .messageToolLarge
  else
    match text.parse data with
    | none => refuse text nullForEmpty conv env message .parseError
    | some (.array []) => refuse text nullForEmpty conv env message .invalidRequest
    | some (.array (v :: vs)) =>
      decodeRequests text nullForEmpty conv env message true (v :: vs)
    | some root => decodeRequests text nullForEmpty conv env message false [root]

/-- `validateMessage`. -/
def validateMessage (options : Options) (data : Bytes) : Bool :=
  data.length ≤ options.maxMessageBytes

/-! ## The client -/

/-- The error of a response. -/
def remoteError (error : errorResponse.Value) : Rpc.ErrorCode :=
  let code := errorResponseCode error
  if 0 < code.toInt then ⟨.other "io", Int32.ofBitVec (code.setWidth 32)⟩
  else ⟨.other "jsonrpc", Int32.ofBitVec (code.setWidth 32)⟩

/-- What the result of a response is to the caller. -/
def RawReturnType.ofResult : (R : RawReturnType) → Option R.result.Value →
    Except Rpc.ErrorCode R.Value
  | none, _ => .ok ()
  | some _, some value => .ok value
  | some _, none => .error JsonRpcError.invalidRequest.toErrorCode

/-- `decodeResponse`, of a response that was read. -/
def acceptResponse (R : RawReturnType) (response : Response R) (expectedId : JsonRpcId) :
    Except Rpc.ErrorCode R.Value :=
  if response.jsonrpc ≠ version then .error JsonRpcError.invalidRequest.toErrorCode
  else if response.id ≠ expectedId then .error JsonRpcError.responseIdNotMatch.toErrorCode
  else
    match response.error with
    | some error =>
      if response.result.isSome then .error JsonRpcError.invalidRequest.toErrorCode
      else .error (remoteError error)
    | none => R.ofResult response.result

/-- `decodeResponse`. -/
def decodeResponse (R : RawReturnType) (options : Options) (buffer : Bytes)
    (expectedId : JsonRpcId) : Except Rpc.ErrorCode R.Value :=
  if options.maxMessageBytes < buffer.length then
    .error JsonRpcError.messageToolLarge.toErrorCode
  else
    match text.parse buffer with
    | none => .error JsonRpcError.parseError.toErrorCode
    | some v =>
      match readResponse conv env R v with
      | .error _ => .error JsonRpcError.parseError.toErrorCode
      | .ok response => acceptResponse R response expectedId

/-- `responseId`, of a message that was parsed. -/
def responseId : JsonValue → Option JsonRpcId
  | .object members =>
    match JsonValue.findMember idName members with
    | none => none
    | some v => (result (JsonRpcId.read v .monostate)).toOption
  | _ => none

end

end NekoProto.JsonRpc
