import NekoProto.JsonRpc.Params

/-!
# The requests of a JSON-RPC client

The write half of `JsonRpcRequestParser` of `jsonrpc/protocol.hpp`, and what `JsonRpcBackend` of
`jsonrpc/backend.hpp` does for a client: the ids it allocates and the messages it encodes.
-/

namespace NekoProto.JsonRpc

open Binary Parsing Json
open Rpc (MessageType)

/-- A method at a client, with the parameters of a call. -/
structure RemoteMethod where
  name : Bytes
  signature : MethodSignature
  returns : RawReturnType
  params : (paramsTupleType signature.args).Value

/-- `ClientContext`. -/
structure ClientContext where
  options : Options := {}
  nextId : BitVec 64 := 0

/-! ## Writing the parameters -/

section

variable (nullForEmpty : Bool) (conv : Conversions)

/-- `writeObject` of the `WriteParser` of a `JsonRpcSerializerHelperObject`. -/
def writeNamed : (Ts : Tys) → List Bytes → Ts.Values → List (Bytes × JsonValue)
  | .nil, _, _ => []
  | .cons T Ts, argNames, (value, values) =>
    writeField nullForEmpty conv T (argNames.headD []) value ++
      writeNamed Ts argNames.tail values

/-- `write` of the `WriteParser` of a `JsonRpcSerializerHelperObject`, for a tuple with names. -/
def writeHelper (Ts : Tys) (argNames : List Bytes) (values : Ts.Values) :
    Except Error JsonValue :=
  if argNames.length ≠ Ts.length then
    fail .invalidLength "Named JSON-RPC params count does not match tuple size"
  else .ok (.object (writeNamed nullForEmpty conv Ts argNames values))

/-- The write of named parameters, for a tuple. -/
def writeTupleParams (argNames : List Bytes) (size : ℕ) (Ts : Tys) (values : Ts.Values) :
    Except Error (List (Bytes × JsonValue)) :=
  if argNames.length ≠ size then
    fail .invalidLength "Named JSON-RPC params count does not match params size"
  else if size = 0 then fail .invalidType "Named JSON-RPC params require tuple parameters"
  else
    context "Failed to write field 'params': " (writeHelper nullForEmpty conv Ts argNames values)
      |>.map (writeReflectField nullForEmpty false paramsName {})

/-- The write of named parameters. -/
def writeNamedParams (argNames : List Bytes) (size : ℕ) :
    (T : Ty) → T.Value → Except Error (List (Bytes × JsonValue))
  | .tuple Ts, values => writeTupleParams nullForEmpty conv argNames size Ts values
  | _, _ =>
    if argNames.length ≠ size then
      fail .invalidLength "Named JSON-RPC params count does not match params size"
    else fail .invalidType "Named JSON-RPC params require tuple parameters"

/-- The write of the parameters by `JsonRpcRequestParser::write`. -/
def writeParams (signature : MethodSignature) (params : (paramsTupleType signature.args).Value) :
    Except Error (List (Bytes × JsonValue)) :=
  let T := paramsTupleType signature.args
  if signature.argNames ≠ [] then
    writeNamedParams nullForEmpty conv signature.argNames (paramsSize signature.args) T params
  else .ok (writeField nullForEmpty conv T paramsName params)

/-- `JsonRpcRequestParser::write`. -/
def writeRequest (method : RemoteMethod) (id : JsonRpcId) : Except Error JsonValue :=
  (writeParams nullForEmpty conv method.signature method.params).map fun params =>
    .object (writeField nullForEmpty conv (.optional .string) jsonrpcName (some version) ++
      writeField nullForEmpty conv .string methodName method.name ++ writeId nullForEmpty id ++
      params)

/-! ## The client -/

/-- The id of a request, and the context behind it. -/
def ClientContext.allocateId (context : ClientContext) (notification : Bool) :
    ClientContext × JsonRpcId :=
  if notification then (context, .monostate)
  else ({ context with nextId := context.nextId + 1 }, .integer context.nextId)

/-- `encodeRequest`. -/
def encodeRequest (text : JsonText) (context : ClientContext) (method : RemoteMethod)
    (notification : Bool) : ClientContext × Except Rpc.ErrorCode (MessageType × JsonRpcId) :=
  let (context, id) := context.allocateId notification
  match (writeRequest nullForEmpty conv method id).toOption.bind text.print with
  | none => (context, .error JsonRpcError.invalidRequest.toErrorCode)
  | some buffer =>
    if context.options.maxMessageBytes < buffer.length then
      (context, .error JsonRpcError.messageToolLarge.toErrorCode)
    else (context, .ok (buffer, id))

end

end NekoProto.JsonRpc
