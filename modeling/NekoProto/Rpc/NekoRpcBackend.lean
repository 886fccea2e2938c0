import NekoProto.Rpc.Client
import NekoProto.Rpc.CallOnce
import NekoProto.Rpc.Hello

/-!
# The backend of a client

`NekoRpcBackend` as the client uses it: whole messages instead of parsed frames, with the size
checks and the compression around the functions on frames.
-/

namespace NekoProto.Rpc

/-- `ClientContext`, with the options of the whole backend. -/
structure BackendClientContext where
  options : BackendOptions
  nextId : UInt64 := 0
  deriving DecidableEq, Repr

/-- What the method id functions see of the context. -/
def BackendClientContext.toClientContext (context : BackendClientContext) : ClientContext where
  options := context.options.toOptions
  nextId := context.nextId

/-- A method with its arguments: what `_encodePayload` makes of them. -/
structure RemoteMethod where
  name : Name
  payload : Option MessageType
  deriving DecidableEq, Repr

section

variable {α : Type} (codec : CompressionCodec) (codecId : UInt8) (serializer : Serializer α)
  (errorCode : DecompressStop → ErrorCode)

/-- `encodeRequest`. -/
def encodeRequestMessage (context : BackendClientContext) (session : BackendSession)
    (method : RemoteMethod) (notification : Bool) :
    BackendClientContext × Except ErrorCode (MessageType × UInt64) :=
  match method.payload with
  | none => (context, .error RpcError.invalidParams.toErrorCode)
  | some payload =>
    let (client, frame) := encodeRequest codecId context.toClientContext session.toPeerSession
      method.name notification payload
    let context := { context with nextId := client.nextId }
    match encodeOutgoingFrame codec context.options session frame with
    | .error error => (context, .error (errorCode (.error error)))
    | .ok message => (context, .ok (message, frame.header.id))

/-- `decodeResponse`. -/
def decodeResponseMessage (context : BackendClientContext) (session : BackendSession)
    (message : MessageType) (expectedId : UInt64) : BackendSession × Except ErrorCode α :=
  match validateFrameSize message codecId context.options.frameLimits with
  | .error error => (session, .error (errorCode (.error error)))
  | .ok () =>
    match parseFrame message codecId with
    | none => (session, .error RpcError.invalidRequest.toErrorCode)
    | some parts =>
      match decompressIncomingPayload codec context.options session parts with
      | .error stop => (session, .error (errorCode stop))
      | .ok decompressed =>
        let payload := decompressed.getD parts.payload
        let (peer, result) := decodeResponse serializer codecId session.toPeerSession
          { parts with payload := payload } expectedId
        ({ session with toPeerSession := peer }, result)

/-- `responseId`. -/
def responseId (message : MessageType) : Option UInt64 :=
  match parseFrame message codecId with
  | none => none
  | some parts => if parts.header.kind ≠ .response then none else some parts.header.id

/-- `NekoRpcBackend`, with the error codes that its checks and its codec stop with. -/
def nekoRpcBackend (maxPendingCalls : ℕ) :
    ClientBackend UInt64 BackendClientContext BackendSession RemoteMethod α where
  maxPendingCalls := maxPendingCalls
  makeClientPeerSession context := context.options.makePeerSession
  ensureClientReady context := ensureClientReady codec codecId context.options
  encodeRequest := encodeRequestMessage codec codecId errorCode
  decodeResponse context session _ :=
    decodeResponseMessage codec codecId serializer errorCode context session
  recoverClientCall context session error retryCount :=
    let (peer, recovered) :=
      recoverClientCall context.toClientContext session.toPeerSession error retryCount
    ({ session with toPeerSession := peer }, recovered)
  validateMessage context message :=
    match validateFrameSize message codecId context.options.frameLimits with
    | .error error => .error (errorCode (.error error))
    | .ok () => .ok ()
  handleClientControl _ := handleClientControl codec codecId
  responseId := responseId codecId

end

end NekoProto.Rpc
