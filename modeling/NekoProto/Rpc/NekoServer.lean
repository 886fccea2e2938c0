import NekoProto.Rpc.CallOnce
import NekoProto.Rpc.CompressedTransport
import NekoProto.Rpc.Dispatcher

/-!
# The backend of a server

`NekoRpcBackend` as the dispatcher uses it: whole messages, with the size checks, the compression
and the fallbacks around the functions on frames.
-/

namespace NekoProto.Rpc

/-- What a server has for a peer: the table of its context, and the session. -/
structure NekoServerSession extends BackendSession where
  methodTable : MethodIdTable

section

variable {α : Type} (codec : CompressionCodec) (codecId : UInt8) (options : BackendOptions)
  (serializer : Serializer α) (message : ErrorCode → MessageType)
  (errorCode : DecompressStop → ErrorCode)

/-- What the method id functions see of the context. -/
def NekoServerSession.context (session : NekoServerSession) : ServerContext where
  options := options.toOptions
  methodTable := session.methodTable

/-- `_appendFrameError`. -/
def appendFrameError (parts : FrameParts) (error : ErrorCode) (extensions : ExtensionMap) :
    List FrameParts :=
  if parts.header.kind = .request then
    [makeErrorResponse serializer message codecId parts.header.id error extensions]
  else []

/-- `decodeIncoming`, on a parsed frame. -/
def decodeIncomingFrame (session : NekoServerSession) (parts : FrameParts) :
    Option (Decoded DecodedRequest FrameParts) :=
  match decompressIncomingPayload codec options session.toBackendSession parts with
  | .error stop =>
    some { responses := appendFrameError codecId serializer message parts (errorCode stop) [] }
  | .ok decompressed =>
    let payload := decompressed.getD parts.payload
    match decodeIncoming (session.context options) session.toPeerSession
        { parts with payload := payload } with
    | .dropped => none
    | .control => some {}
    | .refused error extensions =>
      some { responses :=
        appendFrameError codecId serializer message parts error.toErrorCode extensions }
    | .request request => some { requests := [request] }

/-- `decodeIncoming`. -/
def decodeIncomingMessage (session : NekoServerSession) (data : MessageType) :
    Option (Decoded DecodedRequest FrameParts) :=
  match validateFrameSize data codecId options.frameLimits with
  | .error _ => none
  | .ok () =>
    match parseFrame data codecId with
    | none => none
    | some parts =>
      decodeIncomingFrame codec codecId options serializer message errorCode session parts

/-- A response on the wire: with what the session transforms, or as it is, if either fits. -/
def encodeResponseFrame (session : NekoServerSession) (response : FrameParts) : List MessageType :=
  match encodeOutgoingFrame codec options session.toBackendSession response with
  | .ok frame => [frame]
  | .error _ =>
    let fallback := encodeFrame response
    match validateFrameSize fallback codecId options.frameLimits with
    | .ok () => [fallback]
    | .error _ => []

/-- `encodeResponses`. -/
def encodeResponses (session : NekoServerSession) (responses : List FrameParts) : MessageType :=
  (responses.flatMap (encodeResponseFrame codec codecId options session)).headD []

/-- `appendError`. -/
def appendError (request : DecodedRequest) (error : ErrorCode) : List FrameParts :=
  if expectsResponse request.header then
    [makeErrorResponse serializer message codecId request.header.id error []]
  else []

/-- `appendMethodReturn`, for a value that comes with its payload, if it has one. -/
def appendMethodReturn (request : DecodedRequest) (result : HandlerResult) : List FrameParts :=
  if expectsResponse request.header then
    [methodReturn serializer message codecId request.header.id result]
  else []

/-- The result of a method. -/
def HandlerResult.ofResult : Except ErrorCode (Option MessageType) → HandlerResult
  | .error code => .error code
  | .ok payload => .value payload

/-- The header of the response to a request, whatever the method returned. -/
theorem methodReturn_header (id : UInt64) (result : HandlerResult) :
    ∃ flags, (methodReturn serializer message codecId id result).header =
      { kind := .response, flags := flags, codec := codecId, id := id } := by
  cases result with
  | error error => exact ⟨_, (makeErrorResponse_header ..).1⟩
  | value payload =>
    cases payload with
    | none => exact ⟨_, (makeErrorResponse_header ..).1⟩
    | some payload => exact ⟨0, rfl⟩

/-- `NekoRpcBackend`, with the error codes that its checks and its codec stop with. -/
def nekoServerBackend : ServerBackend UInt64 NekoServerSession DecodedRequest FrameParts
    (Option MessageType) where
  decodeIncoming := decodeIncomingMessage codec codecId options serializer message errorCode
  methodName request := request.method
  id request := request.header.id
  expectsResponse request := expectsResponse request.header
  appendError := appendError codecId serializer message
  appendMethodReturn request result :=
    appendMethodReturn codecId serializer message request (.ofResult result)
  encodeResponses session responses _ := encodeResponses codec codecId options session responses
  validateMessage data := (validateFrameSize data codecId options.frameLimits).toBool
  responseId response := response.header.id
  appendError_ids request error := by
    unfold appendError
    split_ifs
    · rw [List.map_singleton, (makeErrorResponse_header ..).1]
    · rfl
  appendMethodReturn_ids request result := by
    unfold appendMethodReturn
    split_ifs
    · obtain ⟨flags, hheader⟩ := methodReturn_header codecId serializer message request.header.id
        (.ofResult result)
      rw [List.map_singleton, hheader]
    · rfl

end

/-! ## A server -/

/-- A server with the default options. -/
def plainServer : ServerBackend UInt64 NekoServerSession DecodedRequest FrameParts
    (Option MessageType) :=
  nekoServerBackend runLengthCodec 1 {} plainSerializer (fun _ => [])
    (fun _ => RpcError.internalError.toErrorCode)

/-- Its method `p`, without parameters. -/
def plainConfig : DispatcherConfig DecodedRequest where
  handlers name := if name = [112] then some ⟨fun _ => .ok ()⟩ else none
  maxActive := 4096
  maxQueued := 4096
  canceled := ⟨.other "io", 1⟩

/-- A peer that has sent no hello. -/
def plainPeer : NekoServerSession where
  remoteMethodTable := { maxEntries := 64 }
  methodTable := { maxEntries := 64 }

/-- A request for `p`. -/
def plainRequest (flags : UInt8) : FrameParts where
  header := { kind := .request, flags := flags, codec := 1, id := 7 }
  method := [112]
  extensions := []
  payload := []

end NekoProto.Rpc
