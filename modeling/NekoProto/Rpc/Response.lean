import NekoProto.Rpc.Backend

/-!
# Requests at the server, responses at the client

The server's way from a request frame to a response frame, and the client's way from there to a
result and to the decision whether to send the request again. An error travels as the payload
`NekoRpcError`, which keeps the value of the `std::error_code` and drops its category.
-/

namespace NekoProto.Rpc

/-- `NekoRpcError`. -/
structure ErrorPayload where
  code : Int32 := RpcError.internalError.value
  message : MessageType := []
  data : MessageType := []
  deriving DecidableEq, Repr

/-- The backend's `Serializer` as far as responses need it, for a method that returns `α`. What it
writes for an error reads back with the same code, and nothing reads from an empty payload. -/
structure Serializer (α : Type) where
  encodeError : ErrorPayload → Option MessageType
  decodeError : MessageType → Option ErrorPayload
  decodeValue : MessageType → Option α
  decodeError_encodeError : ∀ error payload, encodeError error = some payload →
    ∃ error', decodeError payload = some error' ∧ error'.code = error.code
  decodeError_nil : decodeError [] = none

/-! ## The server -/

/-- `_makeResponse`. -/
def makeResponse (codecId : UInt8) (id : UInt64) (payload : MessageType) (flags : UInt8)
    (extensions : ExtensionMap) : FrameParts where
  header := { kind := .response, flags := flags, codec := codecId, id := id }
  method := []
  extensions := extensions
  payload := payload

/-- `_makeErrorResponse`, with the category's `message()`. -/
def makeErrorResponse {α : Type} (serializer : Serializer α) (message : ErrorCode → MessageType)
    (codecId : UInt8) (id : UInt64) (error : ErrorCode) (extensions : ExtensionMap) : FrameParts :=
  let rpcError : ErrorPayload := { code := error.value, message := message error }
  match serializer.encodeError rpcError with
  | none => makeResponse codecId id [] Flag.error.bit extensions
  | some payload => makeResponse codecId id payload Flag.error.bit extensions

theorem makeErrorResponse_header {α : Type} (serializer : Serializer α)
    (message : ErrorCode → MessageType) (codecId : UInt8) (id : UInt64) (error : ErrorCode)
    (extensions : ExtensionMap) :
    (makeErrorResponse serializer message codecId id error extensions).header =
        { kind := .response, flags := Flag.error.bit, codec := codecId, id := id } ∧
      (makeErrorResponse serializer message codecId id error extensions).extensions =
        extensions := by
  unfold makeErrorResponse
  simp only
  split <;> exact ⟨rfl, rfl⟩

/-- `DecodedRequest`. -/
structure DecodedRequest where
  header : Header
  method : Name
  payload : MessageType
  deriving DecidableEq, Repr

/-- `expectsResponse`. -/
def expectsResponse (header : Header) : Bool := header.kind = .request

/-- What `decodeIncoming` makes of a parsed frame: the cases of its `DecodeResult`. -/
inductive Incoming
  | dropped
  | control
  | refused (error : RpcError) (extensions : ExtensionMap)
  | request (request : DecodedRequest)

/-- `decodeIncoming`, on a parsed frame with its payload decompressed. -/
def decodeIncoming (context : ServerContext) (session : PeerSession) (parts : FrameParts) :
    Incoming :=
  if parts.header.kind = .cancel ∨ parts.header.kind = .hello then .control
  else if parts.header.kind ≠ .request ∧ parts.header.kind ≠ .notify then .dropped
  else if parts.header.has .error then .dropped
  else
    match incomingMethodName context session parts with
    | .error error =>
      .refused error (methodIdErrorResponseExtensions context session error.toErrorCode)
    | .ok [] => .dropped
    | .ok name =>
      let flags := parts.header.flags &&& ~~~Flag.compressed.bit
      let flags := flags &&& ~~~Flag.methodId.bit
      .request { header := { parts.header with flags := flags }, method := name
                 payload := parts.payload }

/-- What a method handler returns: the payload of its value, where that encodes, or an error. -/
inductive HandlerResult
  | value (payload : Option MessageType)
  | error (error : ErrorCode)
  deriving DecidableEq, Repr

/-- The result that a handler has for `appendMethodReturn`. Nobody looks at what `invoke` awaits of
a method of `void`, so that its error is dropped; a function with a context is called without it. -/
def callHandler (isVoid withContext : Bool) : HandlerResult → HandlerResult
  | .error error => if isVoid ∧ !withContext then .value (some []) else .error error
  | .value payload => .value payload

/-- What the dispatcher does with a decoded request: answer it with an error of its own (unknown
method, bad parameters, overload, deadline), or invoke the handler, with what `callHandler` makes of
its result. -/
inductive Dispatch
  | rejected (error : ErrorCode)
  | invoked (result : HandlerResult)
  deriving DecidableEq, Repr

/-- What becomes of a request frame. -/
inductive Outcome
  | ignored
  | refused (error : RpcError)
  | rejected (error : ErrorCode)
  | invoked (result : HandlerResult)
  deriving DecidableEq, Repr

/-- `appendMethodReturn`, for a request that expects a response. -/
def methodReturn {α : Type} (serializer : Serializer α) (message : ErrorCode → MessageType)
    (codecId : UInt8) (id : UInt64) : HandlerResult → FrameParts
  | .error error => makeErrorResponse serializer message codecId id error []
  | .value (some payload) => makeResponse codecId id payload 0 []
  | .value none =>
    makeErrorResponse serializer message codecId id RpcError.internalError.toErrorCode []

/-- The server's processing of a request frame: what became of it, and the response. -/
def processRequest {α : Type} (serializer : Serializer α) (message : ErrorCode → MessageType)
    (codecId : UInt8) (context : ServerContext) (session : PeerSession)
    (dispatch : DecodedRequest → Dispatch) (parts : FrameParts) : Outcome × Option FrameParts :=
  let respond (response : FrameParts) : Option FrameParts :=
    if expectsResponse parts.header then some response else none
  match decodeIncoming context session parts with
  | .dropped => (.ignored, none)
  | .control => (.ignored, none)
  | .refused error extensions =>
    (.refused error, respond (makeErrorResponse serializer message codecId parts.header.id
      error.toErrorCode extensions))
  | .request request =>
    match dispatch request with
    | .rejected error =>
      (.rejected error,
        respond (makeErrorResponse serializer message codecId parts.header.id error []))
    | .invoked result =>
      (.invoked result, respond (methodReturn serializer message codecId parts.header.id result))

/-! ## The client -/

/-- `decodeResponse`, on a parsed frame with its payload decompressed: the session after it, and
the result. -/
def decodeResponse {α : Type} (serializer : Serializer α) (codecId : UInt8) (session : PeerSession)
    (parts : FrameParts) (expectedId : UInt64) : PeerSession × Except ErrorCode α :=
  if parts.header.kind ≠ .response ∨ parts.header.codec ≠ codecId then
    (session, .error RpcError.invalidRequest.toErrorCode)
  else if parts.header.id ≠ expectedId then
    (session, .error RpcError.responseIdNotMatch.toErrorCode)
  else if parts.header.has .error then
    match serializer.decodeError parts.payload with
    | none => (session, .error RpcError.internalError.toErrorCode)
    | some error =>
      -- the category on the wire is lost: every code is taken for one of the RPC layer
      let ec : ErrorCode := ⟨.rpc, error.code⟩
      if isMethodIdError ec then
        let (session, updated) := applyMethodIdTableExtensions session parts.extensions
        if updated then (session, .error ec)
        else
          ({ session with
              methodIdEnabled := false
              remoteMethodTable := session.remoteMethodTable.clear }, .error ec)
      else (session, .error ec)
  else
    match serializer.decodeValue parts.payload with
    | none => (session, .error RpcError.invalidParams.toErrorCode)
    | some value => (session, .ok value)

/-- `recoverClientCall`: the session after it, and whether to send the request again. -/
def recoverClientCall (context : ClientContext) (session : PeerSession) (error : ErrorCode)
    (retryCount : ℕ) : PeerSession × Bool :=
  if !context.options.retryMethodIdErrorOnce ∨ retryCount ≠ 0 ∨
      !context.options.methodId.enabled ∨ !isMethodIdError error then (session, false)
  else if !session.methodIdEnabled ∨ session.remoteMethodTable.entries = [] then
    if context.options.methodId = .require then (session, false)
    else ({ session with methodIdEnabled := false, handshakeDone := true }, true)
  else (session, true)

end NekoProto.Rpc
