import NekoProto.Rpc.Hello
import NekoProto.Rpc.NekoServer
import NekoProto.Rpc.RequestAnswered

/-!
# The server

`RpcServer` of `rpc/server.hpp`: its connections over one dispatcher, and how it closes. The loop
of a connection receives one message after the other and gives each a task of its own in the
connection's scope, up to a limit; a message beyond it is rejected before the next one is received.
When the loop ends, a cleanup takes the connection out of the server, cancels what is left of it
and stops its tasks.

The connections, their tasks, and the tasks of the dispatcher interleave freely. Connections are
numbered. Coroutines are those of `ilias`: what runs between two suspensions is one step, and a
task whose scope was stopped before it began does not begin.
-/

namespace NekoProto.Rpc

/-- What a server needs of its backend besides what its dispatcher needs. -/
structure ConnectionBackend (Id Session Request Response Value : Type) extends
    ServerBackend Id Session Request Response Value where
  makeServerPeerSession : Session
  cancelId : MessageType → Option Id
  /-- `handleServerControl` up to the answer it sends; a message for the dispatcher gets none -/
  handleServerControl : Session → MessageType → Except ErrorCode (Session × Option MessageType)
  maxInflightRequests : ℕ

/-- A task in the scope of a connection: before `processMessage`, and in it. -/
inductive RequestTask
  | waiting (message : MessageType)
  | processing (batch : ℕ)
  deriving DecidableEq

/-- Where the loop of a connection is. -/
inductive LoopPhase
  | receiving
  | rejecting (batch : ℕ)
  | ended
  deriving DecidableEq

/-- `EndpointSlot`, with the loop, whether the cleanup has begun and whether the endpoint was
closed, the number of messages that went to the dispatcher, and the responses that were sent. -/
structure EndpointSlot (Session : Type) where
  session : Session
  phase : LoopPhase := .receiving
  requests : List RequestTask := []
  cleaned : Bool := false
  closed : Bool := false
  accepted : ℕ := 0
  sent : List MessageType := []

/-- `RpcServer`, with all connections it ever had; `mEndpoints` has the numbers of some. -/
structure RpcServer (Id Session Request Response : Type) where
  dispatcher : Dispatcher Id Request Response := {}
  slots : List (EndpointSlot Session) := []
  endpoints : List ℕ := []
  closing : Bool := false

/-- One step of a server, with what it meets. -/
inductive ServerAction (Id Value : Type)
  | addEndpoint
  /-- a turn of the loop: what `recv` returns, and whether the answer to a control message is
  sent -/
  | receive (connection : ℕ) (message : Option MessageType) (sent : Bool)
  /-- a task of the scope begins -/
  | begin (connection : ℕ) (message : MessageType)
  /-- a task of the dispatcher ends -/
  | finish (batch index : ℕ) (taskEnd : TaskEnd Value)
  /-- the end of `processMessage`, with the result of the send -/
  | complete (connection batch : ℕ) (sent : Bool)
  /-- a task of a scope that was stopped is gone -/
  | abandon (connection : ℕ) (task : RequestTask)
  /-- `_beginClose` -/
  | beginClose
  /-- the scope of the loops is stopped -/
  | stop (connection : ℕ)
  /-- the cleanup behind a loop -/
  | cleanup (connection : ℕ)
  | cancel (id : Id)
  | cancelAll

section

variable {Id Session Request Response Value : Type} [DecidableEq Id]

section

variable (backend : ServerBackend Id Session Request Response Value)
  (config : DispatcherConfig Request)

/-- The loop of `processMessage` over the requests, which does not suspend. -/
def Dispatcher.dispatchAll (b : ℕ) :
    ℕ → Dispatcher Id Request Response → Dispatcher Id Request Response
  | 0, s => s
  | n + 1, s =>
    match s.step backend config (.dispatch b) with
    | none => s
    | some s => Dispatcher.dispatchAll b n s

/-- `processMessage` up to where it waits for the tasks. -/
def Dispatcher.begin (s : Dispatcher Id Request Response) (connection : ℕ) (session : Session)
    (message : MessageType) (rejectOnly : Bool) : Dispatcher Id Request Response :=
  let requests := (backend.decodeIncoming session message).elim 0 fun d => d.requests.length
  Dispatcher.dispatchAll backend config s.batches.length requests
    (s.processMessage backend connection session message rejectOnly true)

end

namespace RpcServer

variable (backend : ConnectionBackend Id Session Request Response Value)
  (config : DispatcherConfig Request) (s : RpcServer Id Session Request Response)

/-- The connection continues as `slot`. -/
def setSlot (c : ℕ) (slot : EndpointSlot Session) : RpcServer Id Session Request Response :=
  { s with slots := s.slots.set c slot }

/-- `addEndpoint` and `_handleEndpoint`. -/
def addEndpoint : RpcServer Id Session Request Response :=
  let slot : EndpointSlot Session := { session := backend.makeServerPeerSession }
  if s.closing then
    { s with slots := s.slots ++ [{ slot with phase := .ended, cleaned := true, closed := true }] }
  else { s with slots := s.slots ++ [slot], endpoints := s.endpoints ++ [s.slots.length] }

/-- A message that goes to the dispatcher: with a task of its own, or to be rejected. -/
def accept (c : ℕ) (slot : EndpointSlot Session) (message : MessageType) :
    RpcServer Id Session Request Response :=
  let slot := { slot with accepted := slot.accepted + 1 }
  if backend.maxInflightRequests ≤ slot.requests.length then
    let b := s.dispatcher.batches.length
    -- a message that is dropped is through at once
    let phase := if (backend.decodeIncoming slot.session message).isNone then .receiving
      else LoopPhase.rejecting b
    let s := s.setSlot c { slot with phase := phase }
    { s with
      dispatcher := s.dispatcher.begin backend.toServerBackend config c slot.session message true }
  else s.setSlot c { slot with requests := slot.requests ++ [.waiting message] }

/-- A turn of the loop of `_handleClient`. -/
def receive (c : ℕ) (slot : EndpointSlot Session) (message : Option MessageType) (sent : Bool) :
    RpcServer Id Session Request Response :=
  match message with
  | none => s.setSlot c { slot with phase := .ended }
  | some message =>
    if message = [] then s.setSlot c { slot with phase := .ended }
    else if !backend.validateMessage message then
      s.setSlot c { slot with phase := .ended, closed := true }
    else
      match backend.cancelId message with
      | some id => { s with dispatcher := s.dispatcher.cancel c id }
      | none =>
        match backend.handleServerControl slot.session message with
        | .error _ => s.setSlot c { slot with phase := .ended }
        | .ok (session, some _) =>
          s.setSlot c { slot with
            session := session
            phase := if sent then .receiving else .ended }
        | .ok (_, none) => s.accept backend config c slot message

/-- A task of the scope begins with `processMessage`. A message that is dropped is through. -/
def begin (c : ℕ) (slot : EndpointSlot Session) (message : MessageType) :
    RpcServer Id Session Request Response :=
  let b := s.dispatcher.batches.length
  let requests := slot.requests.erase (.waiting message)
  let requests := if (backend.decodeIncoming slot.session message).isNone then requests
    else requests ++ [.processing b]
  let s := s.setSlot c { slot with requests := requests }
  { s with
    dispatcher := s.dispatcher.begin backend.toServerBackend config c slot.session message false }

/-- The end of `processMessage`: the task is through, or the loop goes on. -/
def complete (c : ℕ) (slot : EndpointSlot Session) (b : ℕ)
    (dispatcher : Dispatcher Id Request Response) : RpcServer Id Session Request Response :=
  let delivery := (dispatcher.batches[b]?.bind Batch.delivery).getD {}
  let s := s.setSlot c { slot with
    phase := if slot.phase = .rejecting b then .receiving else slot.phase
    requests := slot.requests.erase (.processing b)
    closed := slot.closed || delivery.closed
    sent := slot.sent ++ delivery.sent.toList }
  { s with dispatcher := dispatcher }

/-- The cleanup behind a loop. The tasks that it stops are gone when they are abandoned. -/
def cleanup (c : ℕ) (slot : EndpointSlot Session) : RpcServer Id Session Request Response :=
  let s := s.setSlot c { slot with cleaned := true }
  { s with
    endpoints := s.endpoints.filter fun endpoint => endpoint ≠ c
    dispatcher := s.dispatcher.cancelSession c }

end RpcServer

/-- A connection processes a batch, in a task of its scope or in its loop. -/
def EndpointSlot.Processes (slot : EndpointSlot Session) (b : ℕ) : Prop :=
  .processing b ∈ slot.requests ∨ slot.phase = .rejecting b

instance (slot : EndpointSlot Session) (b : ℕ) : Decidable (slot.Processes b) :=
  inferInstanceAs (Decidable (_ ∨ _))

/-- One step of the server. -/
def RpcServer.step (backend : ConnectionBackend Id Session Request Response Value)
    (config : DispatcherConfig Request) (s : RpcServer Id Session Request Response) :
    ServerAction Id Value → Option (RpcServer Id Session Request Response)
  | .addEndpoint => some (s.addEndpoint backend)
  | .receive c message sent =>
    match s.slots[c]? with
    | none => none
    | some slot =>
      if slot.phase = .receiving then some (s.receive backend config c slot message sent) else none
  | .begin c message =>
    match s.slots[c]? with
    | none => none
    | some slot =>
      if slot.cleaned = false ∧ .waiting message ∈ slot.requests then
        some (s.begin backend config c slot message)
      else none
  | .finish b i taskEnd =>
    (s.dispatcher.step backend.toServerBackend config (.finish b i taskEnd)).map fun dispatcher =>
      { s with dispatcher := dispatcher }
  | .complete c b sent =>
    match s.slots[c]? with
    | none => none
    | some slot =>
      if slot.Processes b then
        (s.dispatcher.step backend.toServerBackend config (.complete b slot.session sent)).map
          (s.complete c slot b)
      else none
  | .abandon c task =>
    match s.slots[c]? with
    | none => none
    | some slot =>
      if slot.cleaned then some (s.setSlot c { slot with requests := slot.requests.erase task })
      else none
  | .beginClose => some { s with closing := true, endpoints := [] }
  | .stop c =>
    match s.slots[c]? with
    | none => none
    | some slot => if s.closing then some (s.setSlot c { slot with phase := .ended }) else none
  | .cleanup c =>
    match s.slots[c]? with
    | none => none
    | some slot =>
      if slot.phase = .ended ∧ slot.cleaned = false then some (s.cleanup c slot) else none
  | .cancel id => some { s with dispatcher := s.dispatcher.cancelId id }
  | .cancelAll => some { s with dispatcher := s.dispatcher.cancelAll }

/-- The states that a server gets to. -/
inductive RpcServer.Reachable (backend : ConnectionBackend Id Session Request Response Value)
    (config : DispatcherConfig Request) : RpcServer Id Session Request Response → Prop
  | start : Reachable backend config {}
  | step {s t : RpcServer Id Session Request Response} {action : ServerAction Id Value} :
    Reachable backend config s → s.step backend config action = some t →
    Reachable backend config t

end

/-! ## The backend -/

/-- `cancelId`. -/
def cancelId (codecId : UInt8) (message : MessageType) : Option UInt64 :=
  match parseFrame message codecId with
  | none => none
  | some parts =>
    if parts.header.kind ≠ .cancel ∨ parts.method ≠ [] ∨ parts.extensions ≠ [] ∨
        parts.payload ≠ [] then none
    else some parts.header.id

/-- `NekoRpcBackend` as a server uses it, with the method table of its context. -/
def nekoConnectionBackend {α : Type} (codec : CompressionCodec) (codecId : UInt8)
    (options : BackendOptions) (table : MethodIdTable) (maxInflightRequests : ℕ)
    (serializer : Serializer α) (message : ErrorCode → MessageType)
    (errorCode : DecompressStop → ErrorCode) :
    ConnectionBackend UInt64 NekoServerSession DecodedRequest FrameParts (Option MessageType) where
  toServerBackend := nekoServerBackend codec codecId options serializer message errorCode
  makeServerPeerSession := { options.makePeerSession with methodTable := table }
  cancelId := cancelId codecId
  handleServerControl session data :=
    match handleServerControl codec codecId ⟨options, session.methodTable⟩ session.toBackendSession
      data with
    | .error error => .error (errorCode (.error error))
    | .ok (peer, answer) => .ok ({ session with toBackendSession := peer }, answer)
  maxInflightRequests := maxInflightRequests

end NekoProto.Rpc
