import NekoProto.Rpc.Error
import NekoProto.Lib.Correlation

/-!
# The client

`RpcClient` of `rpc/client.hpp`: calls, the receive loop of an endpoint and the pending table that
connects them, as a step relation. A coroutine runs from one suspension to the next in one step,
and the steps of all coroutines interleave freely; the mutexes that only order them are left out.
Endpoints, calls, attempts and received frames are numbered.

An attempt of a call is a ticket of the pending table (`Correlation.Table`): the sender of its
oneshot channel is what is outstanding under the request id, what the channel holds is the
ticket's answer, and a channel without sender and answer is closed.
-/

namespace NekoProto.Rpc

/-! ## State -/

/-- The `std::error_code` a call fails with: one of the backend or of an endpoint, or one of the
members of `ilias::IoError` that the client names. -/
inductive CallError
  | code (error : ErrorCode)
  | wouldBlock | canceled | other | unexpectedEof
  deriving DecidableEq, Repr

/-- `PendingResult`. -/
abbrev PendingResult := Except CallError MessageType

/-- What a call comes to: what the backend decoded from a response, or a failure before that. -/
inductive CallResult (Value : Type)
  | decoded (result : Except ErrorCode Value)
  | failed (error : CallError)

/-- Where the coroutine `_callRemote` is suspended. -/
inductive Phase (Value : Type)
  /-- in `_ensureReceiver` -/
  | connecting
  /-- at the top of the loop -/
  | encoding
  /-- before and in `endpoint->send` -/
  | sending (message : MessageType)
  /-- in `co_await` of the receiver -/
  | waiting
  /-- before `recoverClientCall` -/
  | recovering (error : ErrorCode)
  | done (result : CallResult Value)

def Phase.isWaiting {Value : Type} : Phase Value → Bool
  | .waiting => true
  | _ => false

theorem Phase.isWaiting_iff {Value : Type} {phase : Phase Value} :
    phase.isWaiting = true ↔ phase = .waiting := by
  cases phase <;> simp [isWaiting]

/-- A call: its arguments and the locals of `_callRemote`. The attempt is its number and the
request id. -/
structure ClientCall (Id Method Value : Type) where
  method : Method
  notification : Bool
  endpoint : Option ℕ
  retryCount : ℕ := 0
  attempt : Option (ℕ × Id) := none
  phase : Phase Value

/-- The backend of a client, a template parameter of `RpcClient`, and the bound on pending calls
of its options. A method stands for its arguments too. -/
structure ClientBackend (Id Context Session Method Value : Type) where
  maxPendingCalls : ℕ
  makeClientPeerSession : Context → Session
  ensureClientReady : Context → Session → (MessageType → Except ErrorCode MessageType) →
    Session × Except ErrorCode Unit
  encodeRequest : Context → Session → Method → Bool →
    Context × Except ErrorCode (MessageType × Id)
  decodeResponse : Context → Session → Method → MessageType → Id →
    Session × Except ErrorCode Value
  recoverClientCall : Context → Session → ErrorCode → ℕ → Session × Bool
  validateMessage : Context → MessageType → Except ErrorCode Unit
  handleClientControl : Context → Session → MessageType → Session × Bool
  responseId : MessageType → Option Id

/-- The members of `RpcClient`, the calls, and the history: the endpoints whose receive loop runs,
those whose loop ended in `_disconnect`, the call of each attempt, the frames received, and which
of them went to which attempt. -/
structure ClientState (Id Context Session Method Value : Type) where
  context : Context
  session : Session
  resetPeerSession : Bool := false
  endpoint : Option ℕ := none
  receiverScope : Bool := false
  receiverStarted : Bool := false
  pending : Correlation.Table Id PendingResult := {}
  calls : List (ClientCall Id Method Value) := []
  endpoints : ℕ := 0
  receiving : List ℕ := []
  disconnected : List ℕ := []
  owners : List ℕ := []
  received : List MessageType := []
  deliveries : List (ℕ × ℕ) := []

/-- One step of some coroutine, with what it meets. -/
inductive ClientAction (Id Session Method : Type)
  | setEndpoint
  | close
  /-- the end of `shutdown`, for the endpoint it began with -/
  | shutdown (endpoint : ℕ) (error : Option ErrorCode)
  /-- `callRemote` and `notifyRemote` -/
  | start (method : Method) (notification : Bool)
  /-- the end of `_ensureReceiver`; `meanwhile` is what others do to the session during it -/
  | ensureReceiver (call : ℕ) (exchange : MessageType → Except ErrorCode MessageType)
      (meanwhile : Session → Session)
  /-- `encodeRequest` and the insertion into the pending table -/
  | attempt (call : ℕ)
  /-- the end of `endpoint->send` -/
  | send (call : ℕ) (written : Except ErrorCode ℕ)
  /-- the receiver resumes -/
  | resume (call : ℕ)
  | recover (call : ℕ)
  /-- a timeout, or a stop of the call's token -/
  | cancel (call : ℕ) (timedOut : Bool)
  /-- the end of `cancelRemote` -/
  | cancelRemote (id : Id)
  /-- the receive loop of an endpoint receives a frame -/
  | receive (endpoint : ℕ) (message : MessageType)
  | receiveError (endpoint : ℕ) (error : ErrorCode)

/-! ## The steps -/

namespace ClientState

section

variable {Id Context Session Method Value : Type}
  (s : ClientState Id Context Session Method Value)

/-- The call continues as `call`. -/
def setCall (c : ℕ) (call : ClientCall Id Method Value) :
    ClientState Id Context Session Method Value :=
  { s with calls := s.calls.set c call }

/-- `Backend::clientNotInitError`. -/
def clientNotInit : CallError := .code RpcError.clientNotInit.toErrorCode

/-- `_failAllPending`. -/
def failAllPending (error : CallError) : ClientState Id Context Session Method Value :=
  { s with pending := s.pending.answerAll (.error error) }

/-- `close`, which also stops the tasks of the receiver's scope. -/
def close : ClientState Id Context Session Method Value :=
  let s := { s with endpoint := none, receiverScope := false, receiverStarted := false }
  let s := s.failAllPending clientNotInit
  { s with receiving := [] }

/-- `setEndpoint`. -/
def setEndpoint : ClientState Id Context Session Method Value :=
  let s := s.close
  { s with
    endpoint := some s.endpoints
    endpoints := s.endpoints + 1
    receiverScope := true
    receiverStarted := false
    resetPeerSession := true }

/-- `shutdown`, from the flushed endpoint on. -/
def shutdown (endpoint : ℕ) (error : Option ErrorCode) :
    ClientState Id Context Session Method Value :=
  let s :=
    if s.endpoint = some endpoint then
      { s with
        endpoint := none, receiverScope := false, receiverStarted := false, receiving := [] }
    else s
  s.failAllPending (error.elim clientNotInit .code)

/-- `_disconnect`, by which the receive loop of an endpoint ends. -/
def disconnect (endpoint : ℕ) (error : CallError) : ClientState Id Context Session Method Value :=
  let s :=
    if s.endpoint = some endpoint then { s with endpoint := none, receiverStarted := false }
    else s
  let s := s.failAllPending error
  { s with
    receiving := s.receiving.erase endpoint
    disconnected := s.disconnected ++ [endpoint] }

end

section

variable {Id Context Session Method Value : Type} [DecidableEq Id]
  (backend : ClientBackend Id Context Session Method Value)
  (s : ClientState Id Context Session Method Value)

/-- `_abandonPending`, by the guard of a call's attempt. What becomes of the cancellation that it
sends off is the server's affair. -/
def abandonPending (call : ClientCall Id Method Value) :
    ClientState Id Context Session Method Value :=
  match call.attempt with
  | none => s
  | some (_, id) => { s with pending := s.pending.revoke id }

/-- A call fails while the guard of its attempt is active. -/
def fail (c : ℕ) (call : ClientCall Id Method Value) (error : CallError) :
    ClientState Id Context Session Method Value :=
  (s.abandonPending call).setCall c { call with phase := .done (.failed error) }

/-- `_callRemote` up to `_ensureReceiver`. -/
def start (method : Method) (notification : Bool) : ClientState Id Context Session Method Value :=
  let phase : Phase Value :=
    if s.endpoint = none then .done (.failed clientNotInit)
    else if !notification ∧ backend.maxPendingCalls ≤ s.pending.outstanding.length then
      .done (.failed .wouldBlock)
    else .connecting
  let call : ClientCall Id Method Value :=
    { method := method, notification := notification, endpoint := s.endpoint, phase := phase }
  { s with calls := s.calls ++ [call] }

/-- `_ensureReceiver`. -/
def ensureReceiver (c : ℕ) (call : ClientCall Id Method Value)
    (exchange : MessageType → Except ErrorCode MessageType) (meanwhile : Session → Session) :
    ClientState Id Context Session Method Value :=
  let session :=
    if s.resetPeerSession then backend.makeClientPeerSession s.context else s.session
  let (session, ready) := backend.ensureClientReady s.context session exchange
  let s := { s with session := meanwhile session, resetPeerSession := false }
  match ready with
  | .error error => s.setCall c { call with phase := .done (.failed (.code error)) }
  | .ok () =>
    if s.endpoint ≠ call.endpoint ∨ !s.receiverScope then
      s.setCall c { call with phase := .done (.failed clientNotInit) }
    else
      let s :=
        if s.receiverStarted then s
        else { s with receiverStarted := true, receiving := s.receiving ++ s.endpoint.toList }
      s.setCall c { call with phase := .encoding }

/-- The top of the loop: the request is encoded and, unless it is a notification, its sender put
into the pending table. -/
def beginAttempt (c : ℕ) (call : ClientCall Id Method Value) :
    ClientState Id Context Session Method Value :=
  let (context, encoded) :=
    backend.encodeRequest s.context s.session call.method call.notification
  let s := { s with context := context }
  match encoded with
  | .error error => s.setCall c { call with phase := .done (.failed (.code error)) }
  | .ok (message, id) =>
    if call.notification then s.setCall c { call with phase := .sending message }
    else if backend.maxPendingCalls ≤ s.pending.outstanding.length ∨
        (s.pending.lookup id).isSome then
      s.setCall c { call with phase := .done (.failed .wouldBlock) }
    else
      let s' := { s with pending := s.pending.issue id, owners := s.owners ++ [c] }
      s'.setCall c { call with
        attempt := some (s.pending.tickets.length, id)
        phase := .sending message }

/-- The request of a call was sent, or not. -/
def finishSend (c : ℕ) (call : ClientCall Id Method Value) (message : MessageType)
    (written : Except ErrorCode ℕ) : ClientState Id Context Session Method Value :=
  match written with
  | .error error => s.fail c call (.code error)
  | .ok size =>
    if size ≠ message.length then s.fail c call .other
    else if call.notification then
      s.setCall c { call with phase := .done (.failed (.code RpcError.ok.toErrorCode)) }
    else s.setCall c { call with phase := .waiting }

/-- The receiver of an attempt resumes, once its channel holds something or is closed. -/
def resume (c : ℕ) (call : ClientCall Id Method Value) :
    Option (ClientState Id Context Session Method Value) :=
  match call.attempt with
  | none => none
  | some (k, id) =>
    match s.pending.tickets[k]? with
    | none => none
    | some ticket =>
      match ticket.answer with
      | some (.ok message) =>
        let (session, decoded) :=
          backend.decodeResponse s.context s.session call.method message id
        let s := { s with session := session }
        match decoded with
        | .ok value => some (s.setCall c { call with phase := .done (.decoded (.ok value)) })
        | .error error => some (s.setCall c { call with phase := .recovering error })
      | some (.error error) => some (s.fail c call error)
      | none =>
        if k ∈ s.pending.outstanding.map Prod.snd then none else some (s.fail c call .canceled)

/-- The backend decides whether the call goes around again. -/
def recover (c : ℕ) (call : ClientCall Id Method Value) (error : ErrorCode) :
    ClientState Id Context Session Method Value :=
  let (session, recovered) :=
    backend.recoverClientCall s.context s.session error call.retryCount
  let s := { s with session := session }
  if recovered then
    s.setCall c { call with
      retryCount := call.retryCount + 1
      attempt := none
      phase := .encoding }
  else s.setCall c { call with phase := .done (.decoded (.error error)) }

/-- A timeout or a cancellation destroys the coroutine; the guard is active while the request is
sent or waited for. -/
def cancel (c : ℕ) (call : ClientCall Id Method Value) (timedOut : Bool) :
    Option (ClientState Id Context Session Method Value) :=
  let error : CallError :=
    if timedOut then .code RpcError.deadlineExceeded.toErrorCode else .canceled
  match call.phase with
  | .done _ => none
  | .sending _ => some (s.fail c call error)
  | .waiting => some (s.fail c call error)
  | _ => some (s.setCall c { call with phase := .done (.failed error) })

/-- A turn of `_receiveLoop` that received something. -/
def receive (endpoint : ℕ) (message : MessageType) :
    ClientState Id Context Session Method Value :=
  let number := s.received.length
  let s := { s with received := s.received ++ [message] }
  if message = [] then s.disconnect endpoint .unexpectedEof
  else
    match backend.validateMessage s.context message with
    | .error error => s.disconnect endpoint (.code error)
    | .ok () =>
      let (session, control) := backend.handleClientControl s.context s.session message
      let s := { s with session := session }
      if control then s
      else
        match backend.responseId message with
        | none => s
        | some id =>
          match s.pending.lookup id with
          | none => s
          | some k =>
            { s with
              pending := s.pending.answer id (.ok message)
              deliveries := s.deliveries ++ [(number, k)] }

/-- A step. There is none when the coroutine is not at the place the action is about. -/
def step : ClientAction Id Session Method → Option (ClientState Id Context Session Method Value)
  | .setEndpoint => some s.setEndpoint
  | .close => some s.close
  | .shutdown endpoint error => some (s.shutdown endpoint error)
  | .start method notification => some (s.start backend method notification)
  | .ensureReceiver c exchange meanwhile =>
    match s.calls[c]? with
    | some call =>
      match call.phase with
      | .connecting => some (s.ensureReceiver backend c call exchange meanwhile)
      | _ => none
    | none => none
  | .attempt c =>
    match s.calls[c]? with
    | some call =>
      match call.phase with
      | .encoding => some (s.beginAttempt backend c call)
      | _ => none
    | none => none
  | .send c written =>
    match s.calls[c]? with
    | some call =>
      match call.phase with
      | .sending message => some (s.finishSend c call message written)
      | _ => none
    | none => none
  | .resume c =>
    match s.calls[c]? with
    | some call =>
      match call.phase with
      | .waiting => s.resume backend c call
      | _ => none
    | none => none
  | .recover c =>
    match s.calls[c]? with
    | some call =>
      match call.phase with
      | .recovering error => some (s.recover backend c call error)
      | _ => none
    | none => none
  | .cancel c timedOut =>
    match s.calls[c]? with
    | some call => s.cancel c call timedOut
    | none => none
  | .cancelRemote id => some { s with pending := s.pending.answer id (.error .canceled) }
  | .receive endpoint message =>
    if endpoint ∈ s.receiving then some (s.receive backend endpoint message) else none
  | .receiveError endpoint error =>
    if endpoint ∈ s.receiving then some (s.disconnect endpoint (.code error)) else none

/-- A run. -/
def run : List (ClientAction Id Session Method) →
    ClientState Id Context Session Method Value →
    Option (ClientState Id Context Session Method Value)
  | [], s => some s
  | action :: actions, s => (s.step backend action).bind (run actions)

/-- A new client. -/
def new (context : Context) : ClientState Id Context Session Method Value where
  context := context
  session := backend.makeClientPeerSession context

/-! ## Where a step is possible -/

section

variable {backend} {s} {s' : ClientState Id Context Session Method Value} {c endpoint : ℕ}

-- The equations are made here, once for the lemmas below.
attribute [local simp] step

theorem step_ensureReceiver {exchange : MessageType → Except ErrorCode MessageType}
    {meanwhile : Session → Session}
    (h : s.step backend (.ensureReceiver c exchange meanwhile) = some s') :
    ∃ call, s.calls[c]? = some call ∧ call.phase = .connecting ∧
      s.ensureReceiver backend c call exchange meanwhile = s' := by
  simp only [step] at h
  split at h
  · rename_i call hcall
    split at h
    · exact ⟨call, hcall, ‹_›, Option.some.inj h⟩
    · exact absurd h (by simp)
  · exact absurd h (by simp)

theorem step_attempt (h : s.step backend (.attempt c) = some s') :
    ∃ call, s.calls[c]? = some call ∧ call.phase = .encoding ∧
      s.beginAttempt backend c call = s' := by
  simp only [step] at h
  split at h
  · rename_i call hcall
    split at h
    · exact ⟨call, hcall, ‹_›, Option.some.inj h⟩
    · exact absurd h (by simp)
  · exact absurd h (by simp)

theorem step_send {written : Except ErrorCode ℕ}
    (h : s.step backend (.send c written) = some s') :
    ∃ call message, s.calls[c]? = some call ∧ call.phase = .sending message ∧
      s.finishSend c call message written = s' := by
  simp only [step] at h
  split at h
  · rename_i call hcall
    split at h
    · exact ⟨call, _, hcall, ‹_›, Option.some.inj h⟩
    · exact absurd h (by simp)
  · exact absurd h (by simp)

theorem step_resume (h : s.step backend (.resume c) = some s') :
    ∃ call, s.calls[c]? = some call ∧ call.phase = .waiting ∧
      s.resume backend c call = some s' := by
  simp only [step] at h
  split at h
  · rename_i call hcall
    split at h
    · exact ⟨call, hcall, ‹_›, h⟩
    · exact absurd h (by simp)
  · exact absurd h (by simp)

theorem step_recover (h : s.step backend (.recover c) = some s') :
    ∃ call error, s.calls[c]? = some call ∧ call.phase = .recovering error ∧
      s.recover backend c call error = s' := by
  simp only [step] at h
  split at h
  · rename_i call hcall
    split at h
    · exact ⟨call, _, hcall, ‹_›, Option.some.inj h⟩
    · exact absurd h (by simp)
  · exact absurd h (by simp)

theorem step_cancel {timedOut : Bool} (h : s.step backend (.cancel c timedOut) = some s') :
    ∃ call, s.calls[c]? = some call ∧ s.cancel c call timedOut = some s' := by
  simp only [step] at h
  split at h
  · exact ⟨_, ‹_›, h⟩
  · exact absurd h (by simp)

theorem step_receive {message : MessageType}
    (h : s.step backend (.receive endpoint message) = some s') :
    endpoint ∈ s.receiving ∧ s.receive backend endpoint message = s' := by
  simp only [step] at h
  split_ifs at h with hmem
  exact ⟨hmem, Option.some.inj h⟩

theorem step_receiveError {error : ErrorCode}
    (h : s.step backend (.receiveError endpoint error) = some s') :
    endpoint ∈ s.receiving ∧ s.disconnect endpoint (.code error) = s' := by
  simp only [step] at h
  split_ifs at h with hmem
  exact ⟨hmem, Option.some.inj h⟩

end

end

end ClientState

end NekoProto.Rpc
