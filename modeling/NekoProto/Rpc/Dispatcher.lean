import NekoProto.Rpc.MethodIdTable
import NekoProto.Lib.KeyedTable

/-!
# The dispatcher

`RpcDispatcher` of `rpc/dispatcher.hpp`: what becomes of the requests of a message, as a step
relation. A message is decoded to a batch; its requests are taken in order, and each is answered
at once or gets a task; when all of its tasks are through, the responses are collected, encoded
and sent. Batches, and the tasks of one batch, interleave freely. Batches are numbered, and a task
is a batch with the index of a request in it.

Of a task it matters how it ends (`TaskEnd`), not when: the time that passes, the order in which
tasks get a permit, and the metrics are left out.
-/

namespace NekoProto.Rpc

/-! ## The parts of a server -/

/-- What `decodeIncoming` makes of a message that it does not drop. -/
structure Decoded (Request Response : Type) where
  batch : Bool := false
  requests : List Request := []
  responses : List Response := []

/-- The backend of a server, a template parameter of `RpcServer`: of a value that a method returns
it is given what the serializer makes of it, and the responses that it appends are returned. A
session stands for the server's context too. -/
structure ServerBackend (Id Session Request Response Value : Type) where
  decodeIncoming : Session → MessageType → Option (Decoded Request Response)
  methodName : Request → Name
  id : Request → Id
  expectsResponse : Request → Bool
  appendError : Request → ErrorCode → List Response
  appendMethodReturn : Request → Except ErrorCode Value → List Response
  encodeResponses : Session → List Response → Bool → MessageType
  validateMessage : MessageType → Bool
  /-- The id that a response carries. -/
  responseId : Response → Id
  appendError_ids : ∀ request error, (appendError request error).map responseId =
    if expectsResponse request then [id request] else []
  appendMethodReturn_ids : ∀ request result, (appendMethodReturn request result).map responseId =
    if expectsResponse request then [id request] else []

/-- A registered method, as far as the dispatcher sees it: whether it has parameters of a request
to be called with. -/
structure Handler (Request : Type) where
  decodeParams : Request → Except ErrorCode Unit

/-- The members of a dispatcher that do not change while it runs, and the code of
`ilias::IoError::Canceled`. -/
structure DispatcherConfig (Request : Type) where
  handlers : Name → Option (Handler Request)
  maxActive : ℕ
  maxQueued : ℕ
  canceled : ErrorCode

/-- What comes of calling a method. -/
inductive Invocation (Value : Type)
  | returned (result : Except ErrorCode Value)
  | threw

/-- How a task ends: at its deadline, before it began or before it was through; by a stop of its
handle; or with its method called. -/
inductive TaskEnd (Value : Type)
  | deadlineExceeded
  | stopped
  | called (invocation : Invocation Value)

/-! ## State -/

/-- `ActiveKey`. A session is the number of its connection. -/
structure ActiveKey (Id : Type) where
  session : ℕ
  id : Id
  deriving DecidableEq

/-- The responses to a request, in the vector of which its task has a reference. -/
inductive Slot (Response : Type)
  | running
  | filled (responses : List Response)

def Slot.isFilled {Response : Type} : Slot Response → Bool
  | .running => false
  | .filled _ => true

/-- The responses in a slot. -/
def Slot.responses {Response : Type} : Slot Response → List Response
  | .running => []
  | .filled responses => responses

/-- The end of `processMessage`: the responses, what was handed to the endpoint, and whether the
endpoint was closed. -/
structure Delivery (Response : Type) where
  responses : List Response := []
  sent : Option MessageType := none
  closed : Bool := false

/-- A message that is being processed. -/
structure Batch (Id Request Response : Type) where
  session : ℕ
  endpoint : Bool
  rejectOnly : Bool
  decoded : Decoded Request Response
  slots : List (Slot Response) := []
  activeKeys : List (ActiveKey Id) := []
  delivery : Option (Delivery Response) := none

/-- The slot of the next request, and the key under which its task is registered. -/
def Batch.push {Id Request Response : Type} (batch : Batch Id Request Response)
    (slot : Slot Response) (key : Option (ActiveKey Id)) : Batch Id Request Response :=
  { batch with
    slots := batch.slots ++ [slot]
    activeKeys := batch.activeKeys ++ key.toList }

/-- The slot of a request is filled. -/
def Batch.fill {Id Request Response : Type} (batch : Batch Id Request Response) (i : ℕ)
    (responses : List Response) : Batch Id Request Response :=
  { batch with slots := batch.slots.set i (.filled responses) }

/-- All requests have been taken, and all tasks have ended. -/
def Batch.isDone {Id Request Response : Type} (batch : Batch Id Request Response) : Bool :=
  batch.slots.length = batch.decoded.requests.length ∧ batch.slots.all Slot.isFilled

/-- The members of a dispatcher, its batches, and the tasks whose handles were stopped. -/
structure Dispatcher (Id Request Response : Type) where
  batches : List (Batch Id Request Response) := []
  cancelHandles : List (ActiveKey Id × ℕ × ℕ) := []
  outstanding : ℕ := 0
  stopped : List (ℕ × ℕ) := []

/-- One step, with what it meets. -/
inductive DispatcherAction (Id Session Value : Type)
  /-- `processMessage` up to the loop over the requests -/
  | processMessage (connection : ℕ) (session : Session) (message : MessageType)
      (rejectOnly endpoint : Bool)
  /-- a turn of that loop -/
  | dispatch (batch : ℕ)
  /-- a task ends -/
  | finish (batch index : ℕ) (taskEnd : TaskEnd Value)
  /-- the end of `processMessage`, with the result of the send -/
  | complete (batch : ℕ) (session : Session) (sent : Bool)
  /-- `cancel` of an id in a session -/
  | cancel (connection : ℕ) (id : Id)
  /-- `cancel` of an id in all sessions -/
  | cancelId (id : Id)
  | cancelSession (connection : ℕ)
  | cancelAll

/-! ## The steps -/

section

variable {Id Session Request Response Value : Type}
  (backend : ServerBackend Id Session Request Response Value)
  (config : DispatcherConfig Request)

/-- `_handle` and `_handleWithContext`: the responses that they append. -/
def handle (handler : Handler Request) (request : Request) (invocation : Invocation Value) :
    List Response :=
  match handler.decodeParams request with
  | .error error => backend.appendError request error
  | .ok () =>
    match invocation with
    | .returned result => backend.appendMethodReturn request result
    | .threw => backend.appendMethodReturn request (.error RpcError.internalError.toErrorCode)

/-- `_executeRequest`, by its end. -/
def executeRequest (request : Request) (taskEnd : TaskEnd Value) : List Response :=
  match taskEnd with
  | .deadlineExceeded => backend.appendError request RpcError.deadlineExceeded.toErrorCode
  | .stopped => []
  | .called invocation =>
    match config.handlers (backend.methodName request) with
    | none => []
    | some handler => handle backend handler request invocation

/-- The key of a request, if it gets one. -/
def activeKey (connection : ℕ) (request : Request) : Option (ActiveKey Id) :=
  if backend.expectsResponse request then some ⟨connection, backend.id request⟩ else none

/-- The explicit completion of a request that was stopped. -/
def completeSlot (request : Request) (slot : Slot Response) : List Response :=
  if backend.expectsResponse request ∧ slot.responses = [] then
    backend.appendError request config.canceled
  else slot.responses

/-- The encoded responses, unless they violate the configured limits. -/
def encodeValid (session : Session) (responses : List Response) (batch : Bool) : MessageType :=
  let buffer := backend.encodeResponses session responses batch
  if buffer ≠ [] ∧ !backend.validateMessage buffer then [] else buffer

/-- What is done with the responses. -/
def deliver (session : Session) (endpoint batch sent : Bool) (responses : List Response) :
    Delivery Response :=
  let buffer := encodeValid backend session responses batch
  if !endpoint then { responses := responses }
  else if responses ≠ [] ∧ buffer = [] then { responses := responses, closed := true }
  else if buffer = [] then { responses := responses }
  else { responses := responses, sent := some buffer, closed := !sent }

namespace Dispatcher

variable (s : Dispatcher Id Request Response)

/-- The batch continues as `batch`. -/
def setBatch (b : ℕ) (batch : Batch Id Request Response) : Dispatcher Id Request Response :=
  { s with batches := s.batches.set b batch }

/-- `tryAdmit`, without counting the request. -/
def admits : Bool :=
  config.maxActive ≠ 0 ∧
    (s.outstanding < config.maxActive ∨ s.outstanding - config.maxActive < config.maxQueued)

/-- The error with which a request is answered at once, if it does not get a task. -/
def refusal (batch : Batch Id Request Response) (request : Request) : Option ErrorCode :=
  match config.handlers (backend.methodName request) with
  | none => some RpcError.methodNotFound.toErrorCode
  | some _ =>
    if batch.rejectOnly ∨ !s.admits config then some RpcError.overloaded.toErrorCode else none

/-- `processMessage` up to the loop. A message that is dropped is through. -/
def processMessage (connection : ℕ) (session : Session) (message : MessageType)
    (rejectOnly endpoint : Bool) : Dispatcher Id Request Response :=
  let batch : Batch Id Request Response :=
    match backend.decodeIncoming session message with
    | none => ⟨connection, endpoint, rejectOnly, {}, [], [], some {}⟩
    | some decoded => ⟨connection, endpoint, rejectOnly, decoded, [], [], none⟩
  { s with batches := s.batches ++ [batch] }

variable [DecidableEq Id]

/-- A request gets a task, whose handle is put under its key. -/
def spawn (b : ℕ) (batch : Batch Id Request Response) (request : Request) :
    Dispatcher Id Request Response :=
  let key := activeKey backend batch.session request
  let task := (b, batch.slots.length)
  let s := s.setBatch b (batch.push .running key)
  { s with
    outstanding := s.outstanding + 1
    cancelHandles := key.elim s.cancelHandles fun key =>
      KeyedTable.assign key task s.cancelHandles }

/-- A turn of the loop over the requests. -/
def dispatch (b : ℕ) (batch : Batch Id Request Response) (request : Request) :
    Dispatcher Id Request Response :=
  match s.refusal backend config batch request with
  | some error =>
    s.setBatch b (batch.push (.filled (backend.appendError request error)) none)
  | none => s.spawn backend b batch request

/-- A task ends and gives its admission back. -/
def finish (b i : ℕ) (batch : Batch Id Request Response) (request : Request)
    (taskEnd : TaskEnd Value) : Dispatcher Id Request Response :=
  let s := s.setBatch b (batch.fill i (executeRequest backend config request taskEnd))
  { s with outstanding := s.outstanding - 1 }

/-- The end of `processMessage`, once all tasks of the batch have ended. -/
def complete (b : ℕ) (batch : Batch Id Request Response) (session : Session) (sent : Bool) :
    Dispatcher Id Request Response :=
  let slots := List.zipWith (completeSlot backend config) batch.decoded.requests batch.slots
  let responses := batch.decoded.responses ++ slots.flatten
  let s := s.setBatch b { batch with
    delivery := some (deliver backend session batch.endpoint batch.decoded.batch sent responses) }
  { s with
    cancelHandles := batch.activeKeys.foldl (fun handles key => KeyedTable.erase key handles)
      s.cancelHandles }

/-- `cancel` of an id in a session. -/
def cancel (connection : ℕ) (id : Id) : Dispatcher Id Request Response :=
  { s with stopped := s.stopped ++ (s.cancelHandles.lookup ⟨connection, id⟩).toList }

/-- `cancel` of an id. -/
def cancelId (id : Id) : Dispatcher Id Request Response :=
  { s with
    stopped := s.stopped ++
      (s.cancelHandles.filter fun handle => handle.1.id = id).map Prod.snd }

end Dispatcher

namespace Dispatcher

variable (s : Dispatcher Id Request Response)

/-- `cancelSession`. -/
def cancelSession (connection : ℕ) : Dispatcher Id Request Response :=
  { s with
    stopped := s.stopped ++
      (s.cancelHandles.filter fun handle => handle.1.session = connection).map Prod.snd
    cancelHandles := KeyedTable.keep (fun key => key.session ≠ connection) s.cancelHandles }

/-- `cancelAll`. -/
def cancelAll : Dispatcher Id Request Response :=
  { s with
    stopped := s.stopped ++ s.cancelHandles.map Prod.snd
    cancelHandles := [] }

/-- A task that is running, with its batch and its request. -/
def task (b i : ℕ) : Option (Batch Id Request Response × Request) :=
  match s.batches[b]? with
  | none => none
  | some batch =>
    match batch.slots[i]?, batch.decoded.requests[i]? with
    | some .running, some request => some (batch, request)
    | _, _ => none

theorem task_eq_some {s : Dispatcher Id Request Response} {b i : ℕ}
    {batch : Batch Id Request Response} {request : Request} :
    s.task b i = some (batch, request) ↔ s.batches[b]? = some batch ∧
      batch.slots[i]? = some .running ∧ batch.decoded.requests[i]? = some request := by
  unfold task
  constructor
  · intro h
    cases hb : s.batches[b]? with
    | none => rw [hb] at h; cases h
    | some batch' =>
      simp only [hb] at h
      split at h
      · rename_i request' hslot hrequest
        obtain ⟨rfl, rfl⟩ := Prod.mk.inj (Option.some.inj h)
        exact ⟨rfl, hslot, hrequest⟩
      · cases h
  · rintro ⟨hb, hslot, hrequest⟩
    simp only [hb, hslot, hrequest]

/-- A task can end so: by a stop only if its handle was stopped. -/
def canEnd (b i : ℕ) : TaskEnd Value → Bool
  | .stopped => (b, i) ∈ s.stopped
  | _ => true

/-- One step of the dispatcher. -/
def step [DecidableEq Id] : DispatcherAction Id Session Value →
    Option (Dispatcher Id Request Response)
  | .processMessage connection session message rejectOnly endpoint =>
    some (s.processMessage backend connection session message rejectOnly endpoint)
  | .dispatch b =>
    match s.batches[b]? with
    | none => none
    | some batch =>
      match batch.decoded.requests[batch.slots.length]? with
      | none => none
      | some request => some (s.dispatch backend config b batch request)
  | .finish b i taskEnd =>
    match s.task b i with
    | none => none
    | some (batch, request) =>
      if s.canEnd b i taskEnd then some (s.finish backend config b i batch request taskEnd)
      else none
  | .complete b session sent =>
    match s.batches[b]? with
    | none => none
    | some batch =>
      if batch.isDone ∧ batch.delivery.isNone then
        some (s.complete backend config b batch session sent)
      else none
  | .cancel connection id => some (s.cancel connection id)
  | .cancelId id => some (s.cancelId id)
  | .cancelSession connection => some (s.cancelSession connection)
  | .cancelAll => some s.cancelAll

variable {backend config}

theorem getElem?_setBatch {s : Dispatcher Id Request Response} {b : ℕ}
    {batch : Batch Id Request Response} (hb : s.batches[b]? = some batch)
    (batch' : Batch Id Request Response) (b' : ℕ) :
    (s.setBatch b batch').batches[b']? = if b' = b then some batch' else s.batches[b']? := by
  have hlt : b < s.batches.length := (List.getElem?_eq_some_iff.mp hb).1
  show (s.batches.set b batch')[b']? = _
  rw [List.getElem?_set]
  by_cases h : b' = b
  · rw [if_pos h.symm, if_pos hlt, if_pos h]
  · rw [if_neg (Ne.symm h), if_neg h]

-- The equations are made here, once for the lemmas below.
attribute [local simp] step

/-- What a turn of the loop is, where its request is in place. -/
theorem step_dispatch [DecidableEq Id] {s t : Dispatcher Id Request Response} {b : ℕ}
    (hstep : s.step backend config (.dispatch b : DispatcherAction Id Session Value) = some t) :
    ∃ (batch : Batch Id Request Response) (request : Request), s.batches[b]? = some batch ∧
      batch.decoded.requests[batch.slots.length]? = some request ∧
      t = s.dispatch backend config b batch request := by
  simp only [step] at hstep
  cases hb : s.batches[b]? with
  | none => rw [hb] at hstep; cases hstep
  | some batch =>
    simp only [hb] at hstep
    cases hrequest : batch.decoded.requests[batch.slots.length]? with
    | none => rw [hrequest] at hstep; cases hstep
    | some request =>
      simp only [hrequest] at hstep
      exact ⟨batch, request, rfl, hrequest, (Option.some.inj hstep).symm⟩

theorem step_finish [DecidableEq Id] {s t : Dispatcher Id Request Response}
    {b i : ℕ} {taskEnd : TaskEnd Value}
    (hstep : s.step backend config (.finish b i taskEnd) = some t) :
    ∃ (batch : Batch Id Request Response) (request : Request),
      s.task b i = some (batch, request) ∧
      t = s.finish backend config b i batch request taskEnd := by
  simp only [step] at hstep
  cases htask : s.task b i with
  | none => rw [htask] at hstep; cases hstep
  | some task =>
    obtain ⟨batch, request⟩ := task
    simp only [htask] at hstep
    split_ifs at hstep
    exact ⟨batch, request, rfl, (Option.some.inj hstep).symm⟩

theorem step_complete [DecidableEq Id] {s t : Dispatcher Id Request Response}
    {b : ℕ} {session : Session} {sent : Bool}
    (hstep : s.step backend config (.complete b session sent) = some t) :
    ∃ batch : Batch Id Request Response, s.batches[b]? = some batch ∧ batch.isDone = true ∧
      batch.delivery = none ∧ t = s.complete backend config b batch session sent := by
  simp only [step] at hstep
  cases hb : s.batches[b]? with
  | none => rw [hb] at hstep; cases hstep
  | some batch =>
    simp only [hb] at hstep
    split_ifs at hstep with hdone
    exact ⟨batch, rfl, hdone.1, Option.isNone_iff_eq_none.mp hdone.2,
      (Option.some.inj hstep).symm⟩

variable (backend config) in
/-- Several steps. -/
def run [DecidableEq Id] (s : Dispatcher Id Request Response) :
    List (DispatcherAction Id Session Value) → Option (Dispatcher Id Request Response)
  | [] => some s
  | action :: actions => (s.step backend config action).bind fun s => s.run actions

end Dispatcher

/-- The states of a dispatcher that runs of which every step meets a condition lead to. -/
inductive Reaches [DecidableEq Id]
    (allowed : Dispatcher Id Request Response → DispatcherAction Id Session Value → Prop) :
    Dispatcher Id Request Response → Prop
  | start : Reaches allowed {}
  | step {s t : Dispatcher Id Request Response} {action : DispatcherAction Id Session Value} :
    Reaches allowed s → allowed s action → s.step backend config action = some t →
    Reaches allowed t

variable {backend config} in
theorem reaches_run [DecidableEq Id] {s t : Dispatcher Id Request Response}
    {actions : List (DispatcherAction Id Session Value)}
    (hs : Reaches backend config (fun _ _ => True) s)
    (hrun : s.run backend config actions = some t) :
    Reaches backend config (fun _ _ => True) t := by
  induction actions generalizing s with
  | nil =>
    obtain rfl := Option.some.inj hrun
    exact hs
  | cons action actions ih =>
    obtain ⟨s', hstep, hrest⟩ := Option.bind_eq_some_iff.mp hrun
    exact ih (.step hs trivial hstep) hrest

end

end NekoProto.Rpc
