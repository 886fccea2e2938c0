import NekoProto.Rpc.NekoServer

/-!
# Accounting for the responses

Of every batch that the dispatcher is through with, each request that expects a response has one
with its id, and the others have none.

1. What is appended to the slot of a request answers it, unless its task was stopped
   (`executeRequest_answers`); what was stopped is completed in the end (`completeSlot_answers`).
2. Every step keeps this of every slot, in whatever order the tasks end (`step_inv`).
3. So the responses of a batch are those of the backend and then the answers to its requests, in
   the order of the requests (`responses_accounted`).
-/

namespace NekoProto.Rpc

variable {Id Session Request Response Value : Type}

section

variable (backend : ServerBackend Id Session Request Response Value)

/-- The ids of the responses to a request. -/
def ServerBackend.ids (request : Request) : List Id :=
  if backend.expectsResponse request then [backend.id request] else []

/-- The answers to a request: an error, or what its method returned. -/
inductive ServerBackend.Answers (request : Request) : List Response → Prop
  | error (error : ErrorCode) : Answers request (backend.appendError request error)
  | methodReturn (result : Except ErrorCode Value) :
    Answers request (backend.appendMethodReturn request result)

/-- A slot with the answer to a request, or none because the task was stopped or still runs. -/
def Slot.Answers (request : Request) (slot : Slot Response) : Prop :=
  slot.responses = [] ∨ backend.Answers request slot.responses

/-- A message with the responses of a batch that is within the limits. -/
structure ServerBackend.Encodes (responses : List Response) (batch : Bool)
    (message : MessageType) : Prop where
  encoded : ∃ session, message = backend.encodeResponses session responses batch
  ne_nil : message ≠ []
  valid : backend.validateMessage message = true

/-- The end of a batch: the backend's own responses, and behind them the answers to the requests;
they are handed to the endpoint in a valid message, or it is closed. -/
structure Batch.Accounted (batch : Batch Id Request Response) (delivery : Delivery Response) :
    Prop where
  responses : ∃ answers : List (List Response),
    delivery.responses = batch.decoded.responses ++ answers.flatten ∧
      List.Forall₂ backend.Answers batch.decoded.requests answers ∧
      answers.map (List.map backend.responseId) = batch.decoded.requests.map backend.ids
  handed : batch.endpoint = true → delivery.responses ≠ [] →
    (∃ message, delivery.sent = some message ∧
      backend.Encodes delivery.responses batch.decoded.batch message) ∨ delivery.closed = true

/-- What holds of a batch at any time. -/
structure Batch.Inv (batch : Batch Id Request Response) : Prop where
  answers : ∀ (i : ℕ) (slot : Slot Response) (request : Request), batch.slots[i]? = some slot →
    batch.decoded.requests[i]? = some request → slot.Answers backend request
  delivery : ∀ delivery, batch.delivery = some delivery → batch.Accounted backend delivery

variable {backend}

/-! ## A request -/

/-- **An answer carries the id of its request**, if that expects a response. -/
theorem ServerBackend.Answers.ids {request : Request} {responses : List Response}
    (h : backend.Answers request responses) :
    responses.map backend.responseId = backend.ids request := by
  cases h with
  | error error => exact backend.appendError_ids request error
  | methodReturn result => exact backend.appendMethodReturn_ids request result

theorem handle_answers (handler : Handler Request) (request : Request)
    (invocation : Invocation Value) :
    backend.Answers request (handle backend handler request invocation) := by
  unfold handle
  cases handler.decodeParams request with
  | error error => exact .error error
  | ok _ =>
    cases invocation with
    | returned result => exact .methodReturn result
    | threw => exact .methodReturn _

/-- **A task answers its request**, or appends nothing. -/
theorem executeRequest_answers (config : DispatcherConfig Request) (request : Request)
    (taskEnd : TaskEnd Value) :
    (Slot.filled (executeRequest backend config request taskEnd)).Answers backend request := by
  cases taskEnd with
  | deadlineExceeded => exact .inr (.error _)
  | stopped => exact .inl rfl
  | called invocation =>
    unfold executeRequest
    cases config.handlers (backend.methodName request) with
    | none => exact .inl rfl
    | some handler => exact .inr (handle_answers handler request invocation)

/-- **The completion answers a request** to which nothing was appended. -/
theorem completeSlot_answers (config : DispatcherConfig Request) {request : Request}
    {slot : Slot Response} (h : slot.Answers backend request) :
    backend.Answers request (completeSlot backend config request slot) := by
  unfold completeSlot
  by_cases hempty : backend.expectsResponse request = true ∧ slot.responses = []
  · rw [if_pos hempty]
    exact .error config.canceled
  · rw [if_neg hempty]
    obtain hnil | hanswers := h
    · -- a request without a response: nothing is what an error would append too
      have hexpects : ¬backend.expectsResponse request = true := fun h => hempty ⟨h, hnil⟩
      have hids := backend.appendError_ids request config.canceled
      rw [if_neg hexpects, List.map_eq_nil_iff] at hids
      rw [hnil, ← hids]
      exact .error config.canceled
    · exact hanswers

/-! ## A batch -/

theorem deliver_responses (session : Session) (endpoint batch sent : Bool)
    (responses : List Response) :
    (deliver backend session endpoint batch sent responses).responses = responses := by
  unfold deliver
  simp only
  split_ifs <;> rfl

/-- The encoded responses, where they are not dropped. -/
theorem encodeValid_encodes {session : Session} {responses : List Response} {batch : Bool}
    (hne : encodeValid backend session responses batch ≠ []) :
    backend.Encodes responses batch (encodeValid backend session responses batch) := by
  unfold encodeValid at hne ⊢
  simp only at hne ⊢
  split_ifs at hne ⊢ with hinvalid
  · exact absurd rfl hne
  · exact ⟨⟨session, rfl⟩, hne, by simpa [hne] using hinvalid⟩

/-- Something valid is sent, or the endpoint is closed. -/
theorem deliver_handed {session : Session} {endpoint batch sent : Bool}
    {responses : List Response} (hendpoint : endpoint = true) (hne : responses ≠ []) :
    (∃ message, (deliver backend session endpoint batch sent responses).sent = some message ∧
      backend.Encodes responses batch message) ∨
    (deliver backend session endpoint batch sent responses).closed = true := by
  unfold deliver
  simp only [hendpoint, Bool.not_true, Bool.false_eq_true, if_false]
  by_cases hbuffer : encodeValid backend session responses batch = []
  · rw [if_pos ⟨hne, hbuffer⟩]
    exact .inr rfl
  · rw [if_neg (fun h => hbuffer h.2), if_neg hbuffer]
    exact .inl ⟨_, rfl, encodeValid_encodes hbuffer⟩

/-- What is true of each pair is true of the lists. -/
theorem forall₂_zipWith {α β γ : Type} {f : α → β → γ} {R : α → γ → Prop} :
    ∀ {xs : List α} {ys : List β}, ys.length = xs.length →
      (∀ (i : ℕ) (x : α) (y : β), xs[i]? = some x → ys[i]? = some y → R x (f x y)) →
      List.Forall₂ R xs (List.zipWith f xs ys) := by
  intro xs
  induction xs with
  | nil => exact fun _ _ => .nil
  | cons x xs ih =>
    intro ys hlen hpair
    cases ys with
    | nil => cases hlen
    | cons y ys =>
      exact .cons (hpair 0 x y rfl rfl)
        (ih (Nat.succ.inj hlen) fun i x' y' hx hy => hpair (i + 1) x' y' hx hy)

theorem answers_ids {requests : List Request} {answers : List (List Response)}
    (h : List.Forall₂ backend.Answers requests answers) :
    answers.map (List.map backend.responseId) = requests.map backend.ids := by
  induction h with
  | nil => rfl
  | cons hanswer _ ih => rw [List.map_cons, List.map_cons, hanswer.ids, ih]

theorem Batch.Inv.empty {batch : Batch Id Request Response} (hslots : batch.slots = [])
    (h : ∀ delivery, batch.delivery = some delivery → batch.Accounted backend delivery) :
    batch.Inv backend := by
  refine ⟨fun i slot request hslot => ?_, h⟩
  rw [hslots] at hslot
  cases hslot

theorem Batch.Inv.push {batch : Batch Id Request Response} (h : batch.Inv backend)
    {request : Request} {slot : Slot Response} (key : Option (ActiveKey Id))
    (hrequest : batch.decoded.requests[batch.slots.length]? = some request)
    (hslot : slot.Answers backend request) : (batch.push slot key).Inv backend := by
  refine ⟨fun i slot' request' hslot' hrequest' => ?_, fun d hd => ?_⟩
  · replace hslot' : (batch.slots ++ [slot])[i]? = some slot' := hslot'
    obtain hlt | rfl | hgt := lt_trichotomy i batch.slots.length
    · rw [List.getElem?_append_left hlt] at hslot'
      exact h.answers i slot' request' hslot' hrequest'
    · rw [List.getElem?_concat_length] at hslot'
      obtain rfl := Option.some.inj hslot'
      obtain rfl := Option.some.inj (hrequest.symm.trans hrequest')
      exact hslot
    · rw [List.getElem?_eq_none (by rw [List.length_append, List.length_singleton]; omega)]
        at hslot'
      cases hslot'
  · exact ⟨(h.delivery d hd).responses, (h.delivery d hd).handed⟩

theorem Batch.Inv.fill {batch : Batch Id Request Response} (h : batch.Inv backend) {i : ℕ}
    {request : Request} {responses : List Response}
    (hrequest : batch.decoded.requests[i]? = some request)
    (hslot : (Slot.filled responses).Answers backend request) :
    (batch.fill i responses).Inv backend := by
  refine ⟨fun j slot' request' hslot' hrequest' => ?_, fun d hd => ?_⟩
  · replace hslot' : (batch.slots.set i (.filled responses))[j]? = some slot' := hslot'
    rw [List.getElem?_set] at hslot'
    split_ifs at hslot' with hij hlt
    · subst hij
      obtain rfl := Option.some.inj hslot'
      obtain rfl := Option.some.inj (hrequest.symm.trans hrequest')
      exact hslot
    · exact h.answers j slot' request' hslot' hrequest'
  · exact ⟨(h.delivery d hd).responses, (h.delivery d hd).handed⟩

/-- **A batch that is done is accounted for.** -/
theorem Batch.Inv.complete {batch : Batch Id Request Response} (h : batch.Inv backend)
    (config : DispatcherConfig Request) (hdone : batch.isDone = true) (session : Session)
    (sent : Bool) : ({ batch with
      delivery := some (deliver backend session batch.endpoint batch.decoded.batch sent
        (batch.decoded.responses ++ (List.zipWith (completeSlot backend config)
          batch.decoded.requests batch.slots).flatten)) } :
      Batch Id Request Response).Inv backend := by
  obtain ⟨hlen, -⟩ := of_decide_eq_true hdone
  refine ⟨h.answers, fun d hd => ?_⟩
  obtain rfl := Option.some.inj hd
  have hanswers := forall₂_zipWith hlen fun i request slot hrequest hslot =>
    completeSlot_answers config (h.answers i slot request hslot hrequest)
  refine ⟨⟨_, deliver_responses .., hanswers, answers_ids hanswers⟩, fun hendpoint hne => ?_⟩
  rw [deliver_responses] at hne ⊢
  exact deliver_handed hendpoint hne

/-! ## The runs -/

/-- What holds of all batches still does if one of them changes. -/
theorem Dispatcher.setBatch_inv {s : Dispatcher Id Request Response}
    (h : ∀ batch ∈ s.batches, batch.Inv backend) (b : ℕ) {batch : Batch Id Request Response}
    (hbatch : batch.Inv backend) : ∀ batch' ∈ (s.setBatch b batch).batches, batch'.Inv backend := by
  intro batch' hmem
  obtain hmem | rfl := List.mem_or_eq_of_mem_set hmem
  · exact h batch' hmem
  · exact hbatch

variable [DecidableEq Id]

/-- **Every step keeps the account.** -/
theorem Dispatcher.step_inv (config : DispatcherConfig Request)
    {s t : Dispatcher Id Request Response} {action : DispatcherAction Id Session Value}
    (h : ∀ batch ∈ s.batches, batch.Inv backend) (hstep : s.step backend config action = some t) :
    ∀ batch ∈ t.batches, batch.Inv backend := by
  cases action with
  | processMessage connection session message rejectOnly endpoint =>
    obtain rfl := Option.some.inj hstep
    intro batch hmem
    obtain hmem | hmem := List.mem_append.mp hmem
    · exact h batch hmem
    · obtain rfl := List.mem_singleton.mp hmem
      cases backend.decodeIncoming session message with
      | none =>
        refine .empty rfl fun d hd => ?_
        obtain rfl := Option.some.inj hd
        exact ⟨⟨[], rfl, .nil, rfl⟩, fun _ hne => absurd rfl hne⟩
      | some decoded => exact .empty rfl nofun
  | dispatch b =>
    obtain ⟨batch, request, hb, hrequest, rfl⟩ := step_dispatch hstep
    have hinv := h batch (List.mem_of_getElem? hb)
    unfold dispatch
    cases s.refusal backend config batch request with
    | some error =>
      exact setBatch_inv h b (hinv.push none hrequest (.inr (.error error)))
    | none => exact setBatch_inv h b (hinv.push _ hrequest (.inl rfl))
  | finish b i taskEnd =>
    obtain ⟨batch, request, htask, rfl⟩ := step_finish hstep
    obtain ⟨hb, hslot, hrequest⟩ := task_eq_some.mp htask
    exact setBatch_inv h b ((h batch (List.mem_of_getElem? hb)).fill hrequest
      (executeRequest_answers config request taskEnd))
  | complete b session sent =>
    obtain ⟨batch, hb, hdone, -, rfl⟩ := step_complete hstep
    exact setBatch_inv h b
      ((h batch (List.mem_of_getElem? hb)).complete config hdone session sent)
  | cancel connection id => obtain rfl := Option.some.inj hstep; exact h
  | cancelId id => obtain rfl := Option.some.inj hstep; exact h
  | cancelSession connection => obtain rfl := Option.some.inj hstep; exact h
  | cancelAll => obtain rfl := Option.some.inj hstep; exact h

theorem inv_of_reaches {config : DispatcherConfig Request} {s : Dispatcher Id Request Response}
    (hrun : Reaches backend config (fun _ _ => True) s) :
    ∀ batch ∈ s.batches, batch.Inv backend := by
  induction hrun with
  | start => exact List.forall_mem_nil _
  | step _ _ hstep ih => exact Dispatcher.step_inv config ih hstep

/-- **Response accounting.** Of every batch that is through, in whatever run. -/
theorem responses_accounted (config : DispatcherConfig Request)
    {s : Dispatcher Id Request Response} (hrun : Reaches backend config (fun _ _ => True) s)
    {batch : Batch Id Request Response} (hbatch : batch ∈ s.batches)
    {delivery : Delivery Response} (hdelivery : batch.delivery = some delivery) :
    batch.Accounted backend delivery :=
  (inv_of_reaches hrun batch hbatch).delivery delivery hdelivery

end

/-- The end of a batch whose task was stopped. -/
theorem responses_accounted_plain :
    ∃ (s : Dispatcher UInt64 DecodedRequest FrameParts)
      (batch : Batch UInt64 DecodedRequest FrameParts) (delivery : Delivery FrameParts),
      ({} : Dispatcher UInt64 DecodedRequest FrameParts).run plainServer plainConfig
        [.processMessage 0 plainPeer (encodeFrame (plainRequest 0)) false true, .dispatch 0,
          .cancel 0 7, .finish 0 0 .stopped, .complete 0 plainPeer true] = some s ∧
      s.batches[0]? = some batch ∧ batch.delivery = some delivery ∧
      batch.Accounted plainServer delivery := by
  have hsome : ((({} : Dispatcher UInt64 DecodedRequest FrameParts).run plainServer plainConfig
      [.processMessage 0 plainPeer (encodeFrame (plainRequest 0)) false true, .dispatch 0,
        .cancel 0 7, .finish 0 0 .stopped, .complete 0 plainPeer true]).bind fun s =>
          s.batches[0]?.bind Batch.delivery).isSome = true := by
    decide +kernel
  obtain ⟨delivery, hall⟩ := Option.isSome_iff_exists.mp hsome
  obtain ⟨s, hrun, hs⟩ := Option.bind_eq_some_iff.mp hall
  obtain ⟨batch, hbatch, hdelivery⟩ := Option.bind_eq_some_iff.mp hs
  exact ⟨s, batch, delivery, hrun, hbatch, hdelivery,
    responses_accounted plainConfig (reaches_run .start hrun) (List.mem_of_getElem? hbatch)
      hdelivery⟩

end NekoProto.Rpc
