import NekoProto.Rpc.System

/-!
# The answers of a server

Where the messages that a server sends come from: every batch is what the backend decoded from a
message that came in on the connection of the batch, and what is sent at its end is what the
backend encoded from its responses. The origin of the messages is a parameter, a predicate `origin`
on connections and messages.

1. The steps of the dispatcher keep this of every batch (`Batch.Stems`, `Dispatcher.stems_step`).
2. So do the steps of the server, as long as what it dispatches has an origin, and no connection
   takes back what it sent (`RpcServer.stems_step`).
-/

namespace NekoProto.Rpc

variable {Id Session Request Response Value : Type}

/-! ## The dispatcher -/

/-- A batch stems from a message of its connection, unless that was dropped, and what was sent at
its end from its responses. -/
structure Batch.Stems (backend : ServerBackend Id Session Request Response Value)
    (origin : ℕ → MessageType → Prop) (batch : Batch Id Request Response) : Prop where
  decoded : batch.decoded = {} ∨ ∃ session message, origin batch.session message ∧
    backend.decodeIncoming session message = some batch.decoded
  sent : ∀ delivery message, batch.delivery = some delivery → delivery.sent = some message →
    ∃ session, message = backend.encodeResponses session delivery.responses batch.decoded.batch

section

variable {backend : ServerBackend Id Session Request Response Value}
  {config : DispatcherConfig Request} {origin origin' : ℕ → MessageType → Prop}
  {s t : Dispatcher Id Request Response}

/-- The origin of a batch may be said in other words. -/
theorem Batch.Stems.mono {batch : Batch Id Request Response} (h : batch.Stems backend origin)
    (horigin : ∀ c message, origin c message → origin' c message) :
    batch.Stems backend origin' where
  decoded := by
    rcases h.decoded with hempty | ⟨session, message, hmessage, hdecode⟩
    · exact Or.inl hempty
    · exact Or.inr ⟨session, message, horigin _ _ hmessage, hdecode⟩
  sent := h.sent

/-- What is sent at the end of a batch is what the backend encoded. -/
theorem deliver_sent {session : Session} {endpoint batch sent : Bool}
    {responses : List Response} {message : MessageType}
    (h : (deliver backend session endpoint batch sent responses).sent = some message) :
    message = backend.encodeResponses session responses batch := by
  unfold deliver at h
  dsimp only at h
  split_ifs at h with hendpoint hlost hempty
  obtain rfl := Option.some.inj h
  unfold encodeValid at hempty ⊢
  dsimp only at hempty ⊢
  split_ifs at hempty ⊢
  · exact absurd rfl hempty
  · rfl

theorem Dispatcher.setBatch_stems (h : ∀ batch ∈ s.batches, batch.Stems backend origin) (b : ℕ)
    {batch : Batch Id Request Response} (hbatch : batch.Stems backend origin) :
    ∀ batch' ∈ (s.setBatch b batch).batches, batch'.Stems backend origin := by
  intro batch' hmem
  rcases List.mem_or_eq_of_mem_set hmem with hold | rfl
  · exact h batch' hold
  · exact hbatch

/-- A message gets a batch. -/
theorem Dispatcher.processMessage_stems (h : ∀ batch ∈ s.batches, batch.Stems backend origin)
    {connection : ℕ} {message : MessageType} (horigin : origin connection message)
    (session : Session) (rejectOnly endpoint : Bool) :
    ∀ batch ∈ (s.processMessage backend connection session message rejectOnly endpoint).batches,
      batch.Stems backend origin := by
  intro batch hmem
  rcases List.mem_append.mp hmem with hold | hnew
  · exact h batch hold
  obtain rfl := List.mem_singleton.mp hnew
  cases hdecode : backend.decodeIncoming session message with
  | none =>
    refine ⟨Or.inl rfl, fun delivery message hdelivery hsent => ?_⟩
    obtain rfl := Option.some.inj hdelivery
    cases hsent
  | some decoded =>
    exact ⟨Or.inr ⟨session, message, horigin, hdecode⟩, fun _ _ hdelivery => by cases hdelivery⟩

variable [DecidableEq Id]

theorem Dispatcher.dispatch_stems (h : ∀ batch ∈ s.batches, batch.Stems backend origin) {b : ℕ}
    (hstep : s.step backend config (.dispatch b : DispatcherAction Id Session Value) = some t) :
    ∀ batch ∈ t.batches, batch.Stems backend origin := by
  obtain ⟨batch, request, hb, -, rfl⟩ := step_dispatch hstep
  have hbatch := h batch (List.mem_of_getElem? hb)
  unfold dispatch
  cases s.refusal backend config batch request with
  | some error => exact setBatch_stems h b ⟨hbatch.decoded, hbatch.sent⟩
  | none => exact setBatch_stems h b ⟨hbatch.decoded, hbatch.sent⟩

/-- **`processMessage`** up to where it waits. -/
theorem Dispatcher.begin_stems (config : DispatcherConfig Request)
    (h : ∀ batch ∈ s.batches, batch.Stems backend origin) {connection : ℕ} {message : MessageType}
    (horigin : origin connection message) (session : Session) (rejectOnly : Bool) :
    ∀ batch ∈ (s.begin backend config connection session message rejectOnly).batches,
      batch.Stems backend origin := by
  have hall : ∀ n b (s : Dispatcher Id Request Response),
      (∀ batch ∈ s.batches, batch.Stems backend origin) →
        ∀ batch ∈ (Dispatcher.dispatchAll backend config b n s).batches,
          batch.Stems backend origin := by
    intro n b
    induction n with
    | zero => exact fun s hs => hs
    | succ n ih =>
      intro s hs
      unfold dispatchAll
      cases hstep : s.step backend config (.dispatch b : DispatcherAction Id Session Value) with
      | none => exact hs
      | some t => exact ih t (dispatch_stems hs hstep)
  exact hall _ _ _ (processMessage_stems h horigin session rejectOnly true)

/-- A task ends. -/
theorem Dispatcher.finish_stems (h : ∀ batch ∈ s.batches, batch.Stems backend origin) {b i : ℕ}
    {taskEnd : TaskEnd Value} (hstep : s.step backend config (.finish b i taskEnd) = some t) :
    ∀ batch ∈ t.batches, batch.Stems backend origin := by
  obtain ⟨batch, request, htask, rfl⟩ := step_finish hstep
  have hbatch := h batch (List.mem_of_getElem? (task_eq_some.mp htask).1)
  exact setBatch_stems h b ⟨hbatch.decoded, hbatch.sent⟩

/-- **The end of a batch** sends its responses. -/
theorem Dispatcher.complete_stems (h : ∀ batch ∈ s.batches, batch.Stems backend origin) {b : ℕ}
    {session : Session} {sent : Bool}
    (hstep : s.step backend config (.complete b session sent) = some t) :
    ∀ batch ∈ t.batches, batch.Stems backend origin := by
  obtain ⟨batch, hb, -, -, rfl⟩ := step_complete hstep
  have hbatch := h batch (List.mem_of_getElem? hb)
  refine setBatch_stems h b ⟨hbatch.decoded, fun delivery message hdelivery hsent => ?_⟩
  obtain rfl := Option.some.inj hdelivery
  refine ⟨session, ?_⟩
  rw [deliver_responses]
  exact deliver_sent hsent

end

/-! ## The server -/

/-- What a connection sent stays sent. -/
def EndpointSlot.Sends (slot slot' : EndpointSlot Session) : Prop :=
  ∀ message ∈ slot.sent, message ∈ slot'.sent

instance : @Std.Refl (EndpointSlot Session) EndpointSlot.Sends := ⟨fun _ _ h => h⟩

/-- All batches stem from messages of their connections, and so will those that wait for a task. -/
structure RpcServer.Stems (backend : ConnectionBackend Id Session Request Response Value)
    (origin : ℕ → MessageType → Prop) (s : RpcServer Id Session Request Response) : Prop where
  batches : ∀ batch ∈ s.dispatcher.batches, batch.Stems backend.toServerBackend origin
  waiting : ∀ (c : ℕ) (slot : EndpointSlot Session) message, s.slots[c]? = some slot →
    .waiting message ∈ slot.requests → origin c message

namespace RpcServer

open AppendOnly

variable {backend : ConnectionBackend Id Session Request Response Value}
  {config : DispatcherConfig Request} {origin origin' : ℕ → MessageType → Prop}
  {s t : RpcServer Id Session Request Response} {c : ℕ} {slot slot' : EndpointSlot Session}

theorem Stems.mono (h : s.Stems backend origin)
    (horigin : ∀ c message, origin c message → origin' c message) : s.Stems backend origin' where
  batches batch hbatch := (h.batches batch hbatch).mono horigin
  waiting c slot message hslot hmem := horigin c message (h.waiting c slot message hslot hmem)

/-- **A connection changes**, with the dispatcher. -/
theorem Stems.update (h : s.Stems backend origin) (hslot : s.slots[c]? = some slot)
    {dispatcher : Dispatcher Id Request Response} (endpoints : List ℕ)
    (hbatches : ∀ batch ∈ dispatcher.batches, batch.Stems backend.toServerBackend origin)
    (hwaiting : ∀ message, .waiting message ∈ slot'.requests →
      .waiting message ∈ slot.requests ∨ origin c message) (hsends : slot.Sends slot') :
    Stems backend origin { s with
      dispatcher := dispatcher
      slots := s.slots.set c slot'
      endpoints := endpoints } ∧ Extends EndpointSlot.Sends s.slots (s.slots.set c slot') := by
  refine ⟨⟨hbatches, fun e x message hx hmem => ?_⟩, fun e x hx => ?_⟩
  · rw [getElem?_set hslot] at hx
    split_ifs at hx with hec
    · obtain rfl := Option.some.inj hx
      rw [hec]
      rcases hwaiting message hmem with hold | hnew
      · exact h.waiting c slot message hslot hold
      · exact hnew
    · exact h.waiting e x message hx hmem
  · rw [getElem?_set hslot]
    by_cases hec : e = c
    · subst hec
      obtain rfl := Option.some.inj (hslot.symm.trans hx)
      exact ⟨slot', if_pos rfl, hsends⟩
    · rw [if_neg hec]
      exact ⟨x, hx, Std.Refl.refl x⟩

/-- A connection changes and the dispatcher does not. -/
theorem Stems.setSlot (h : s.Stems backend origin) (hslot : s.slots[c]? = some slot)
    (hwaiting : ∀ message, .waiting message ∈ slot'.requests →
      .waiting message ∈ slot.requests ∨ origin c message) (hsends : slot.Sends slot') :
    (s.setSlot c slot').Stems backend origin ∧
      Extends EndpointSlot.Sends s.slots (s.setSlot c slot').slots :=
  h.update hslot s.endpoints h.batches hwaiting hsends

/-- A connection is added. -/
theorem Stems.addEndpoint (h : s.Stems backend origin) :
    (s.addEndpoint backend).Stems backend origin ∧
      Extends EndpointSlot.Sends s.slots (s.addEndpoint backend).slots := by
  have hadd : ∀ (new : EndpointSlot Session) (endpoints : List ℕ), new.requests = [] →
      Stems backend origin { s with slots := s.slots ++ [new], endpoints := endpoints } := by
    intro new endpoints hnew
    refine ⟨h.batches, fun e x message hx hmem => ?_⟩
    rcases getElem?_concat_eq_some.mp hx with hold | ⟨-, rfl⟩
    · exact h.waiting e x message hold hmem
    · rw [hnew] at hmem
      cases hmem
  unfold RpcServer.addEndpoint
  dsimp only
  split_ifs
  · exact ⟨hadd _ _ rfl, Extends.append _ _⟩
  · exact ⟨hadd _ _ rfl, Extends.append _ _⟩

variable [DecidableEq Id]

/-- **A turn of a loop.** -/
theorem Stems.receive (config : DispatcherConfig Request) (h : s.Stems backend origin)
    (hslot : s.slots[c]? = some slot) (message : Option MessageType) (sent : Bool)
    (horigin : ∀ data, message = some data → backend.dispatches slot.session data = true →
      origin c data) :
    (s.receive backend config c slot message sent).Stems backend origin ∧
      Extends EndpointSlot.Sends s.slots (s.receive backend config c slot message sent).slots := by
  have hkeep : ∀ slot' : EndpointSlot Session, slot'.requests = slot.requests →
      slot'.sent = slot.sent → (s.setSlot c slot').Stems backend origin ∧
        Extends EndpointSlot.Sends s.slots (s.setSlot c slot').slots := by
    intro slot' hrequests hsent
    exact h.setSlot hslot (fun message hmem => Or.inl (hrequests ▸ hmem))
      fun message hmem => hsent ▸ hmem
  unfold RpcServer.receive
  cases message with
  | none => exact hkeep _ rfl rfl
  | some message =>
    dsimp only
    by_cases hempty : message = []
    · rw [if_pos hempty]
      exact hkeep _ rfl rfl
    by_cases hvalid : (!backend.validateMessage message) = true
    · rw [if_neg hempty, if_pos hvalid]
      exact hkeep _ rfl rfl
    rw [if_neg hempty, if_neg hvalid]
    cases hcancel : backend.cancelId message with
    | some id => exact ⟨⟨h.batches, h.waiting⟩, Extends.refl _⟩
    | none =>
      dsimp only
      rcases hcontrol : backend.handleServerControl slot.session message with
        error | ⟨session, answer⟩
      · exact hkeep _ rfl rfl
      cases answer with
      | some answer => exact hkeep _ rfl rfl
      | none =>
        have hdispatches : backend.dispatches slot.session message = true := by
          unfold ConnectionBackend.dispatches
          rw [hcancel, hcontrol]
        have hmessage := horigin message rfl hdispatches
        dsimp only
        unfold accept
        dsimp only
        by_cases hfull : backend.maxInflightRequests ≤ slot.requests.length
        · rw [if_pos hfull]
          exact h.update hslot s.endpoints
            (Dispatcher.begin_stems config h.batches hmessage slot.session true)
            (fun m hmem => Or.inl hmem) fun m hmem => hmem
        · rw [if_neg hfull]
          refine h.setSlot hslot (fun m hmem => ?_) fun m hmem => hmem
          rcases List.mem_append.mp hmem with hold | hnew
          · exact Or.inl hold
          · cases List.mem_singleton.mp hnew
            exact Or.inr hmessage

/-- **Every step keeps the origins**, if what it dispatches has one, and what was sent. -/
theorem stems_step (h : s.Stems backend origin) {action : ServerAction Id Value}
    (horigin : ∀ c data sent slot, action = .receive c (some data) sent →
      s.slots[c]? = some slot → backend.dispatches slot.session data = true → origin c data)
    (hstep : s.step backend config action = some t) :
    t.Stems backend origin ∧ Extends EndpointSlot.Sends s.slots t.slots := by
  unfold RpcServer.step at hstep
  cases action with
  | addEndpoint =>
    cases hstep
    exact h.addEndpoint
  | receive c message sent =>
    dsimp only at hstep
    split at hstep
    · cases hstep
    rename_i slot hslot
    split_ifs at hstep
    cases hstep
    refine h.receive config hslot message sent fun data hdata hdispatches => ?_
    exact horigin c data sent slot (by rw [hdata]) hslot hdispatches
  | begin c message =>
    dsimp only at hstep
    split at hstep
    · cases hstep
    rename_i slot hslot
    split_ifs at hstep with hmem
    cases hstep
    have hmessage := h.waiting c slot message hslot hmem.2
    refine h.update hslot s.endpoints
      (Dispatcher.begin_stems config h.batches hmessage slot.session false) (fun m hm => ?_)
      fun m hm => hm
    dsimp only at hm
    split_ifs at hm
    · exact Or.inl (List.mem_of_mem_erase hm)
    · rcases List.mem_append.mp hm with hold | hnew
      · exact Or.inl (List.mem_of_mem_erase hold)
      · cases List.mem_singleton.mp hnew
  | finish b i taskEnd =>
    obtain ⟨dispatcher, hdispatcher, rfl⟩ := Option.map_eq_some_iff.mp hstep
    exact ⟨⟨Dispatcher.finish_stems h.batches hdispatcher, h.waiting⟩, Extends.refl _⟩
  | complete c b sent =>
    dsimp only at hstep
    split at hstep
    · cases hstep
    rename_i slot hslot
    split_ifs at hstep
    obtain ⟨dispatcher, hdispatcher, rfl⟩ := Option.map_eq_some_iff.mp hstep
    exact h.update hslot s.endpoints (Dispatcher.complete_stems h.batches hdispatcher)
      (fun m hm => Or.inl (List.mem_of_mem_erase hm)) fun m hm => List.mem_append_left _ hm
  | abandon c task =>
    dsimp only at hstep
    split at hstep
    · cases hstep
    rename_i slot hslot
    split_ifs at hstep
    cases hstep
    exact h.setSlot hslot (fun m hm => Or.inl (List.mem_of_mem_erase hm)) fun m hm => hm
  | beginClose =>
    cases hstep
    exact ⟨⟨h.batches, h.waiting⟩, Extends.refl _⟩
  | stop c =>
    dsimp only at hstep
    split at hstep
    · cases hstep
    rename_i slot hslot
    split_ifs at hstep
    cases hstep
    exact h.setSlot hslot (fun m hm => Or.inl hm) fun m hm => hm
  | cleanup c =>
    dsimp only at hstep
    split at hstep
    · cases hstep
    rename_i slot hslot
    split_ifs at hstep
    cases hstep
    exact h.update hslot _ h.batches (fun m hm => Or.inl hm) fun m hm => hm
  | cancel id =>
    cases hstep
    exact ⟨⟨h.batches, h.waiting⟩, Extends.refl _⟩
  | cancelAll =>
    cases hstep
    exact ⟨⟨h.batches, h.waiting⟩, Extends.refl _⟩

end RpcServer

end NekoProto.Rpc
