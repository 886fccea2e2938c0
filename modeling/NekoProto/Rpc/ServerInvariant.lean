import NekoProto.Rpc.Server

/-!
# The invariant of a server

1. What `processMessage` changes of a dispatcher up to where it waits (`begin_spec`). A server's
   dispatcher only does what a dispatcher does (`reaches_dispatcher`).
2. The invariant of one connection, and of the whole server (`RpcServer.Inv`).
3. A connection may change with the dispatcher, as long as the batches and the handles of others
   stay as they were (`Inv.update`); and what the steps do to the connection itself.
-/

namespace NekoProto.Rpc

variable {Id Session Request Response Value : Type} [DecidableEq Id]

/-! ## The dispatcher -/

section

variable {backend : ServerBackend Id Session Request Response Value}
  {config : DispatcherConfig Request} {s t : Dispatcher Id Request Response}

/-- The batch of a message up to where `processMessage` waits: the others are left alone, and a
handle that is new is one of its connection. -/
structure Dispatcher.Extends (s t : Dispatcher Id Request Response) (b : ℕ)
    (batch : Batch Id Request Response) : Prop where
  batch_eq : ∃ batch', t.batches[b]? = some batch' ∧ batch'.session = batch.session ∧
    batch'.delivery = batch.delivery
  others : ∀ c, c ≠ b → t.batches[c]? = s.batches[c]?
  handles : ∀ handle ∈ t.cancelHandles, handle ∈ s.cancelHandles ∨
    handle.1.session = batch.session

/-- One turn of the loop over the requests. -/
theorem Dispatcher.extends_dispatch {b : ℕ} {batch : Batch Id Request Response}
    (hb : s.batches[b]? = some batch)
    (hstep : s.step backend config (.dispatch b : DispatcherAction Id Session Value) = some t) :
    s.Extends t b batch := by
  obtain ⟨batch', request, hb', -, rfl⟩ := step_dispatch hstep
  obtain rfl := Option.some.inj (hb.symm.trans hb')
  unfold dispatch
  cases s.refusal backend config batch request with
  | some error =>
    refine ⟨⟨batch.push (.filled (backend.appendError request error)) none, ?_, rfl, rfl⟩,
      fun c hc => ?_, fun handle hhandle => Or.inl hhandle⟩
    · rw [getElem?_setBatch hb, if_pos rfl]
    · rw [getElem?_setBatch hb, if_neg hc]
  | none =>
    refine ⟨⟨batch.push .running (activeKey backend batch.session request), ?_, rfl, rfl⟩,
      fun c hc => ?_, fun handle hhandle => ?_⟩
    · show (s.setBatch b _).batches[b]? = _
      rw [getElem?_setBatch hb, if_pos rfl]
    · show (s.setBatch b _).batches[c]? = _
      rw [getElem?_setBatch hb, if_neg hc]
    · unfold spawn activeKey at hhandle
      dsimp only at hhandle
      split_ifs at hhandle
      · rcases List.mem_cons.mp hhandle with rfl | hold
        · exact Or.inr rfl
        · exact Or.inl (List.mem_of_mem_filter hold)
      · exact Or.inl hhandle

/-- **The loop over the requests.** -/
theorem Dispatcher.extends_dispatchAll (backend : ServerBackend Id Session Request Response Value)
    (config : DispatcherConfig Request) {b : ℕ} (n : ℕ) : ∀ {s : Dispatcher Id Request Response}
    {batch : Batch Id Request Response}, s.batches[b]? = some batch →
      s.Extends (Dispatcher.dispatchAll backend config b n s) b batch := by
  induction n with
  | zero => exact fun hb => ⟨⟨_, hb, rfl, rfl⟩, fun _ _ => rfl, fun _ hhandle => Or.inl hhandle⟩
  | succ n ih =>
    intro s batch hb
    unfold dispatchAll
    cases hstep : s.step backend config (.dispatch b : DispatcherAction Id Session Value) with
    | none => exact ⟨⟨_, hb, rfl, rfl⟩, fun _ _ => rfl, fun _ hhandle => Or.inl hhandle⟩
    | some t =>
      obtain ⟨⟨batch', hb', hsession, hdelivery⟩, hothers, hhandles⟩ := extends_dispatch hb hstep
      obtain ⟨⟨batch'', hb'', hsession', hdelivery'⟩, hothers', hhandles'⟩ := ih hb'
      refine ⟨⟨batch'', hb'', hsession'.trans hsession, hdelivery'.trans hdelivery⟩,
        fun c hc => (hothers' c hc).trans (hothers c hc), fun handle hhandle => ?_⟩
      rcases hhandles' handle hhandle with hold | hnew
      · exact hhandles handle hold
      · exact Or.inr (hnew.trans hsession)

/-- **A message** gets the next batch, which is through if the message is dropped. -/
theorem Dispatcher.begin_spec (backend : ServerBackend Id Session Request Response Value)
    (config : DispatcherConfig Request) (s : Dispatcher Id Request Response) (connection : ℕ)
    (session : Session) (message : MessageType) (rejectOnly : Bool)
    (ht : t = s.begin backend config connection session message rejectOnly) :
    (∃ batch, t.batches[s.batches.length]? = some batch ∧ batch.session = connection ∧
      (batch.delivery = none ↔ (backend.decodeIncoming session message).isNone = false)) ∧
    (∀ c, c ≠ s.batches.length → t.batches[c]? = s.batches[c]?) ∧
    ∀ handle ∈ t.cancelHandles, handle ∈ s.cancelHandles ∨ handle.1.session = connection := by
  obtain ⟨batch, hbatch, hsession, hdelivery⟩ : ∃ batch,
      (s.processMessage backend connection session message rejectOnly true).batches[
        s.batches.length]? = some batch ∧ batch.session = connection ∧
      (batch.delivery = none ↔ (backend.decodeIncoming session message).isNone = false) := by
    unfold processMessage
    cases backend.decodeIncoming session message with
    | none => exact ⟨_, List.getElem?_concat_length, rfl, by simp⟩
    | some decoded => exact ⟨_, List.getElem?_concat_length, rfl, by simp⟩
  obtain ⟨⟨batch', hb, hsession', hdelivery'⟩, hothers, hhandles⟩ :=
    extends_dispatchAll backend config
      ((backend.decodeIncoming session message).elim 0 fun d => d.requests.length) hbatch
  rw [ht]
  refine ⟨⟨batch', hb, hsession'.trans hsession, by rw [hdelivery']; exact hdelivery⟩,
    fun c hc => (hothers c hc).trans ?_, fun handle hhandle => ?_⟩
  · show (s.batches ++ [_])[c]? = _
    rcases Nat.lt_or_gt_of_ne hc with hlt | hgt
    · exact List.getElem?_append_left hlt
    · rw [List.getElem?_eq_none (by simpa using Nat.succ_le_of_lt hgt),
        List.getElem?_eq_none hgt.le]
  · rcases hhandles handle hhandle with hold | hnew
    · exact Or.inl hold
    · exact Or.inr (hnew.trans hsession)

end

/-- A batch that is through. -/
theorem Dispatcher.getElem?_complete (backend : ServerBackend Id Session Request Response Value)
    (config : DispatcherConfig Request) {s : Dispatcher Id Request Response} {b : ℕ}
    {batch : Batch Id Request Response} (session : Session) (sent : Bool)
    (hb : s.batches[b]? = some batch) :
    (s.complete backend config b batch session sent).batches[b]? = some { batch with
      delivery := some (deliver backend session batch.endpoint batch.decoded.batch sent
        (batch.decoded.responses ++ (List.zipWith (completeSlot backend config)
          batch.decoded.requests batch.slots).flatten)) } := by
  show (s.setBatch b _).batches[b]? = _
  rw [getElem?_setBatch hb, if_pos rfl]

/-! ## A server's dispatcher -/

section

variable {backend : ConnectionBackend Id Session Request Response Value}
  {config : DispatcherConfig Request}

/-- `processMessage` up to where it waits is a run of the dispatcher. -/
theorem reaches_begin {backend : ServerBackend Id Session Request Response Value}
    {s : Dispatcher Id Request Response} (h : Reaches backend config (fun _ _ => True) s)
    (connection : ℕ) (session : Session) (message : MessageType) (rejectOnly : Bool) :
    Reaches backend config (fun _ _ => True)
      (s.begin backend config connection session message rejectOnly) := by
  have hall : ∀ n b (s : Dispatcher Id Request Response),
      Reaches backend config (fun _ _ => True) s →
        Reaches backend config (fun _ _ => True)
          (Dispatcher.dispatchAll backend config b n s) := by
    intro n b
    induction n with
    | zero => exact fun s hs => hs
    | succ n ih =>
      intro s hs
      unfold Dispatcher.dispatchAll
      cases hstep : s.step backend config (.dispatch b : DispatcherAction Id Session Value) with
      | none => exact hs
      | some t => exact ih t (.step hs trivial hstep)
  have hstep : s.step backend config (.processMessage connection session message rejectOnly true) =
    some (s.processMessage backend connection session message rejectOnly true) := rfl
  exact hall _ _ _ (.step h trivial hstep)

/-- What a turn of a connection's loop does: it changes the connection, cancels a request, or
begins a batch. -/
theorem receive_dispatcher (backend : ConnectionBackend Id Session Request Response Value)
    (config : DispatcherConfig Request) (s : RpcServer Id Session Request Response) (c : ℕ)
    (slot : EndpointSlot Session) (message : Option MessageType) (sent : Bool) :
    (s.receive backend config c slot message sent).dispatcher = s.dispatcher ∨
      (∃ id, (s.receive backend config c slot message sent).dispatcher = s.dispatcher.cancel c id) ∨
      ∃ data, (s.receive backend config c slot message sent).dispatcher =
        s.dispatcher.begin backend.toServerBackend config c slot.session data true := by
  unfold RpcServer.receive
  cases message with
  | none => exact Or.inl rfl
  | some message =>
    dsimp only
    by_cases hempty : message = []
    · rw [if_pos hempty]
      exact Or.inl rfl
    by_cases hvalid : (!backend.validateMessage message) = true
    · rw [if_neg hempty, if_pos hvalid]
      exact Or.inl rfl
    rw [if_neg hempty, if_neg hvalid]
    cases backend.cancelId message with
    | some id => exact Or.inr (Or.inl ⟨id, rfl⟩)
    | none =>
      dsimp only
      rcases backend.handleServerControl slot.session message with error | ⟨session, answer⟩
      · exact Or.inl rfl
      cases answer with
      | some answer => exact Or.inl rfl
      | none =>
        dsimp only
        unfold RpcServer.accept
        by_cases hfull : backend.maxInflightRequests ≤ slot.requests.length
        · dsimp only
          rw [if_pos hfull]
          exact Or.inr (Or.inr ⟨message, rfl⟩)
        · dsimp only
          rw [if_neg hfull]
          exact Or.inl rfl

/-- **The dispatcher of a server** is in a state that a dispatcher gets to. -/
theorem reaches_dispatcher {s : RpcServer Id Session Request Response}
    (h : s.Reachable backend config) :
    Reaches backend.toServerBackend config (fun _ _ => True) s.dispatcher := by
  induction h with
  | start => exact .start
  | @step s t action _ hstep ih =>
    unfold RpcServer.step at hstep
    cases action with
    | addEndpoint =>
      cases hstep
      unfold RpcServer.addEndpoint
      split_ifs <;> exact ih
    | receive c message sent =>
      dsimp only at hstep
      split at hstep
      · cases hstep
      split_ifs at hstep
      cases hstep
      rename_i slot _ _
      rcases receive_dispatcher backend config s c slot message sent with
        heq | ⟨id, heq⟩ | ⟨data, heq⟩
      · rw [heq]
        exact ih
      · rw [heq]
        have hcancel : s.dispatcher.step backend.toServerBackend config (.cancel c id) =
          some (s.dispatcher.cancel c id) := rfl
        exact .step ih trivial hcancel
      · rw [heq]
        exact reaches_begin ih _ _ _ _
    | begin c message =>
      dsimp only at hstep
      split at hstep
      · cases hstep
      split_ifs at hstep
      cases hstep
      exact reaches_begin ih _ _ _ _
    | finish b i taskEnd =>
      obtain ⟨dispatcher, hdispatcher, rfl⟩ := Option.map_eq_some_iff.mp hstep
      exact .step ih trivial hdispatcher
    | complete c b sent =>
      dsimp only at hstep
      split at hstep
      · cases hstep
      split_ifs at hstep
      obtain ⟨dispatcher, hdispatcher, rfl⟩ := Option.map_eq_some_iff.mp hstep
      exact .step ih trivial hdispatcher
    | abandon c task =>
      dsimp only at hstep
      split at hstep
      · cases hstep
      split_ifs at hstep
      cases hstep
      exact ih
    | beginClose =>
      cases hstep
      exact ih
    | stop c =>
      dsimp only at hstep
      split at hstep
      · cases hstep
      split_ifs at hstep
      cases hstep
      exact ih
    | cleanup c =>
      dsimp only at hstep
      split at hstep
      · cases hstep
      split_ifs at hstep
      cases hstep
      have hcancel : s.dispatcher.step backend.toServerBackend config (.cancelSession c) =
        some (s.dispatcher.cancelSession c) := rfl
      exact .step ih trivial hcancel
    | cancel id =>
      cases hstep
      have hcancel : s.dispatcher.step backend.toServerBackend config (.cancelId id) =
        some (s.dispatcher.cancelId id) := rfl
      exact .step ih trivial hcancel
    | cancelAll =>
      cases hstep
      have hcancel : s.dispatcher.step backend.toServerBackend config .cancelAll =
        some s.dispatcher.cancelAll := rfl
      exact .step ih trivial hcancel

end

/-! ## The invariant -/

/-- The messages in the hands of a loop. -/
def LoopPhase.held : LoopPhase → ℕ
  | .rejecting _ => 1
  | _ => 0

/-- **One connection**: no more tasks than its limit, an answer at most for each message that went
to the dispatcher, and each batch in one place. -/
structure EndpointSlot.Inv (limit : ℕ) (slot : EndpointSlot Session) : Prop where
  requests_le : slot.requests.length ≤ limit
  answered : slot.sent.length + slot.requests.length + slot.phase.held ≤ slot.accepted
  ended : slot.cleaned = true → slot.phase = .ended
  once : ∀ b, slot.requests.count (.processing b) ≤ 1
  apart : ∀ b, slot.phase = .rejecting b → .processing b ∉ slot.requests

/-- A message is the answer to a batch of a connection. -/
def Dispatcher.Sent (dispatcher : Dispatcher Id Request Response) (c : ℕ)
    (message : MessageType) : Prop :=
  ∃ (b : ℕ) (batch : Batch Id Request Response) (delivery : Delivery Response),
    dispatcher.batches[b]? = some batch ∧ batch.session = c ∧ batch.delivery = some delivery ∧
      delivery.sent = some message

/-- **A server**: a batch that a connection processes is its own and not through, and the batches
of a connection whose loop runs are all processed by it; what a connection was sent is the answer
to a batch of its own; a handle is one of a connection that was not cleaned up; and so is what is
in the list of connections, which is empty after a close. -/
structure RpcServer.Inv (limit : ℕ) (s : RpcServer Id Session Request Response) : Prop where
  slots : ∀ (c : ℕ) (slot : EndpointSlot Session), s.slots[c]? = some slot → slot.Inv limit
  owned : ∀ (c : ℕ) (slot : EndpointSlot Session) (b : ℕ), s.slots[c]? = some slot →
    slot.Processes b → ∃ batch : Batch Id Request Response,
      s.dispatcher.batches[b]? = some batch ∧ batch.session = c ∧ batch.delivery = none
  live : ∀ (b : ℕ) (batch : Batch Id Request Response), s.dispatcher.batches[b]? = some batch →
    batch.delivery = none → ∃ slot, s.slots[batch.session]? = some slot ∧
      (slot.phase ≠ .ended → slot.Processes b)
  sent : ∀ (c : ℕ) (slot : EndpointSlot Session), s.slots[c]? = some slot →
    ∀ message ∈ slot.sent, s.dispatcher.Sent c message
  handles : ∀ handle ∈ s.dispatcher.cancelHandles,
    ∃ slot, s.slots[handle.1.session]? = some slot ∧ slot.cleaned = false
  registered : ∀ c ∈ s.endpoints, ∃ slot, s.slots[c]? = some slot ∧ slot.cleaned = false
  closing : s.closing = true → s.endpoints = []

namespace RpcServer

variable {limit : ℕ} {s : RpcServer Id Session Request Response} {c : ℕ}
  {slot slot' : EndpointSlot Session}

omit [DecidableEq Id] in
theorem getElem?_set {slots : List (EndpointSlot Session)} (hslot : slots[c]? = some slot)
    (slot' : EndpointSlot Session) (e : ℕ) :
    (slots.set c slot')[e]? = if e = c then some slot' else slots[e]? := by
  have hlt : c < slots.length := (List.getElem?_eq_some_iff.mp hslot).1
  rw [List.getElem?_set]
  by_cases h : e = c
  · rw [if_pos h.symm, if_pos hlt, if_pos h]
  · rw [if_neg (Ne.symm h), if_neg h]

omit [DecidableEq Id] in
/-- **One connection changes**, with the dispatcher and the list of connections: the batches and
the handles of others stay as they were. -/
theorem Inv.update (h : s.Inv limit) (hslot : s.slots[c]? = some slot)
    {dispatcher : Dispatcher Id Request Response} {endpoints : List ℕ} (hinv : slot'.Inv limit)
    (howned : ∀ b, slot'.Processes b → ∃ batch, dispatcher.batches[b]? = some batch ∧
      batch.session = c ∧ batch.delivery = none)
    (hkept : ∀ (b : ℕ) (batch : Batch Id Request Response),
      s.dispatcher.batches[b]? = some batch → ∃ batch', dispatcher.batches[b]? = some batch' ∧
        batch'.session = batch.session ∧
          (batch'.delivery = batch.delivery ∨ batch.session = c ∧ batch.delivery = none))
    (hsent : ∀ message ∈ slot'.sent, message ∈ slot.sent ∨ dispatcher.Sent c message)
    (hlive : ∀ (b : ℕ) (batch : Batch Id Request Response),
      dispatcher.batches[b]? = some batch → batch.delivery = none →
        (batch.session ≠ c ∧ ∃ batch', s.dispatcher.batches[b]? = some batch' ∧
          batch'.session = batch.session ∧ batch'.delivery = none) ∨
        (batch.session = c ∧ (slot'.phase ≠ .ended → slot'.Processes b)))
    (hhandles : ∀ handle ∈ dispatcher.cancelHandles,
      (handle.1.session ≠ c → handle ∈ s.dispatcher.cancelHandles) ∧
        (handle.1.session = c → slot'.cleaned = false))
    (hendpoints : ∀ e ∈ endpoints, e ∈ s.endpoints ∧ (e = c → slot'.cleaned = false)) :
    RpcServer.Inv limit { s with
      dispatcher := dispatcher
      slots := s.slots.set c slot'
      endpoints := endpoints } := by
  have hsentKept : ∀ e message, s.dispatcher.Sent e message → dispatcher.Sent e message := by
    rintro e message ⟨b, batch, delivery, hb, hsession, hdelivery, hmessage⟩
    obtain ⟨batch', hb', hsession', hcases⟩ := hkept b batch hb
    refine ⟨b, batch', delivery, hb', hsession'.trans hsession, ?_, hmessage⟩
    rcases hcases with heq | ⟨-, hnone⟩
    · exact heq.trans hdelivery
    · rw [hdelivery] at hnone
      cases hnone
  refine ⟨fun e x hx => ?_, fun e x b hx hb => ?_, fun b batch hb hnone => ?_,
    fun e x hx message hmessage => ?_, fun handle hhandle => ?_, fun e he => ?_,
    fun hclosing => ?_⟩
  · rw [getElem?_set hslot] at hx
    split_ifs at hx with hec
    · exact Option.some.inj hx ▸ hinv
    · exact h.slots e x hx
  · rw [getElem?_set hslot] at hx
    split_ifs at hx with hec
    · obtain rfl := Option.some.inj hx
      rw [hec]
      exact howned b hb
    · obtain ⟨batch, hbatch, hsession, hnone⟩ := h.owned e x b hx hb
      obtain ⟨batch', hbatch', hsession', hcases⟩ := hkept b batch hbatch
      refine ⟨batch', hbatch', hsession'.trans hsession, ?_⟩
      rcases hcases with heq | ⟨hown, -⟩
      · exact heq.trans hnone
      · exact absurd (hsession.symm.trans hown) hec
  · rcases hlive b batch hb hnone with ⟨hne, batch', hbatch', hsession, hnone'⟩ | ⟨heq, hprocesses⟩
    · obtain ⟨x, hx, hprocesses⟩ := h.live b batch' hbatch' hnone'
      rw [hsession] at hx
      exact ⟨x, by rw [getElem?_set hslot, if_neg hne, hx], hprocesses⟩
    · exact ⟨slot', by rw [getElem?_set hslot, if_pos heq], hprocesses⟩
  · rw [getElem?_set hslot] at hx
    split_ifs at hx with hec
    · obtain rfl := Option.some.inj hx
      rw [hec]
      rcases hsent message hmessage with hold | hnew
      · exact hsentKept c message (h.sent c slot hslot message hold)
      · exact hnew
    · exact hsentKept e message (h.sent e x hx message hmessage)
  · obtain ⟨hother, hown⟩ := hhandles handle hhandle
    rw [getElem?_set hslot]
    by_cases hc : handle.1.session = c
    · rw [if_pos hc]
      exact ⟨slot', rfl, hown hc⟩
    · rw [if_neg hc]
      exact h.handles handle (hother hc)
  · obtain ⟨hold, hown⟩ := hendpoints e he
    rw [getElem?_set hslot]
    by_cases hc : e = c
    · rw [if_pos hc]
      exact ⟨slot', rfl, hown hc⟩
    · rw [if_neg hc]
      exact h.registered e hold
  · refine List.eq_nil_iff_forall_not_mem.mpr fun e he => ?_
    have hold := (hendpoints e he).1
    rw [h.closing hclosing] at hold
    exact List.not_mem_nil hold

omit [DecidableEq Id] in
/-- **A connection changes** and the dispatcher does not. -/
theorem Inv.setSlot (h : s.Inv limit) (hslot : s.slots[c]? = some slot) (hinv : slot'.Inv limit)
    (hprocesses : ∀ b, slot'.Processes b → slot.Processes b)
    (hlive : slot'.phase ≠ .ended → slot.phase ≠ .ended ∧ ∀ b, slot.Processes b → slot'.Processes b)
    (hcleaned : slot'.cleaned = slot.cleaned) (hsent : slot'.sent = slot.sent) :
    (s.setSlot c slot').Inv limit := by
  have hlost : ∀ e x, s.slots[e]? = some x → x.cleaned = false → e = c → slot'.cleaned = false := by
    intro e x hx hfalse hec
    rw [hec, hslot] at hx
    obtain rfl := Option.some.inj hx
    exact hcleaned.trans hfalse
  refine h.update hslot hinv (fun b hb => h.owned c slot b hslot (hprocesses b hb))
    (fun b batch hb => ⟨batch, hb, rfl, Or.inl rfl⟩)
    (fun message hmessage => Or.inl (hsent ▸ hmessage)) (fun b batch hb hnone => ?_)
    (fun handle hhandle => ⟨fun _ => hhandle, fun hc => ?_⟩) (fun e he => ⟨he, fun hc => ?_⟩)
  · by_cases hc : batch.session = c
    · refine Or.inr ⟨hc, fun hphase => ?_⟩
      obtain ⟨x, hx, hprocess⟩ := h.live b batch hb hnone
      rw [hc, hslot] at hx
      obtain rfl := Option.some.inj hx
      obtain ⟨hphase', hall⟩ := hlive hphase
      exact hall b (hprocess hphase')
    · exact Or.inl ⟨hc, batch, hb, rfl, hnone⟩
  · obtain ⟨x, hx, hfalse⟩ := h.handles handle hhandle
    exact hlost _ x hx hfalse hc
  · obtain ⟨x, hx, hfalse⟩ := h.registered e he
    exact hlost _ x hx hfalse hc

omit [DecidableEq Id] in
/-- **The dispatcher changes** and no connection does. -/
theorem Inv.setDispatcher (h : s.Inv limit) {dispatcher : Dispatcher Id Request Response}
    (hbatches : ∀ (b : ℕ) (batch : Batch Id Request Response),
      s.dispatcher.batches[b]? = some batch → ∃ batch', dispatcher.batches[b]? = some batch' ∧
        batch'.session = batch.session ∧ batch'.delivery = batch.delivery)
    (hbatches' : ∀ (b : ℕ) (batch : Batch Id Request Response),
      dispatcher.batches[b]? = some batch → ∃ batch', s.dispatcher.batches[b]? = some batch' ∧
        batch'.session = batch.session ∧ batch'.delivery = batch.delivery)
    (hhandles : ∀ handle ∈ dispatcher.cancelHandles, handle ∈ s.dispatcher.cancelHandles) :
    RpcServer.Inv limit { s with dispatcher := dispatcher } := by
  refine ⟨h.slots, fun e x b hx hb => ?_, fun b batch hb hnone => ?_,
    fun e x hx message hmessage => ?_,
    fun handle hhandle => h.handles handle (hhandles handle hhandle), h.registered, h.closing⟩
  · obtain ⟨batch, hbatch, hsession, hnone⟩ := h.owned e x b hx hb
    obtain ⟨batch', hbatch', hsession', hnone'⟩ := hbatches b batch hbatch
    exact ⟨batch', hbatch', hsession'.trans hsession, hnone'.trans hnone⟩
  · obtain ⟨batch', hbatch', hsession, hnone'⟩ := hbatches' b batch hb
    obtain ⟨x, hx, hprocess⟩ := h.live b batch' hbatch' (hnone'.trans hnone)
    exact ⟨x, hsession ▸ hx, hprocess⟩
  · obtain ⟨b, batch, delivery, hb, hsession, hdelivery, hmessage⟩ := h.sent e x hx message hmessage
    obtain ⟨batch', hb', hsession', hdelivery'⟩ := hbatches b batch hb
    exact ⟨b, batch', delivery, hb', hsession'.trans hsession, hdelivery'.trans hdelivery, hmessage⟩

omit [DecidableEq Id] in
/-- A batch that a connection processes is not the next one. -/
theorem Inv.processes_ne (h : s.Inv limit) (hslot : s.slots[c]? = some slot) {b : ℕ}
    (hb : slot.Processes b) : b ≠ s.dispatcher.batches.length := by
  obtain ⟨batch, hbatch, -, -⟩ := h.owned c slot b hslot hb
  exact (List.getElem?_eq_some_iff.mp hbatch).1.ne

/-- **A message goes to the dispatcher**, on a connection that was not cleaned up. -/
theorem Inv.begin {backend : ServerBackend Id Session Request Response Value}
    {config : DispatcherConfig Request} {message : MessageType} {rejectOnly : Bool}
    (h : s.Inv limit) (hslot : s.slots[c]? = some slot) (hcleaned : slot'.cleaned = false)
    (hinv : slot'.Inv limit)
    (hprocesses : ∀ b, slot'.Processes b → slot.Processes b ∨
      (b = s.dispatcher.batches.length ∧
        (backend.decodeIncoming slot.session message).isNone = false))
    (hnew : (backend.decodeIncoming slot.session message).isNone = false →
      slot'.Processes s.dispatcher.batches.length)
    (hlive : slot'.phase ≠ .ended →
      slot.phase ≠ .ended ∧ ∀ b, slot.Processes b → slot'.Processes b)
    (hsent : slot'.sent = slot.sent) :
    RpcServer.Inv limit { s.setSlot c slot' with
      dispatcher := s.dispatcher.begin backend config c slot.session message rejectOnly } := by
  obtain ⟨⟨batch, hbatch, hsession, hdelivery⟩, hothers, hhandles⟩ :=
    Dispatcher.begin_spec backend config s.dispatcher c slot.session message rejectOnly rfl
  refine h.update hslot hinv (fun b hb => ?_) (fun b x hx => ?_)
    (fun message hmessage => Or.inl (hsent ▸ hmessage)) (fun b x hx hnone => ?_)
    (fun handle hhandle => ⟨fun hc => ?_, fun _ => hcleaned⟩) (fun e he => ⟨he, fun _ => hcleaned⟩)
  · rcases hprocesses b hb with hold | ⟨rfl, hdecoded⟩
    · rw [hothers b (h.processes_ne hslot hold)]
      exact h.owned c slot b hslot hold
    · exact ⟨batch, hbatch, hsession, hdelivery.mpr hdecoded⟩
  · exact ⟨x, (hothers b (List.getElem?_eq_some_iff.mp hx).1.ne).trans hx, rfl, Or.inl rfl⟩
  · by_cases hb : b = s.dispatcher.batches.length
    · subst hb
      obtain rfl := Option.some.inj (hbatch.symm.trans hx)
      exact Or.inr ⟨hsession, fun _ => hnew (hdelivery.mp hnone)⟩
    · rw [hothers b hb] at hx
      by_cases hc : x.session = c
      · refine Or.inr ⟨hc, fun hphase => ?_⟩
        obtain ⟨y, hy, hprocess⟩ := h.live b x hx hnone
        rw [hc, hslot] at hy
        obtain rfl := Option.some.inj hy
        obtain ⟨hphase', hall⟩ := hlive hphase
        exact hall b (hprocess hphase')
      · exact Or.inl ⟨hc, x, hx, rfl, hnone⟩
  · rcases hhandles handle hhandle with hold | hown
    · exact hold
    · exact absurd hown hc

end RpcServer

/-! ## One connection -/

section

variable {limit : ℕ} {slot : EndpointSlot Session}

/-- A loop that receives, or that has ended, has no message in its hands. -/
theorem EndpointSlot.Inv.idle (h : slot.Inv limit) (session : Session) {phase : LoopPhase}
    (closed : Bool) (hphase : phase = .receiving ∨ phase = .ended)
    (hcleaned : slot.cleaned = true → phase = .ended) :
    EndpointSlot.Inv limit { slot with session := session, phase := phase, closed := closed } where
  requests_le := h.requests_le
  answered := by
    have hanswered := h.answered
    have hheld : phase.held = 0 := by rcases hphase with rfl | rfl <;> rfl
    show slot.sent.length + slot.requests.length + phase.held ≤ slot.accepted
    omega
  ended := hcleaned
  once := h.once
  apart b hb := by rcases hphase with rfl | rfl <;> cases hb

/-- A message gets a task. -/
theorem EndpointSlot.Inv.wait (h : slot.Inv limit) (message : MessageType)
    (hroom : slot.requests.length < limit) :
    EndpointSlot.Inv limit { slot with
      requests := slot.requests ++ [.waiting message]
      accepted := slot.accepted + 1 } where
  requests_le := by
    rw [List.length_append]
    exact hroom
  answered := by
    have hanswered := h.answered
    show slot.sent.length + (slot.requests ++ [_]).length + slot.phase.held ≤ slot.accepted + 1
    rw [List.length_append, List.length_singleton]
    omega
  ended := h.ended
  once b := by
    rw [List.count_append, List.count_singleton, if_neg (by simp)]
    exact h.once b
  apart b hb hmem := by
    rcases List.mem_append.mp hmem with hold | hnew
    · exact h.apart b hb hold
    · cases List.mem_singleton.mp hnew

/-- A message is rejected in the loop, which receives no other in the meantime. -/
theorem EndpointSlot.Inv.reject (h : slot.Inv limit) (hphase : slot.phase = .receiving) {b : ℕ}
    (hfresh : .processing b ∉ slot.requests) (dropped : Bool) :
    EndpointSlot.Inv limit { slot with
      phase := if dropped then .receiving else .rejecting b
      accepted := slot.accepted + 1 } where
  requests_le := h.requests_le
  answered := by
    have hanswered := h.answered
    have hheld : LoopPhase.held (if dropped then .receiving else .rejecting b) ≤ 1 := by
      cases dropped with
      | true => exact Nat.zero_le 1
      | false => exact le_rfl
    show slot.sent.length + slot.requests.length +
      LoopPhase.held (if dropped then .receiving else .rejecting b) ≤ slot.accepted + 1
    omega
  ended hcleaned := by
    have hended := h.ended hcleaned
    rw [hphase] at hended
    cases hended
  once := h.once
  apart b' hb' := by
    cases dropped with
    | true => cases hb'
    | false =>
      cases hb'
      exact hfresh

/-- A task begins. -/
theorem EndpointSlot.Inv.begin (h : slot.Inv limit) {message : MessageType} {b : ℕ}
    (hmem : .waiting message ∈ slot.requests) (hfresh : ¬slot.Processes b) (dropped : Bool) :
    EndpointSlot.Inv limit { slot with
      requests := if dropped then slot.requests.erase (.waiting message)
        else slot.requests.erase (.waiting message) ++ [.processing b] } := by
  have hlength := List.length_erase_of_mem hmem
  have hpos := List.length_pos_of_mem hmem
  have hle := h.requests_le
  have hanswered := h.answered
  have hcount : ∀ b', (slot.requests.erase (.waiting message)).count (.processing b') =
      slot.requests.count (.processing b') := fun b' => List.count_erase_of_ne (by simp)
  cases dropped with
  | true =>
    refine ⟨?_, ?_, h.ended, fun b' => ?_, fun b' hb' hmem' => ?_⟩
    · show (slot.requests.erase _).length ≤ limit
      omega
    · show slot.sent.length + (slot.requests.erase _).length + slot.phase.held ≤ slot.accepted
      omega
    · exact (hcount b').trans_le (h.once b')
    · exact h.apart b' hb' (List.mem_of_mem_erase hmem')
  | false =>
    refine ⟨?_, ?_, h.ended, fun b' => ?_, fun b' hb' hmem' => ?_⟩
    · show (slot.requests.erase _ ++ [_]).length ≤ limit
      rw [List.length_append, List.length_singleton]
      omega
    · show slot.sent.length + (slot.requests.erase _ ++ [_]).length + slot.phase.held ≤
        slot.accepted
      rw [List.length_append, List.length_singleton]
      omega
    · show (slot.requests.erase _ ++ [_]).count _ ≤ 1
      rw [List.count_append, hcount, List.count_singleton]
      have honce := h.once b'
      by_cases hb : b' = b
      · subst hb
        have hzero : slot.requests.count (.processing b') = 0 :=
          List.count_eq_zero.mpr fun hmem' => hfresh (Or.inl hmem')
        rw [hzero]
        split_ifs <;> omega
      · rw [if_neg (by simp [Ne.symm hb])]
        exact honce
    · rcases List.mem_append.mp hmem' with hold | hnew
      · exact h.apart b' hb' (List.mem_of_mem_erase hold)
      · cases List.mem_singleton.mp hnew
        exact hfresh (Or.inr hb')

/-- A batch is through. -/
theorem EndpointSlot.Inv.complete (h : slot.Inv limit) {b : ℕ} (hb : slot.Processes b)
    (closed : Bool) (sent : Option MessageType) :
    EndpointSlot.Inv limit { slot with
      phase := if slot.phase = .rejecting b then .receiving else slot.phase
      requests := slot.requests.erase (.processing b)
      closed := closed
      sent := slot.sent ++ sent.toList } := by
  have hanswered := h.answered
  have hsent : sent.toList.length ≤ 1 := by cases sent <;> simp
  refine ⟨List.length_erase_le.trans h.requests_le, ?_, fun hcleaned => ?_, fun b' => ?_,
    fun b' hb' hmem => ?_⟩
  · show (slot.sent ++ sent.toList).length + (slot.requests.erase (.processing b)).length +
      LoopPhase.held (if slot.phase = .rejecting b then .receiving else slot.phase) ≤ slot.accepted
    rw [List.length_append]
    rcases hb with hmem | hphase
    · have hlength := List.length_erase_of_mem hmem
      have hpos := List.length_pos_of_mem hmem
      have hne : slot.phase ≠ .rejecting b := fun hphase => h.apart b hphase hmem
      rw [if_neg hne]
      omega
    · have hle := List.length_erase_le (a := RequestTask.processing b) (l := slot.requests)
      rw [hphase] at hanswered
      rw [if_pos hphase]
      have hheld : LoopPhase.held .receiving = 0 := rfl
      have hheld' : LoopPhase.held (.rejecting b) = 1 := rfl
      omega
  · show (if slot.phase = .rejecting b then LoopPhase.receiving else slot.phase) = .ended
    have hended := h.ended hcleaned
    rw [hended, if_neg (by simp)]
  · exact (List.Sublist.count_le _ List.erase_sublist).trans (h.once b')
  · refine h.apart b' ?_ (List.mem_of_mem_erase hmem)
    have hb'' : (if slot.phase = .rejecting b then LoopPhase.receiving else slot.phase) =
        .rejecting b' := hb'
    split_ifs at hb''
    exact hb''

end

end NekoProto.Rpc
