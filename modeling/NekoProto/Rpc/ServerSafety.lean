import NekoProto.Rpc.ServerInvariant

/-!
# The server in every interleaving

What holds of a server in all states it gets to. `server_safe`: a connection has no more request
tasks than its limit, every message that went to the dispatcher is answered at most once and on
its own connection, a handle of the dispatcher belongs to a connection that was not cleaned up, and
a server that closes has no connections in its list. Every step keeps the invariant (`Inv.step`).
-/

namespace NekoProto.Rpc

variable {Id Session Request Response Value : Type} [DecidableEq Id]

/-! ## The steps -/

namespace RpcServer

variable {backend : ConnectionBackend Id Session Request Response Value}
  {config : DispatcherConfig Request} {s : RpcServer Id Session Request Response} {c : ℕ}
  {slot : EndpointSlot Session}

omit [DecidableEq Id] in
/-- A loop that receives was not cleaned up. -/
theorem Inv.not_cleaned (h : s.Inv backend.maxInflightRequests) (hslot : s.slots[c]? = some slot)
    (hphase : slot.phase ≠ .ended) : slot.cleaned = false :=
  Bool.eq_false_iff.mpr fun hcleaned => hphase ((h.slots c slot hslot).ended hcleaned)

omit [DecidableEq Id] in
/-- A loop goes on or ends. -/
theorem Inv.idle (h : s.Inv backend.maxInflightRequests) (hslot : s.slots[c]? = some slot)
    (hreceiving : slot.phase = .receiving) (session : Session) {phase : LoopPhase} (closed : Bool)
    (hphase : phase = .receiving ∨ phase = .ended) :
    (s.setSlot c { slot with session := session, phase := phase, closed := closed }).Inv
      backend.maxInflightRequests := by
  have hcleaned : slot.cleaned = false :=
    h.not_cleaned hslot (by rw [hreceiving]; exact LoopPhase.noConfusion)
  refine h.setSlot hslot ((h.slots c slot hslot).idle session closed hphase fun hc => ?_)
    (fun b hb => ?_) (fun _ => ⟨by rw [hreceiving]; exact LoopPhase.noConfusion, fun b hb => ?_⟩)
    rfl rfl
  · rw [hcleaned] at hc
    cases hc
  · rcases hb with hmem | hrejecting
    · exact Or.inl hmem
    · rcases hphase with rfl | rfl <;> cases hrejecting
  · rcases hb with hmem | hrejecting
    · exact Or.inl hmem
    · rw [hreceiving] at hrejecting
      cases hrejecting

/-- **A turn of a loop.** -/
theorem Inv.receive (h : s.Inv backend.maxInflightRequests) (hslot : s.slots[c]? = some slot)
    (hreceiving : slot.phase = .receiving) (message : Option MessageType) (sent : Bool) :
    (s.receive backend config c slot message sent).Inv backend.maxInflightRequests := by
  have hphase : slot.phase ≠ .ended := by rw [hreceiving]; exact LoopPhase.noConfusion
  have hcleaned := h.not_cleaned hslot hphase
  unfold RpcServer.receive
  cases message with
  | none => exact h.idle hslot hreceiving slot.session slot.closed (Or.inr rfl)
  | some message =>
    dsimp only
    by_cases hempty : message = []
    · rw [if_pos hempty]
      exact h.idle hslot hreceiving slot.session slot.closed (Or.inr rfl)
    by_cases hvalid : (!backend.validateMessage message) = true
    · rw [if_neg hempty, if_pos hvalid]
      exact h.idle hslot hreceiving slot.session true (Or.inr rfl)
    rw [if_neg hempty, if_neg hvalid]
    cases backend.cancelId message with
    | some id =>
      exact h.setDispatcher (fun b batch hb => ⟨batch, hb, rfl, rfl⟩)
        (fun b batch hb => ⟨batch, hb, rfl, rfl⟩) fun handle hhandle => hhandle
    | none =>
      dsimp only
      rcases backend.handleServerControl slot.session message with error | ⟨session, answer⟩
      · exact h.idle hslot hreceiving slot.session slot.closed (Or.inr rfl)
      cases answer with
      | some answer =>
        cases sent with
        | true => exact h.idle hslot hreceiving session slot.closed (Or.inl rfl)
        | false => exact h.idle hslot hreceiving session slot.closed (Or.inr rfl)
      | none =>
        dsimp only
        unfold accept
        dsimp only
        by_cases hfull : backend.maxInflightRequests ≤ slot.requests.length
        · -- the loop rejects the message before it receives the next one
          rw [if_pos hfull]
          have hfresh : RequestTask.processing s.dispatcher.batches.length ∉ slot.requests :=
            fun hmem => h.processes_ne hslot (Or.inl hmem) rfl
          refine h.begin hslot hcleaned ((h.slots c slot hslot).reject hreceiving hfresh
            (backend.decodeIncoming slot.session message).isNone) (fun b hb => ?_)
            (fun hdecoded => Or.inr ?_) (fun _ => ⟨hphase, fun b hb => ?_⟩) rfl
          · rcases hb with hmem | hrejecting
            · exact Or.inl (Or.inl hmem)
            · cases hdecoded : (backend.decodeIncoming slot.session message).isNone with
              | true =>
                rw [hdecoded] at hrejecting
                cases hrejecting
              | false =>
                rw [hdecoded] at hrejecting
                cases hrejecting
                exact Or.inr ⟨rfl, rfl⟩
          · dsimp only
            rw [hdecoded]
            rfl
          · rcases hb with hmem | hrejecting
            · exact Or.inl hmem
            · rw [hreceiving] at hrejecting
              cases hrejecting
        · rw [if_neg hfull]
          refine h.setSlot hslot ((h.slots c slot hslot).wait message (Nat.lt_of_not_le hfull))
            (fun b hb => ?_) (fun _ => ⟨hphase, fun b hb => ?_⟩) rfl rfl
          · rcases hb with hmem | hrejecting
            · rcases List.mem_append.mp hmem with hold | hnew
              · exact Or.inl hold
              · cases List.mem_singleton.mp hnew
            · exact Or.inr hrejecting
          · rcases hb with hmem | hrejecting
            · exact Or.inl (List.mem_append_left _ hmem)
            · exact Or.inr hrejecting

/-- **A task begins.** -/
theorem Inv.beginTask (h : s.Inv backend.maxInflightRequests) (hslot : s.slots[c]? = some slot)
    (hcleaned : slot.cleaned = false) {message : MessageType}
    (hmem : .waiting message ∈ slot.requests) :
    (s.begin backend config c slot message).Inv backend.maxInflightRequests := by
  have hfresh : ¬slot.Processes s.dispatcher.batches.length :=
    fun hb => h.processes_ne hslot hb rfl
  have hinv := (h.slots c slot hslot).begin hmem hfresh
    (backend.decodeIncoming slot.session message).isNone
  have hkept : ∀ b, .processing b ∈ slot.requests →
      .processing b ∈ slot.requests.erase (.waiting message) :=
    fun b hb => (List.mem_erase_of_ne (by simp)).mpr hb
  unfold RpcServer.begin
  dsimp only
  refine h.begin hslot hcleaned hinv (fun b hb => ?_) (fun hdecoded => Or.inl ?_)
    (fun hphase => ⟨hphase, fun b hb => ?_⟩) rfl
  · rcases hb with hnew | hrejecting
    · dsimp only at hnew
      split_ifs at hnew with hdecoded
      · exact Or.inl (Or.inl (List.mem_of_mem_erase hnew))
      · rcases List.mem_append.mp hnew with hold | hnew
        · exact Or.inl (Or.inl (List.mem_of_mem_erase hold))
        · cases List.mem_singleton.mp hnew
          exact Or.inr ⟨rfl, Bool.eq_false_iff.mpr hdecoded⟩
    · exact Or.inl (Or.inr hrejecting)
  · dsimp only
    rw [hdecoded, if_neg Bool.false_ne_true]
    exact List.mem_append_right _ (List.mem_singleton_self _)
  · rcases hb with hold | hrejecting
    · refine Or.inl ?_
      dsimp only
      split_ifs
      · exact hkept b hold
      · exact List.mem_append_left _ (hkept b hold)
    · exact Or.inr hrejecting

/-- **A batch is through**, on the connection that processes it. -/
theorem Inv.complete (h : s.Inv backend.maxInflightRequests) (hslot : s.slots[c]? = some slot)
    {b : ℕ} (hb : slot.Processes b) {sent : Bool} {dispatcher : Dispatcher Id Request Response}
    (hstep : s.dispatcher.step backend.toServerBackend config
      (.complete b slot.session sent) = some dispatcher) :
    (s.complete c slot b dispatcher).Inv backend.maxInflightRequests := by
  obtain ⟨batch, hbatch, -, hnone, rfl⟩ := Dispatcher.step_complete hstep
  have hslotInv := h.slots c slot hslot
  have hsession : batch.session = c := by
    obtain ⟨x, hx, hsession, -⟩ := h.owned c slot b hslot hb
    rw [hbatch] at hx
    cases hx
    exact hsession
  have hother : ∀ b', b' ≠ b →
      (s.dispatcher.complete backend.toServerBackend config b batch slot.session
        sent).batches[b']? = s.dispatcher.batches[b']? := by
    intro b' hne
    show (s.dispatcher.setBatch b _).batches[b']? = _
    rw [Dispatcher.getElem?_setBatch hbatch, if_neg hne]
  have hnew := Dispatcher.getElem?_complete backend.toServerBackend config slot.session sent hbatch
  have hgone : .processing b ∉ slot.requests.erase (.processing b) := by
    have honce := hslotInv.once b
    rw [← List.count_eq_zero, List.count_erase_self]
    omega
  unfold RpcServer.complete
  dsimp only
  refine h.update hslot (hslotInv.complete hb _ _) (fun b' hb' => ?_) (fun b' x hx => ?_)
    (fun message hmessage => ?_) (fun b' x hx hnone => ?_)
    (fun handle hhandle => ?_) (fun e he => ⟨he, fun hc => ?_⟩)
  · have hne : b' ≠ b := by
      rintro rfl
      rcases hb' with hmem | hphase
      · exact hgone hmem
      · dsimp only at hphase
        split_ifs at hphase with hrejecting
        exact hrejecting hphase
    have hold : slot.Processes b' := by
      rcases hb' with hmem | hphase
      · exact Or.inl (List.mem_of_mem_erase hmem)
      · dsimp only at hphase
        split_ifs at hphase
        exact Or.inr hphase
    rw [hother b' hne]
    exact h.owned c slot b' hslot hold
  · by_cases hne : b' = b
    · subst hne
      obtain rfl := Option.some.inj (hbatch.symm.trans hx)
      exact ⟨_, hnew, rfl, Or.inr ⟨hsession, hnone⟩⟩
    · exact ⟨x, (hother b' hne).trans hx, rfl, Or.inl rfl⟩
  · rcases List.mem_append.mp hmessage with hold | hmem
    · exact Or.inl hold
    · refine Or.inr ⟨b, _, _, hnew, hsession, rfl, ?_⟩
      rw [hnew] at hmem
      exact Option.mem_toList.mp hmem
  · have hne : b' ≠ b := by
      rintro rfl
      rw [hnew] at hx
      cases hx
      cases hnone
    rw [hother b' hne] at hx
    by_cases hc : x.session = c
    · refine Or.inr ⟨hc, fun hphase => ?_⟩
      obtain ⟨y, hy, hprocess⟩ := h.live b' x hx hnone
      rw [hc, hslot] at hy
      obtain rfl := Option.some.inj hy
      have hphase' : slot.phase ≠ .ended := by
        intro hended
        refine hphase ?_
        dsimp only
        rw [hended, if_neg LoopPhase.noConfusion]
      rcases hprocess hphase' with hmem | hrejecting
      · exact Or.inl ((List.mem_erase_of_ne (by simpa using hne)).mpr hmem)
      · refine Or.inr ?_
        dsimp only
        rw [hrejecting, if_neg (by simpa using hne)]
    · exact Or.inl ⟨hc, x, hx, rfl, hnone⟩
  · have hold : handle ∈ s.dispatcher.cancelHandles := by
      have herase : ∀ (keys : List (ActiveKey Id)) (table : List (ActiveKey Id × ℕ × ℕ)),
          handle ∈ keys.foldl (fun handles key => KeyedTable.erase key handles) table →
            handle ∈ table := by
        intro keys
        induction keys with
        | nil => exact fun table hmem => hmem
        | cons key keys ih => exact fun table hmem => List.mem_of_mem_filter (ih _ hmem)
      exact herase _ _ hhandle
    refine ⟨fun _ => hold, fun hc => ?_⟩
    obtain ⟨x, hx, hcleaned⟩ := h.handles handle hold
    rw [hc, hslot] at hx
    obtain rfl := Option.some.inj hx
    exact hcleaned
  · obtain ⟨x, hx, hcleaned⟩ := h.registered e he
    rw [hc, hslot] at hx
    obtain rfl := Option.some.inj hx
    exact hcleaned

omit [DecidableEq Id] in
/-- A connection is added. -/
theorem Inv.addEndpoint (h : s.Inv backend.maxInflightRequests) :
    (s.addEndpoint backend).Inv backend.maxInflightRequests := by
  have hinv : ∀ (phase : LoopPhase) (cleaned closed : Bool),
      (phase = .receiving ∨ phase = .ended) → (cleaned = true → phase = .ended) →
      EndpointSlot.Inv backend.maxInflightRequests {
        session := backend.makeServerPeerSession
        phase := phase
        cleaned := cleaned
        closed := closed } := by
    intro phase cleaned closed hphase hcleaned
    refine ⟨Nat.zero_le _, ?_, hcleaned, fun b => Nat.zero_le _, fun b _ => List.not_mem_nil⟩
    rcases hphase with rfl | rfl <;> exact le_rfl
  -- the new connection takes the next number and processes nothing
  have hadd : ∀ (new : EndpointSlot Session) (endpoints : List ℕ),
      new.Inv backend.maxInflightRequests → (∀ b, ¬new.Processes b) → new.sent = [] →
      (∀ e ∈ endpoints, e ∈ s.endpoints ∨ e = s.slots.length ∧ new.cleaned = false) →
      (s.closing = true → endpoints = []) →
      RpcServer.Inv backend.maxInflightRequests
        { s with slots := s.slots ++ [new], endpoints := endpoints } := by
    intro new endpoints hnew hnone hsent hendpoints hclosing
    have hkept : ∀ (e : ℕ) (x : EndpointSlot Session), s.slots[e]? = some x →
        (s.slots ++ [new])[e]? = some x := fun e x hx =>
      (List.getElem?_append_left (List.getElem?_eq_some_iff.mp hx).1).trans hx
    have hcases : ∀ (e : ℕ) (x : EndpointSlot Session), (s.slots ++ [new])[e]? = some x →
        s.slots[e]? = some x ∨ x = new := by
      intro e x hx
      by_cases hlt : e < s.slots.length
      · exact Or.inl (by rwa [List.getElem?_append_left hlt] at hx)
      · rw [List.getElem?_append_right (Nat.not_lt.mp hlt)] at hx
        exact Or.inr (List.mem_singleton.mp (List.mem_of_getElem? hx))
    refine ⟨fun e x hx => ?_, fun e x b hx hb => ?_, fun b batch hb hbatch => ?_,
      fun e x hx message hmessage => ?_, fun handle hhandle => ?_, fun e he => ?_, hclosing⟩
    · rcases hcases e x hx with hold | rfl
      · exact h.slots e x hold
      · exact hnew
    · rcases hcases e x hx with hold | rfl
      · exact h.owned e x b hold hb
      · exact absurd hb (hnone b)
    · obtain ⟨x, hx, hprocess⟩ := h.live b batch hb hbatch
      exact ⟨x, hkept _ x hx, hprocess⟩
    · rcases hcases e x hx with hold | rfl
      · exact h.sent e x hold message hmessage
      · rw [hsent] at hmessage
        cases hmessage
    · obtain ⟨x, hx, hcleaned⟩ := h.handles handle hhandle
      exact ⟨x, hkept _ x hx, hcleaned⟩
    · rcases hendpoints e he with hold | ⟨rfl, hcleaned⟩
      · obtain ⟨x, hx, hcleaned⟩ := h.registered e hold
        exact ⟨x, hkept e x hx, hcleaned⟩
      · exact ⟨new, List.getElem?_concat_length, hcleaned⟩
  unfold RpcServer.addEndpoint
  dsimp only
  split_ifs with hclosing
  · refine hadd _ s.endpoints (hinv .ended true true (Or.inr rfl) fun _ => rfl) ?_ rfl
      (fun e he => Or.inl he) h.closing
    rintro b (hmem | hphase)
    · cases hmem
    · cases hphase
  · refine hadd _ (s.endpoints ++ [s.slots.length])
      (hinv .receiving false false (Or.inl rfl) fun hc => by cases hc) ?_ rfl (fun e he => ?_)
      fun hc => absurd hc hclosing
    · rintro b (hmem | hphase)
      · cases hmem
      · cases hphase
    · rcases List.mem_append.mp he with hold | hnew
      · exact Or.inl hold
      · exact Or.inr ⟨List.mem_singleton.mp hnew, rfl⟩

omit [DecidableEq Id] in
/-- The cleanup takes out the connection and its handles. -/
theorem Inv.cleanup (h : s.Inv backend.maxInflightRequests) (hslot : s.slots[c]? = some slot)
    (hended : slot.phase = .ended) : (s.cleanup c slot).Inv backend.maxInflightRequests := by
  have hslotInv := h.slots c slot hslot
  unfold RpcServer.cleanup
  refine h.update hslot
    ⟨hslotInv.requests_le, hslotInv.answered, fun _ => hended, hslotInv.once, hslotInv.apart⟩
    (fun b hb => h.owned c slot b hslot hb) (fun b x hx => ⟨x, hx, rfl, Or.inl rfl⟩)
    (fun message hmessage => Or.inl hmessage) (fun b x hx hnone => ?_)
    (fun handle hhandle => ?_) fun e he => ?_
  · by_cases hc : x.session = c
    · exact Or.inr ⟨hc, fun hphase => absurd hended hphase⟩
    · exact Or.inl ⟨hc, x, hx, rfl, hnone⟩
  · obtain ⟨hold, hne⟩ := List.mem_filter.mp hhandle
    exact ⟨fun _ => hold, fun hc => absurd hc (by simpa using hne)⟩
  · obtain ⟨hold, hne⟩ := List.mem_filter.mp he
    exact ⟨hold, fun hc => absurd hc (by simpa using hne)⟩

/-- **Every step keeps the invariant.** -/
theorem Inv.step {t : RpcServer Id Session Request Response} {action : ServerAction Id Value}
    (h : s.Inv backend.maxInflightRequests) (hstep : s.step backend config action = some t) :
    t.Inv backend.maxInflightRequests := by
  unfold RpcServer.step at hstep
  cases action with
  | addEndpoint =>
    cases hstep
    exact h.addEndpoint
  | receive c message sent =>
    dsimp only at hstep
    split at hstep
    · cases hstep
    split_ifs at hstep with hphase
    cases hstep
    exact h.receive (by assumption) hphase message sent
  | begin c message =>
    dsimp only at hstep
    split at hstep
    · cases hstep
    split_ifs at hstep with hmem
    cases hstep
    exact h.beginTask (by assumption) hmem.1 hmem.2
  | finish b i taskEnd =>
    obtain ⟨dispatcher, hdispatcher, rfl⟩ := Option.map_eq_some_iff.mp hstep
    obtain ⟨batch, request, htask, rfl⟩ := Dispatcher.step_finish hdispatcher
    have hbatch := (Dispatcher.task_eq_some.mp htask).1
    refine h.setDispatcher (fun b' x hx => ?_) (fun b' x hx => ?_) fun handle hhandle => hhandle
    · show ∃ batch', (s.dispatcher.setBatch b _).batches[b']? = some batch' ∧ _
      rw [Dispatcher.getElem?_setBatch hbatch]
      split_ifs with hb
      · subst hb
        obtain rfl := Option.some.inj (hbatch.symm.trans hx)
        exact ⟨_, rfl, rfl, rfl⟩
      · exact ⟨x, hx, rfl, rfl⟩
    · have hset : (s.dispatcher.setBatch b _).batches[b']? = some x := hx
      rw [Dispatcher.getElem?_setBatch hbatch] at hset
      split_ifs at hset with hb
      · subst hb
        obtain rfl := Option.some.inj hset
        exact ⟨batch, hbatch, rfl, rfl⟩
      · exact ⟨x, hset, rfl, rfl⟩
  | complete c b sent =>
    dsimp only at hstep
    split at hstep
    · cases hstep
    split_ifs at hstep with hprocess
    obtain ⟨dispatcher, hdispatcher, rfl⟩ := Option.map_eq_some_iff.mp hstep
    exact h.complete (by assumption) hprocess hdispatcher
  | abandon c task =>
    dsimp only at hstep
    split at hstep
    · cases hstep
    rename_i slot hslot
    split_ifs at hstep with hcleaned
    cases hstep
    have hslotInv := h.slots c slot hslot
    have hended := hslotInv.ended hcleaned
    have hle := List.length_erase_le (a := task) (l := slot.requests)
    have hanswered := hslotInv.answered
    refine h.setSlot hslot ⟨hle.trans hslotInv.requests_le, ?_, hslotInv.ended,
      fun b => (List.Sublist.count_le _ List.erase_sublist).trans (hslotInv.once b),
      fun b hb hmem => hslotInv.apart b hb (List.mem_of_mem_erase hmem)⟩ (fun b hb => ?_)
      (fun hphase => absurd hended hphase) rfl rfl
    · show slot.sent.length + (slot.requests.erase task).length + slot.phase.held ≤ slot.accepted
      omega
    · rcases hb with hmem | hphase
      · exact Or.inl (List.mem_of_mem_erase hmem)
      · exact Or.inr hphase
  | beginClose =>
    cases hstep
    exact ⟨h.slots, h.owned, h.live, h.sent, h.handles, List.forall_mem_nil _, fun _ => rfl⟩
  | stop c =>
    dsimp only at hstep
    split at hstep
    · cases hstep
    rename_i slot hslot
    split_ifs at hstep
    cases hstep
    have hslotInv := h.slots c slot hslot
    have hanswered := hslotInv.answered
    refine h.setSlot hslot ⟨hslotInv.requests_le, ?_, fun _ => rfl, hslotInv.once,
      fun b hb => by cases hb⟩ (fun b hb => ?_) (fun hphase => absurd rfl hphase) rfl rfl
    · show slot.sent.length + slot.requests.length + 0 ≤ slot.accepted
      omega
    · rcases hb with hmem | hphase
      · exact Or.inl hmem
      · cases hphase
  | cleanup c =>
    dsimp only at hstep
    split at hstep
    · cases hstep
    split_ifs at hstep with hended
    cases hstep
    exact h.cleanup (by assumption) hended.1
  | cancel id =>
    cases hstep
    exact h.setDispatcher (fun b x hx => ⟨x, hx, rfl, rfl⟩) (fun b x hx => ⟨x, hx, rfl, rfl⟩)
      fun handle hhandle => hhandle
  | cancelAll =>
    cases hstep
    exact h.setDispatcher (fun b x hx => ⟨x, hx, rfl, rfl⟩) (fun b x hx => ⟨x, hx, rfl, rfl⟩)
      fun handle hhandle => by cases hhandle

end RpcServer

/-- Several steps. -/
def RpcServer.run (backend : ConnectionBackend Id Session Request Response Value)
    (config : DispatcherConfig Request) (s : RpcServer Id Session Request Response) :
    List (ServerAction Id Value) → Option (RpcServer Id Session Request Response)
  | [] => some s
  | action :: actions => (s.step backend config action).bind fun s => s.run backend config actions

section

variable {backend : ConnectionBackend Id Session Request Response Value}
  {config : DispatcherConfig Request}

theorem reachable_run {s t : RpcServer Id Session Request Response}
    {actions : List (ServerAction Id Value)} (hs : s.Reachable backend config)
    (hrun : s.run backend config actions = some t) : t.Reachable backend config := by
  induction actions generalizing s with
  | nil =>
    obtain rfl := Option.some.inj hrun
    exact hs
  | cons action actions ih =>
    obtain ⟨s', hstep, hrest⟩ := Option.bind_eq_some_iff.mp hrun
    exact ih (.step hs hstep) hrest

theorem inv_of_reachable {s : RpcServer Id Session Request Response}
    (h : s.Reachable backend config) : s.Inv backend.maxInflightRequests := by
  induction h with
  | start =>
    refine ⟨fun c slot hslot => ?_, fun c slot b hslot => ?_, fun b batch hb => ?_,
      fun c slot hslot => ?_, List.forall_mem_nil _, List.forall_mem_nil _, fun _ => rfl⟩
    · cases hslot
    · cases hslot
    · cases hb
    · cases hslot
  | step _ hstep ih => exact ih.step hstep

/-- **The server.** Whatever its connections receive, and however their loops, their tasks, the
tasks of the dispatcher, cancellations and a close interleave: the invariant holds, and every batch
that is through is accounted for. -/
theorem server_safe {s : RpcServer Id Session Request Response}
    (h : s.Reachable backend config) :
    s.Inv backend.maxInflightRequests ∧ ∀ batch ∈ s.dispatcher.batches, ∀ delivery,
      batch.delivery = some delivery → batch.Accounted backend.toServerBackend delivery :=
  ⟨inv_of_reachable h, fun batch hbatch delivery hdelivery =>
    (inv_of_reaches (reaches_dispatcher h) batch hbatch).delivery delivery hdelivery⟩

end

/-- A server for one request at a time on a connection. -/
def singleServer :
    ConnectionBackend UInt64 NekoServerSession DecodedRequest FrameParts (Option MessageType) :=
  nekoConnectionBackend runLengthCodec 1 {} { maxEntries := 64 } 1 plainSerializer (fun _ => [])
    (fun _ => RpcError.internalError.toErrorCode)

/-- Two requests on a connection, of which the second is rejected, and the end of it. -/
def twoRequests : List (ServerAction UInt64 (Option MessageType)) :=
  let message := encodeFrame (plainRequest 0)
  [.addEndpoint, .receive 0 (some message) true, .receive 0 (some message) true, .begin 0 message,
    .complete 0 0 true, .finish 1 0 (.called (.returned (.ok (some [])))), .complete 0 1 true,
    .receive 0 none true, .cleanup 0, .beginClose]

theorem server_safe_twoRequests :
    ∃ s, ({} : RpcServer UInt64 NekoServerSession DecodedRequest FrameParts).run singleServer
        plainConfig twoRequests = some s ∧
      (s.Inv singleServer.maxInflightRequests ∧ ∀ batch ∈ s.dispatcher.batches, ∀ delivery,
        batch.delivery = some delivery →
          batch.Accounted singleServer.toServerBackend delivery) := by
  have hsome : (({} : RpcServer UInt64 NekoServerSession DecodedRequest FrameParts).run
      singleServer plainConfig twoRequests).isSome = true := by
    decide +kernel
  obtain ⟨s, hrun⟩ := Option.isSome_iff_exists.mp hsome
  exact ⟨s, hrun, server_safe (reachable_run .start hrun)⟩

end NekoProto.Rpc
