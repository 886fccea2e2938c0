import NekoProto.Rpc.ClientHistory
import NekoProto.Rpc.ServerHistory
import NekoProto.Rpc.WireCall

/-!
# From the call to the method and back

A call that decodes a response decodes the answer to its own request. `call_answered`: in every
state of a client, its server and the network, with other clients, losses, repetitions, retries,
timeouts, cancellations and reconnections in any order, for every call that is done with a decoded
result there is a batch on the connection of the call, made of the request that the call encoded
under its id, and the result was decoded from the responses of that batch.

1. The backends of both sides fit together (`Matched`), and the one of the client allocates ids
   (`ClientBackend.Allocates`).
2. The invariant of the system (`RpcSystem.Inv`), kept by every step (`RpcSystem.inv_step`).
3. A result that a call decoded leads back to a batch, the batch to a message, and the message by
   its id to the call (`RpcSystem.Inv.answered`).
4. The backends of `NekoRpcBackend` fit together.
-/

namespace NekoProto.Rpc

open Correlation AppendOnly

section

variable {Id Context ClientSession Method ClientValue Session Request Response Value : Type}

/-! ## Backends that fit together -/

/-- What a server makes of a request has its id, or one that no request has; of a notification
nothing is answered with an id of a request; and a client finds the id of a response in the message
that a server encodes. -/
structure Matched (clientBackend : ClientBackend Id Context ClientSession Method ClientValue)
    (serverBackend : ServerBackend Id Session Request Response Value) (index : Id → ℕ) : Prop where
  decoded : ∀ context session method notification context' message id peer decoded,
    clientBackend.encodeRequest context session method notification =
      (context', .ok (message, id)) →
    serverBackend.decodeIncoming peer message = some decoded →
    (∀ response ∈ decoded.responses, index (serverBackend.responseId response) = 0 ∨
      notification = false ∧ serverBackend.responseId response = id) ∧
    ∀ request ∈ decoded.requests, serverBackend.expectsResponse request = true →
      notification = false ∧ serverBackend.id request = id
  encoded : ∀ peer responses batch id,
    clientBackend.responseId (serverBackend.encodeResponses peer responses batch) = some id →
    ∃ response ∈ responses, serverBackend.responseId response = id

/-- A response of a batch is one of the backend, or the answer to a request. -/
theorem Batch.Accounted.mem_responses
    {serverBackend : ServerBackend Id Session Request Response Value}
    {batch : Batch Id Request Response} {delivery : Delivery Response}
    (h : batch.Accounted serverBackend delivery) {response : Response}
    (hresponse : response ∈ delivery.responses) :
    response ∈ batch.decoded.responses ∨ ∃ request ∈ batch.decoded.requests,
      serverBackend.expectsResponse request = true ∧
        serverBackend.id request = serverBackend.responseId response := by
  obtain ⟨answers, hresponses, -, hids⟩ := h.responses
  rw [hresponses] at hresponse
  rcases List.mem_append.mp hresponse with hown | hanswer
  · exact Or.inl hown
  obtain ⟨responses, hresponses, hmem⟩ := List.mem_flatten.mp hanswer
  have hmap := List.mem_map_of_mem (f := List.map serverBackend.responseId) hresponses
  rw [hids] at hmap
  obtain ⟨request, hrequest, heq⟩ := List.mem_map.mp hmap
  have hin := List.mem_map_of_mem (f := serverBackend.responseId) hmem
  rw [← heq] at hin
  unfold ServerBackend.ids at hin
  split_ifs at hin with hexpects
  · exact Or.inr ⟨request, hrequest, hexpects, (List.mem_singleton.mp hin).symm⟩
  · cases hin

/-- **The responses of a batch have the id of the request** that was decoded, or one that no
request has. -/
theorem Matched.response_id
    {clientBackend : ClientBackend Id Context ClientSession Method ClientValue}
    {serverBackend : ServerBackend Id Session Request Response Value} {index : Id → ℕ}
    (h : Matched clientBackend serverBackend index) {context context' : Context}
    {session : ClientSession} {method : Method} {notification : Bool} {message : MessageType}
    {id : Id} {peer : Session} {batch : Batch Id Request Response} {delivery : Delivery Response}
    (hencode : clientBackend.encodeRequest context session method notification =
      (context', .ok (message, id)))
    (hdecode : serverBackend.decodeIncoming peer message = some batch.decoded)
    (haccounted : batch.Accounted serverBackend delivery) {response : Response}
    (hresponse : response ∈ delivery.responses) :
    index (serverBackend.responseId response) = 0 ∨
      notification = false ∧ serverBackend.responseId response = id := by
  obtain ⟨hresponses, hrequests⟩ := h.decoded _ _ _ _ _ _ _ _ _ hencode hdecode
  rcases haccounted.mem_responses hresponse with hown | ⟨request, hrequest, hexpects, hid⟩
  · exact hresponses response hown
  · obtain ⟨hnotification, heq⟩ := hrequests request hrequest hexpects
    exact Or.inr ⟨hnotification, hid.symm.trans heq⟩

/-- A call and a batch belong together by the id of the attempt that the call is in, and that no
other call has: the batch came in on the connection of the call and is what the server decoded from
the request that the call encoded under this id and handed to its endpoint; it is accounted for;
and the call decoded `result` from what was sent of its responses, one of which has the id. -/
structure RpcSystem.Answers
    (clientBackend : ClientBackend Id Context ClientSession Method ClientValue)
    (serverBackend : ConnectionBackend Id Session Request Response Value)
    (s : RpcSystem Id Context ClientSession Method ClientValue Session Request Response)
    (c : ℕ) (call : ClientCall Id Method ClientValue) (id : Id) (batch : Batch Id Request Response)
    (delivery : Delivery Response) (result : Except ErrorCode ClientValue) : Prop where
  attempt : ∃ k, call.attempt = some (k, id) ∧ s.client.owners[k]? = some c
  only : ∀ (c' : ℕ) call' k, s.client.calls[c']? = some call' → call'.attempt = some (k, id) →
    c' = c
  batch_mem : batch ∈ s.server.dispatcher.batches
  delivery_eq : batch.delivery = some delivery
  request : ∃ endpoint context session context' message peer,
    call.endpoint = some endpoint ∧ s.links[endpoint]? = some batch.session ∧
    (endpoint, message) ∈ s.requests ∧
    clientBackend.encodeRequest context session call.method false =
      (context', .ok (message, id)) ∧
    serverBackend.decodeIncoming peer message = some batch.decoded
  accounted : batch.Accounted serverBackend.toServerBackend delivery
  answered : ∃ response ∈ delivery.responses, serverBackend.responseId response = id
  response : ∃ peer context session,
    delivery.sent =
      some (serverBackend.encodeResponses peer delivery.responses batch.decoded.batch) ∧
    (clientBackend.decodeResponse context session call.method
      (serverBackend.encodeResponses peer delivery.responses batch.decoded.batch) id).2 = result

/-! ## The invariant -/

namespace RpcSystem

/-- Where a message that the server dispatches comes from: on a connection of the client, it is one
of the requests that were handed to its endpoint. -/
def Origin (s : RpcSystem Id Context ClientSession Method ClientValue Session Request Response)
    (c : ℕ) (message : MessageType) : Prop :=
  c < s.server.slots.length ∧
    ∀ endpoint : ℕ, s.links[endpoint]? = some c → (endpoint, message) ∈ s.requests

/-- **The system**: the invariants of both sides; the server dispatches on the connections of the
client what was handed to their endpoints, that are requests of the calls, and the responses that
the client received were sent on their connections. -/
structure Inv [DecidableEq Id]
    (clientBackend : ClientBackend Id Context ClientSession Method ClientValue)
    (serverBackend : ConnectionBackend Id Session Request Response Value)
    (config : DispatcherConfig Request) (number : Context → ℕ) (index : Id → ℕ) (n : ℕ)
    (s : RpcSystem Id Context ClientSession Method ClientValue Session Request Response) :
    Prop where
  client : s.client.Inv clientBackend
  originated : s.client.Originated clientBackend
  numbered : s.client.Numbered number index n
  server : s.server.Reachable serverBackend config
  stems : s.server.Stems serverBackend s.Origin
  requests : ∀ r ∈ s.requests, ∃ (c : ℕ) (call : ClientCall Id Method ClientValue),
    s.client.calls[c]? = some call ∧ call.endpoint = some r.1 ∧
      s.client.Originates clientBackend c call r.2
  received : ∀ message ∈ s.client.received, clientBackend.responseId message ≠ none →
    ∃ (endpoint c : ℕ) (slot : EndpointSlot Session), s.links[endpoint]? = some c ∧
      s.server.slots[c]? = some slot ∧ message ∈ slot.sent

variable [DecidableEq Id]
  {clientBackend : ClientBackend Id Context ClientSession Method ClientValue}
  {serverBackend : ConnectionBackend Id Session Request Response Value}
  {config : DispatcherConfig Request} {number : Context → ℕ} {index : Id → ℕ} {limit n m : ℕ}
  {s t : RpcSystem Id Context ClientSession Method ClientValue Session Request Response}

omit [DecidableEq Id] in
/-- What is being sent is in the calls. -/
theorem mem_sending {client : ClientState Id Context ClientSession Method ClientValue}
    {r : ℕ × MessageType} (h : r ∈ client.sending) :
    ∃ (c : ℕ) (call : ClientCall Id Method ClientValue), client.calls[c]? = some call ∧
      call.endpoint = some r.1 ∧ call.phase = .sending r.2 := by
  obtain ⟨call, hmem, hsending⟩ := List.mem_filterMap.mp h
  obtain ⟨c, hcall⟩ := List.mem_iff_getElem?.mp hmem
  refine ⟨c, call, hcall, ?_⟩
  unfold ClientCall.sending at hsending
  split at hsending
  · rename_i endpoint message hendpoint hphase
    obtain rfl := Option.some.inj hsending
    exact ⟨hendpoint, hphase⟩
  · cases hsending

/-- **The system goes on**: each side keeps its own history, a new endpoint leads to a new
connection, and no message comes from nowhere. -/
theorem Inv.advance (h : s.Inv clientBackend serverBackend config number index n)
    (hclient : t.client.Inv clientBackend) (horiginated : t.client.Originated clientBackend)
    (hnumbered : t.client.Numbered number index m) (hfollows : s.client.Follows t.client)
    (hserver : t.server.Reachable serverBackend config)
    (hstems : t.server.Stems serverBackend s.Origin)
    (hsends : Extends EndpointSlot.Sends s.server.slots t.server.slots)
    (hlinks : t.links = s.links ∨ t.links = s.links ++ [s.server.slots.length])
    (hrequests : ∀ r ∈ s.requests, r ∈ t.requests)
    (hsending : ∀ r ∈ t.requests, r ∈ s.requests ∨ r ∈ t.client.sending)
    (hreceived : ∀ message ∈ t.client.received, clientBackend.responseId message ≠ none →
      message ∈ s.client.received ∨ ∃ (endpoint c : ℕ) (slot : EndpointSlot Session),
        s.links[endpoint]? = some c ∧ s.server.slots[c]? = some slot ∧ message ∈ slot.sent) :
    t.Inv clientBackend serverBackend config number index m := by
  have hkept : ∀ (endpoint c : ℕ), s.links[endpoint]? = some c → t.links[endpoint]? = some c := by
    intro endpoint c hlink
    rcases hlinks with heq | heq
    · rwa [heq]
    · rw [heq]
      exact getElem?_append_of_some hlink _
  refine ⟨hclient, horiginated, hnumbered, hserver, hstems.mono ?_, fun r hr => ?_,
    fun message hmem hid => ?_⟩
  · rintro c message ⟨hlt, horigin⟩
    refine ⟨hlt.trans_le hsends.length_le, fun endpoint hlink => hrequests _ (horigin endpoint ?_)⟩
    rcases hlinks with heq | heq
    · rwa [heq] at hlink
    · rw [heq] at hlink
      rcases getElem?_concat_eq_some.mp hlink with hold | ⟨-, rfl⟩
      · exact hold
      · exact absurd hlt (Nat.lt_irrefl _)
  · rcases hsending r hr with hold | hnew
    · obtain ⟨c, call, hcall, hendpoint, horiginates⟩ := h.requests r hold
      obtain ⟨call', hcall', hlater⟩ := hfollows.calls c call hcall
      exact ⟨c, call', hcall', hlater.endpoint_eq.trans hendpoint,
        horiginates.follow hfollows hlater⟩
    · obtain ⟨c, call, hcall, hendpoint, hphase⟩ := mem_sending hnew
      exact ⟨c, call, hcall, hendpoint, horiginated c call r.2 hcall hphase⟩
  · have hsent : ∃ (endpoint c : ℕ) (slot : EndpointSlot Session), s.links[endpoint]? = some c ∧
        s.server.slots[c]? = some slot ∧ message ∈ slot.sent := by
      rcases hreceived message hmem hid with hold | hnew
      · exact h.received message hold hid
      · exact hnew
    obtain ⟨endpoint, c, slot, hlink, hslot, hmessage⟩ := hsent
    obtain ⟨slot', hslot', hmore⟩ := hsends c slot hslot
    exact ⟨endpoint, c, slot', hkept endpoint c hlink, hslot', hmore message hmessage⟩

/-- **A step of the client.** -/
theorem Inv.client_step (hallocates : clientBackend.Allocates number index limit)
    (h : s.Inv clientBackend serverBackend config number index n)
    {action : ClientAction Id ClientSession Method} (hlt : ∀ c, action = .attempt c → n < limit)
    {client : ClientState Id Context ClientSession Method ClientValue}
    {requests : List (ℕ × MessageType)}
    (hcarries : ∀ endpoint message, action = .receive endpoint message →
      s.carriesResponse clientBackend endpoint message = true)
    (hrequests : ∀ r ∈ s.requests, r ∈ requests)
    (hsending : ∀ r ∈ requests, r ∈ s.requests ∨ r ∈ client.sending)
    (hstep : s.client.step clientBackend action = some client) :
    (∃ m, (m = n ∨ m = n + 1 ∧ ∃ c, action = .attempt c) ∧
      client.Numbered number index m) ∧
    ∀ m, client.Numbered number index m →
      Inv clientBackend serverBackend config number index m
        { s with client := client, requests := requests } := by
  obtain ⟨hfollows, horiginated, hreceived⟩ :=
    ClientState.originated_step h.client h.originated hstep
  refine ⟨?_, fun m hnumbered => ?_⟩
  · rcases ClientState.numbered_step hallocates h.client h.numbered hlt hstep with
      hsame | ⟨hattempt, hnext⟩
    · exact ⟨n, Or.inl rfl, hsame⟩
    · exact ⟨n + 1, Or.inr ⟨rfl, hattempt⟩, hnext⟩
  · refine h.advance (h.client.step_inv hstep) horiginated hnumbered hfollows h.server h.stems
      (Extends.refl _) (Or.inl rfl) hrequests hsending fun message hmem hid => ?_
    rcases hreceived message hmem with hold | ⟨endpoint, rfl⟩
    · exact Or.inl hold
    · have hcarried := hcarries endpoint message rfl
      unfold carriesResponse at hcarried
      rw [Bool.or_eq_true] at hcarried
      rcases hcarried with hnone | hsent
      · exact absurd (Option.isNone_iff_eq_none.mp hnone) hid
      · split at hsent
        · cases hsent
        rename_i c hlink
        split at hsent
        · cases hsent
        rename_i slot hslot
        obtain ⟨sent, hslotSent, hsent⟩ := List.any_eq_true.mp hsent
        obtain rfl := of_decide_eq_true hsent
        exact Or.inr ⟨endpoint, c, slot, hlink, hslot, hslotSent⟩

/-- **A step of the server.** -/
theorem Inv.server_step (h : s.Inv clientBackend serverBackend config number index n)
    {action : ServerAction Id Value} {server : RpcServer Id Session Request Response}
    {client : ClientState Id Context ClientSession Method ClientValue} {links : List ℕ}
    (hclient : client.Inv clientBackend) (horiginated : client.Originated clientBackend)
    (hnumbered : client.Numbered number index n) (hfollows : s.client.Follows client)
    (hreceived : ∀ message ∈ client.received, message ∈ s.client.received)
    (hlinks : links = s.links ∨ links = s.links ++ [s.server.slots.length])
    (hcarries : ∀ c message sent, action = .receive c (some message) sent →
      s.carriesRequest serverBackend c message = true)
    (hstep : s.server.step serverBackend config action = some server) :
    Inv clientBackend serverBackend config number index n
      { s with client := client, server := server, links := links } := by
  have horigin : ∀ c message sent slot, action = .receive c (some message) sent →
      s.server.slots[c]? = some slot →
        serverBackend.dispatches slot.session message = true → s.Origin c message := by
    intro c message sent slot haction hslot hdispatches
    have hcarried := hcarries c message sent haction
    unfold carriesRequest at hcarried
    rw [hslot] at hcarried
    dsimp only at hcarried
    rw [hdispatches, Bool.not_true, Bool.false_or, List.all_eq_true] at hcarried
    refine ⟨(List.getElem?_eq_some_iff.mp hslot).1, fun endpoint hlink => ?_⟩
    have hlt := (List.getElem?_eq_some_iff.mp hlink).1
    have hmem := hcarried endpoint (List.mem_range.mpr hlt)
    rw [Bool.or_eq_true] at hmem
    rcases hmem with hother | hrequest
    · exact absurd hlink (of_decide_eq_true hother)
    · exact of_decide_eq_true hrequest
  obtain ⟨hstems, hsends⟩ := RpcServer.stems_step h.stems horigin hstep
  exact h.advance hclient horiginated hnumbered hfollows (.step h.server hstep) hstems hsends
    hlinks (fun r hr => hr) (fun r hr => Or.inl hr)
    fun message hmem _ => Or.inl (hreceived message hmem)

/-- **Every step keeps the invariant**, up to the number of attempts. -/
theorem inv_step (hallocates : clientBackend.Allocates number index limit)
    (h : s.Inv clientBackend serverBackend config number index n)
    {action : SystemAction Id ClientSession Method Value}
    (hlt : action.isAttempt = true → n < limit)
    (hstep : s.step clientBackend serverBackend config action = some t) :
    t.Inv clientBackend serverBackend config number index (n + action.isAttempt.toNat) := by
  unfold step at hstep
  split_ifs at hstep with hcarries
  cases action with
  | connect =>
    obtain rfl := Option.some.inj hstep
    have hclient : s.client.step clientBackend .setEndpoint = some s.client.setEndpoint := rfl
    have hserver : s.server.step serverBackend config (.addEndpoint : ServerAction Id Value) =
      some (s.server.addEndpoint serverBackend) := rfl
    obtain ⟨hfollows, horiginated, hreceived⟩ :=
      ClientState.originated_step h.client h.originated hclient
    have hnumbered : s.client.setEndpoint.Numbered number index n := by
      rcases ClientState.numbered_step hallocates h.client h.numbered
        (fun c hattempt => by cases hattempt) hclient with hsame | ⟨⟨c, hattempt⟩, -⟩
      · exact hsame
      · cases hattempt
    refine h.server_step (h.client.step_inv hclient) horiginated hnumbered hfollows
      (fun message hmem => ?_) (Or.inr rfl) (fun c message sent haction => by cases haction) hserver
    rcases hreceived message hmem with hold | ⟨endpoint, hreceive⟩
    · exact hold
    · cases hreceive
  | client action =>
    obtain ⟨client, hclient, rfl⟩ := Option.map_eq_some_iff.mp hstep
    have hroom : ∀ c, action = .attempt c → n < limit := by
      rintro c rfl
      exact hlt rfl
    have hreceives : ∀ endpoint message, action = .receive endpoint message →
        s.carriesResponse clientBackend endpoint message = true := by
      rintro endpoint message rfl
      exact hcarries
    obtain ⟨⟨m, hm, hnumbered⟩, hinv⟩ := h.client_step hallocates hroom hreceives
      (fun r hr => List.mem_append_left client.sending hr) (fun r hr => List.mem_append.mp hr)
      hclient
    refine hinv _ ?_
    rcases hm with rfl | ⟨rfl, c, rfl⟩
    · exact hnumbered.mono (Nat.le_add_right _ _)
    · exact hnumbered
  | server action =>
    obtain ⟨server, hserver, rfl⟩ := Option.map_eq_some_iff.mp hstep
    have hreceives : ∀ c message sent, action = .receive c (some message) sent →
        s.carriesRequest serverBackend c message = true := by
      rintro c message sent rfl
      exact hcarries
    exact h.server_step h.client h.originated h.numbered
      ⟨List.prefix_rfl, List.prefix_rfl, Extends.refl _⟩ (fun message hmem => hmem) (Or.inl rfl)
      hreceives hserver

/-- **Every run keeps the invariant**, as long as the ids last. -/
theorem inv_run (hallocates : clientBackend.Allocates number index limit)
    {actions : List (SystemAction Id ClientSession Method Value)} :
    ∀ {n : ℕ} {s : RpcSystem Id Context ClientSession Method ClientValue Session Request Response},
      s.Inv clientBackend serverBackend config number index n →
      n + actions.countP SystemAction.isAttempt ≤ limit →
      s.run clientBackend serverBackend config actions = some t →
      ∃ m, t.Inv clientBackend serverBackend config number index m := by
  induction actions with
  | nil =>
    intro n s h _ hrun
    obtain rfl := Option.some.inj hrun
    exact ⟨n, h⟩
  | cons action actions ih =>
    intro n s h hlt hrun
    obtain ⟨s', hstep, hrest⟩ := Option.bind_eq_some_iff.mp hrun
    rw [List.countP_cons] at hlt
    have hcount : (if action.isAttempt = true then 1 else 0) = action.isAttempt.toNat := by
      cases action.isAttempt <;> rfl
    rw [hcount] at hlt
    refine ih (inv_step hallocates h (fun hattempt => ?_) hstep) (by omega) hrest
    rw [hattempt, Bool.toNat_true] at hlt
    omega

theorem new_inv (serverBackend : ConnectionBackend Id Session Request Response Value)
    (config : DispatcherConfig Request) (context : Context) :
    (new clientBackend context).Inv clientBackend serverBackend config number index
      (number context) where
  client := ClientState.new_inv clientBackend context
  originated c call message hcall := by cases hcall
  numbered := ⟨le_rfl, List.forall_mem_nil _, List.forall_mem_nil _, List.nodup_nil⟩
  server := .start
  stems := ⟨List.forall_mem_nil _, fun c slot message hslot => by cases hslot⟩
  requests := List.forall_mem_nil _
  received := List.forall_mem_nil _

/-! ## The way back -/

/-- **A decoded result** is the answer to the call's own request. -/
theorem Inv.answered (h : s.Inv clientBackend serverBackend config number index n)
    (hmatched : Matched clientBackend serverBackend.toServerBackend index) {c : ℕ}
    {call : ClientCall Id Method ClientValue} {result : Except ErrorCode ClientValue}
    (hcall : s.client.calls[c]? = some call) (hphase : call.phase = .done (.decoded result)) :
    ∃ id batch delivery, s.Answers clientBackend serverBackend c call id batch delivery result := by
  obtain ⟨k, id, i, message, context, session, hattempt, howner, -, hreceived, hid, hresult⟩ :=
    h.client.correlated.decoded c call result hcall hphase
  obtain ⟨-, answer, hticket⟩ := (h.client.calls c call hcall).own k id hattempt
  -- what was received was sent at the end of a batch
  obtain ⟨endpoint, connection, slot, hlink, hslot, hsent⟩ :=
    h.received message (List.mem_of_getElem? hreceived) (by rw [hid]; exact Option.some_ne_none id)
  obtain ⟨b, batch, delivery, hbatch, hsession, hdelivery, hmessage⟩ :=
    (inv_of_reachable h.server).sent connection slot hslot message hsent
  have hmem := List.mem_of_getElem? hbatch
  have hstems := h.stems.batches batch hmem
  have haccounted : batch.Accounted serverBackend.toServerBackend delivery :=
    (inv_of_reaches (reaches_dispatcher h.server) batch hmem).delivery delivery hdelivery
  obtain ⟨peer, hencoded⟩ := hstems.sent delivery message hdelivery hmessage
  obtain ⟨response, hresponse, hresponseId⟩ :=
    hmatched.encoded peer delivery.responses batch.decoded.batch id (hencoded ▸ hid)
  -- the batch is a request of a call with this id
  rcases hstems.decoded with hempty | ⟨peer', request, ⟨-, horigin⟩, hdecode⟩
  · rcases haccounted.mem_responses hresponse with hnil | ⟨request, hnil, -⟩
    · rw [hempty] at hnil
      cases hnil
    · rw [hempty] at hnil
      cases hnil
  obtain ⟨c', call', hcall', hendpoint, context', session', context'', id', hencode, hattempt'⟩ :=
    h.requests _ (horigin endpoint (hsession ▸ hlink))
  have hkey : s.client.pending.keys[k]? = some id := by
    unfold Table.keys
    rw [List.getElem?_map, hticket]
    rfl
  obtain ⟨hnotification, rfl⟩ : call'.notification = false ∧ id' = id := by
    rcases hmatched.response_id hencode hdecode haccounted hresponse with hzero | ⟨hcall, heq⟩
    · have hpos := h.numbered.index_pos id (List.mem_of_getElem? hkey)
      rw [← hresponseId, hzero] at hpos
      exact absurd hpos (Nat.lt_irrefl 0)
    · exact ⟨hcall, heq.symm.trans hresponseId⟩
  -- ids are not used twice, so it is this call
  obtain ⟨k', howner', hkey'⟩ := hattempt' hnotification
  obtain rfl := h.numbered.unique hkey hkey'
  obtain rfl := Option.some.inj (howner.symm.trans howner')
  obtain rfl := Option.some.inj (hcall.symm.trans hcall')
  rw [hnotification] at hencode
  refine ⟨id', batch, delivery, {
    attempt := ⟨k, hattempt, howner⟩
    only := fun c' call' k' hother hattempt' => ?_
    batch_mem := hmem
    delivery_eq := hdelivery
    request := ⟨endpoint, context', session', context'', request, peer', hendpoint,
      hsession ▸ hlink, horigin endpoint (hsession ▸ hlink), hencode, hdecode⟩
    accounted := haccounted
    answered := ⟨response, hresponse, hresponseId⟩
    response := ⟨peer, context, session, hencoded ▸ hmessage, hencoded ▸ hresult⟩ }⟩
  obtain ⟨howner', answer', hticket'⟩ := (h.client.calls c' call' hother).own k' id' hattempt'
  have hkey' : s.client.pending.keys[k']? = some id' := by
    unfold Table.keys
    rw [List.getElem?_map, hticket']
    rfl
  obtain rfl := h.numbered.unique hkey hkey'
  exact Option.some.inj (howner'.symm.trans howner)

end RpcSystem

end

/-! ## The backends of `NekoRpcBackend` -/

section

variable {α : Type} (codec : CompressionCodec) (codecId : UInt8)

/-- The kind and the id of a frame are what its message begins with. -/
theorem parseFrame_header {frame parts : FrameParts} {codecId : UInt8}
    (h : parseFrame (encodeFrame frame) codecId = some parts) :
    parts.header.kind = frame.header.kind ∧ parts.header.id = frame.header.id := by
  have hparts : parseFrameParts (encodeFrame frame) = some parts :=
    (Option.filter_eq_some_iff.mp h).1
  obtain ⟨hlen, -, -, -, -, hheader, -, -⟩ := parseFrameParts_eq_some.mp hparts
  have hrep : frame.Representable := by
    by_contra hnot
    rw [encodeFrame_eq_nil.mpr hnot, List.length_nil, headerSize] at hlen
    omega
  rw [hheader, hrep.encodeFrame_eq, readHeader_append]
  exact ⟨rfl, rfl⟩

/-- A response carries its id. -/
theorem responseId_encodeResponses {options : BackendOptions} {session : NekoServerSession}
    {responses : List FrameParts} {id : UInt64}
    (h : responseId codecId (encodeResponses codec codecId options session responses) = some id) :
    ∃ response ∈ responses, response.header.id = id := by
  unfold encodeResponses at h
  cases hframes : responses.flatMap (encodeResponseFrame codec codecId options session) with
  | nil =>
    rw [hframes] at h
    exact absurd h (by simp [responseId, parseFrame, parseFrameParts, headerSize])
  | cons message rest =>
    have hmem : message ∈ message :: rest := List.mem_cons_self
    rw [← hframes] at hmem
    obtain ⟨response, hresponse, hmessage⟩ := List.mem_flatMap.mp hmem
    have hsent : ∃ sent : FrameParts, message = encodeFrame sent ∧
        sent.header.id = response.header.id := by
      unfold encodeResponseFrame at hmessage
      cases hencode : encodeOutgoingFrame codec options session.toBackendSession response with
      | ok frame =>
        rw [hencode] at hmessage
        obtain ⟨sent, hsent, -, hid⟩ := encodeOutgoingFrame_header hencode
        exact ⟨sent, (List.mem_singleton.mp hmessage).trans hsent, hid⟩
      | error error =>
        rw [hencode] at hmessage
        dsimp only at hmessage
        split at hmessage
        · exact ⟨response, List.mem_singleton.mp hmessage, rfl⟩
        · cases hmessage
    obtain ⟨sent, rfl, hid⟩ := hsent
    rw [hframes, List.headD_cons] at h
    unfold responseId at h
    split at h
    · cases h
    rename_i parts hparse
    split_ifs at h
    obtain rfl := Option.some.inj h
    exact ⟨response, hresponse, (hid.symm.trans (parseFrame_header hparse).2.symm)⟩

variable (errorCode : DecompressStop → ErrorCode) (serializer : Serializer α)
  (message : ErrorCode → MessageType)

/-- What a client sends for a request has its kind and its id. -/
theorem encodeRequestMessage_header {context context' : BackendClientContext}
    {session : BackendSession} {method : RemoteMethod} {notification : Bool}
    {request : MessageType} {id : UInt64}
    (h : encodeRequestMessage codec codecId errorCode context session method notification =
      (context', .ok (request, id))) :
    ∃ sent : FrameParts, request = encodeFrame sent ∧
      sent.header.kind = (if notification then .notify else .request) ∧ sent.header.id = id := by
  cases hpayload : method.payload with
  | none =>
    unfold encodeRequestMessage at h
    rw [hpayload] at h
    cases h
  | some payload =>
    obtain ⟨hencoded, hid, -⟩ := encodeRequestMessage_eq_ok hpayload h
    obtain ⟨hkind, -⟩ := encodeRequest_header codecId context.toClientContext
      session.toPeerSession method.name notification payload
    obtain ⟨sent, hsent, hkind', hid'⟩ := encodeOutgoingFrame_header hencoded
    exact ⟨sent, hsent, hkind'.trans hkind, hid'.trans hid⟩

/-- What a server decodes from a frame has its id, and is answered only if it is a request. -/
theorem decodeIncomingMessage_ids {options : BackendOptions} {session : NekoServerSession}
    {sent : FrameParts} {decoded : Decoded DecodedRequest FrameParts}
    (h : decodeIncomingMessage codec codecId options serializer message errorCode session
      (encodeFrame sent) = some decoded) :
    (∀ response ∈ decoded.responses,
      sent.header.kind = .request ∧ response.header.id = sent.header.id) ∧
    ∀ request ∈ decoded.requests, expectsResponse request.header = true →
      sent.header.kind = .request ∧ request.header.id = sent.header.id := by
  unfold decodeIncomingMessage at h
  split at h
  · cases h
  split at h
  · cases h
  rename_i parts hparse
  obtain ⟨hkind, hid⟩ := parseFrame_header hparse
  -- an error of the frame is a response to a request
  have herror : ∀ (error : ErrorCode) (extensions : ExtensionMap), ∀ response ∈
      appendFrameError codecId serializer message parts error extensions,
        sent.header.kind = .request ∧ response.header.id = sent.header.id := by
    intro error extensions response hmem
    unfold appendFrameError at hmem
    split_ifs at hmem with hrequest
    · obtain rfl := List.mem_singleton.mp hmem
      rw [(makeErrorResponse_header ..).1]
      exact ⟨hkind.symm.trans hrequest, hid⟩
    · cases hmem
  unfold decodeIncomingFrame at h
  split at h
  · obtain rfl := Option.some.inj h
    exact ⟨herror _ _, List.forall_mem_nil _⟩
  dsimp only at h
  split at h
  · cases h
  · obtain rfl := Option.some.inj h
    exact ⟨List.forall_mem_nil _, List.forall_mem_nil _⟩
  · obtain rfl := Option.some.inj h
    exact ⟨herror _ _, List.forall_mem_nil _⟩
  · rename_i request hrequest
    obtain rfl := Option.some.inj h
    refine ⟨List.forall_mem_nil _, fun request' hmem hexpects => ?_⟩
    obtain rfl := List.mem_singleton.mp hmem
    have hheader : request'.header.kind = parts.header.kind ∧
        request'.header.id = parts.header.id := by
      unfold decodeIncoming at hrequest
      split_ifs at hrequest
      split at hrequest
      · cases hrequest
      · cases hrequest
      · cases hrequest
        exact ⟨rfl, rfl⟩
    exact ⟨hkind.symm.trans (hheader.1.symm.trans (of_decide_eq_true hexpects)),
      hheader.2.trans hid⟩

/-- **The backends fit together.** -/
theorem neko_matched {β : Type} (clientSerializer : Serializer β)
    (clientErrorCode : DecompressStop → ErrorCode) (options : BackendOptions)
    (maxPendingCalls : ℕ) :
    Matched (nekoRpcBackend codec codecId clientSerializer clientErrorCode maxPendingCalls)
      (nekoServerBackend codec codecId options serializer message errorCode) UInt64.toNat where
  decoded context session method notification context' request id peer decoded hencode hdecode := by
    obtain ⟨sent, rfl, hkind, rfl⟩ := encodeRequestMessage_header codec codecId clientErrorCode
      hencode
    obtain ⟨hresponses, hrequests⟩ := decodeIncomingMessage_ids codec codecId errorCode serializer
      message hdecode
    have hrequest : sent.header.kind = .request → notification = false := by
      intro h
      rw [hkind] at h
      cases notification with
      | false => rfl
      | true => exact absurd h (by decide)
    exact ⟨fun response hmem => Or.inr ((hresponses response hmem).imp_left hrequest),
      fun request hmem hexpects => (hrequests request hmem hexpects).imp_left hrequest⟩
  encoded _ _ _ _ h := responseId_encodeResponses codec codecId h

/-- A request gets the next id. -/
theorem encodeRequest_id (client : ClientContext) (session : PeerSession) (name : Name)
    (notification : Bool) (payload : MessageType) :
    (encodeRequest codecId client session name notification payload).1 =
        (client.allocateId notification).1 ∧
      (encodeRequest codecId client session name notification payload).2.header.id =
        (client.allocateId notification).2 := by
  unfold encodeRequest
  dsimp only
  split <;> exact ⟨rfl, rfl⟩

/-- The next id, before the last one. -/
theorem allocateId_toNat {client : ClientContext} (h : client.nextId.toNat < 2 ^ 64 - 1) :
    client.allocateId false =
        ({ client with nextId := client.nextId + 1 }, client.nextId + 1) ∧
      (client.nextId + 1).toNat = client.nextId.toNat + 1 := by
  have hone : (1 : UInt64).toNat = 1 := rfl
  constructor
  · unfold ClientContext.allocateId
    rw [if_neg Bool.false_ne_true, if_neg]
    intro hlast
    rw [hlast] at h
    exact absurd h (by decide)
  · rw [UInt64.toNat_add, hone]
    exact Nat.mod_eq_of_lt (by omega)

/-- **A client allocates its ids** one after the other, from 1 to the last one. -/
theorem neko_allocates (maxPendingCalls : ℕ) :
    (nekoRpcBackend codec codecId serializer errorCode maxPendingCalls).Allocates
      (fun context => context.nextId.toNat) UInt64.toNat (2 ^ 64 - 1) where
  number_le context session method notification hlt := by
    have hnext : context.nextId.toNat ≤
          (context.toClientContext.allocateId notification).1.nextId.toNat ∧
        (context.toClientContext.allocateId notification).1.nextId.toNat ≤
          context.nextId.toNat + 1 := by
      cases notification with
      | true => exact ⟨le_rfl, Nat.le_succ _⟩
      | false =>
        have hlt' : context.toClientContext.nextId.toNat < 2 ^ 64 - 1 := hlt
        obtain ⟨heq, htoNat⟩ := allocateId_toNat hlt'
        rw [heq]
        exact ⟨htoNat ▸ Nat.le_succ _, htoNat.le⟩
    show context.nextId.toNat ≤ (encodeRequestMessage codec codecId errorCode context session method
        notification).1.nextId.toNat ∧ (encodeRequestMessage codec codecId errorCode context session
          method notification).1.nextId.toNat ≤ context.nextId.toNat + 1
    unfold encodeRequestMessage
    cases method.payload with
    | none => exact ⟨le_rfl, Nat.le_succ _⟩
    | some payload =>
      dsimp only
      rw [(encodeRequest_id codecId ..).1]
      split <;> exact hnext
  index_eq context session method context' request id hlt hencode := by
    have hlt' : context.toClientContext.nextId.toNat < 2 ^ 64 - 1 := hlt
    obtain ⟨heq, htoNat⟩ := allocateId_toNat hlt'
    replace hencode : encodeRequestMessage codec codecId errorCode context session method false =
      (context', .ok (request, id)) := hencode
    unfold encodeRequestMessage at hencode
    cases hpayload : method.payload with
    | none =>
      rw [hpayload] at hencode
      cases hencode
    | some payload =>
      rw [hpayload] at hencode
      dsimp only at hencode
      obtain ⟨hcontext, hid⟩ := encodeRequest_id codecId context.toClientContext
        session.toPeerSession method.name false payload
      rw [heq] at hcontext hid
      split at hencode <;> cases hencode
      rw [hid, hcontext]
      exact ⟨htoNat, htoNat⟩

end

/-! ## From the call to the method and back -/

/-- **End to end.** Take a client and a server of any options, and any run of the two with the
network between them and with other clients, in which fewer than 2^64 attempts begin. A call that
is done with a decoded result has decoded it from the responses of a batch on its own connection,
and that batch is what the server decoded from the request that the call sent under its own id. -/
theorem call_answered {α β : Type} (codec : CompressionCodec) (codecId : UInt8)
    (clientSerializer : Serializer α) (serializer : Serializer β)
    (message : ErrorCode → MessageType) (errorCode : DecompressStop → ErrorCode)
    (clientOptions options : BackendOptions) (maxPendingCalls maxInflightRequests : ℕ)
    (table : MethodIdTable) (config : DispatcherConfig DecodedRequest)
    (actions : List (SystemAction UInt64 BackendSession RemoteMethod (Option MessageType))) :
    let clientBackend := nekoRpcBackend codec codecId clientSerializer errorCode maxPendingCalls
    let serverBackend := nekoConnectionBackend codec codecId options table maxInflightRequests
      serializer message errorCode
    ∀ s, RpcSystem.run clientBackend serverBackend config actions
        (.new clientBackend { options := clientOptions }) = some s →
      actions.countP SystemAction.isAttempt < 2 ^ 64 →
      ∀ (c : ℕ) call result, s.client.calls[c]? = some call →
        call.phase = .done (.decoded result) → ∃ id batch delivery,
          s.Answers clientBackend serverBackend c call id batch delivery result := by
  intro clientBackend serverBackend s hrun hattempts c call result hcall hphase
  have hallocates := neko_allocates codec codecId errorCode clientSerializer maxPendingCalls
  obtain ⟨m, hinv⟩ := RpcSystem.inv_run hallocates
    (RpcSystem.new_inv serverBackend config { options := clientOptions })
    (by rw [show ({ options := clientOptions } : BackendClientContext).nextId.toNat = 0 from rfl]
        omega) hrun
  exact hinv.answered (neko_matched codec codecId errorCode serializer message clientSerializer
    errorCode options maxPendingCalls) hcall hphase

/-- A call of `p` that has the id 1. -/
def firstRequest : MessageType :=
  encodeFrame { plainRequest 0 with
    header := { kind := .request, flags := 0, codec := 1, id := 1 } }

/-- Its response. -/
def firstResponse : MessageType := encodeFrame (makeResponse 1 1 [] 0 [])

/-- Two clients call with the same id, and the first one gets its response. -/
def twoClients : List (SystemAction UInt64 BackendSession RemoteMethod (Option MessageType)) :=
  [.connect, .server .addEndpoint, .server (.receive 1 (some firstRequest) true),
    .server (.begin 1 firstRequest), .client (.start ⟨[112], some []⟩ false),
    .client (.ensureReceiver 0 (fun _ => .error RpcError.internalError.toErrorCode) id),
    .client (.attempt 0), .server (.receive 0 (some firstRequest) true),
    .server (.begin 0 firstRequest), .client (.send 0 (.ok firstRequest.length)),
    .server (.finish 1 0 (.called (.returned (.ok (some []))))), .server (.complete 0 1 true),
    .client (.receive 0 firstResponse), .client (.resume 0)]

/-- A call is done with what it decoded. -/
def Phase.isDecoded {Value : Type} : Phase Value → Bool
  | .done (.decoded _) => true
  | _ => false

theorem Phase.exists_of_isDecoded {Value : Type} {phase : Phase Value}
    (h : phase.isDecoded = true) : ∃ result, phase = .done (.decoded result) := by
  unfold isDecoded at h
  split at h
  · exact ⟨_, rfl⟩
  · cases h

theorem call_answered_twoClients :
    let clientBackend := nekoRpcBackend runLengthCodec 1 plainSerializer
      (fun _ => RpcError.internalError.toErrorCode) 8
    ∃ s call result, RpcSystem.run clientBackend singleServer plainConfig twoClients
        (.new clientBackend { options := { methodId := .disable } }) = some s ∧
      s.client.calls[0]? = some call ∧ call.phase = .done (.decoded result) ∧
      ∃ id batch delivery,
        s.Answers clientBackend singleServer 0 call id batch delivery result := by
  intro clientBackend
  have hdecoded : ((RpcSystem.run clientBackend singleServer plainConfig twoClients
      (.new clientBackend { options := { methodId := .disable } })).bind fun s =>
        s.client.calls[0]?).any (fun call => call.phase.isDecoded) = true := by
    decide +kernel +revert
  obtain ⟨call, hcall, hphase⟩ := (Option.any_eq_true _ _).mp hdecoded
  obtain ⟨s, hrun, hcall⟩ := Option.bind_eq_some_iff.mp hcall
  obtain ⟨result, hphase⟩ := Phase.exists_of_isDecoded hphase
  exact ⟨s, call, result, hrun, hcall, hphase, call_answered runLengthCodec 1 plainSerializer
    plainSerializer (fun _ => []) (fun _ => RpcError.internalError.toErrorCode)
    { methodId := .disable } {} 8 1 { maxEntries := 64 } plainConfig twoClients s hrun
    (by decide) 0 call result hcall hphase⟩

end NekoProto.Rpc
