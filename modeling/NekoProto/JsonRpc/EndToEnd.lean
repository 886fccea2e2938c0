import NekoProto.JsonRpc.RequestRoundTrip
import NekoProto.Rpc.EndToEnd

/-!
# From the call to the method and back, over JSON-RPC

The client and the server of `JsonRpcBackend` fit together like those of `NekoRpcBackend`, so what
holds of every run of a client, a server and the network holds over JSON-RPC too
(`remoteCall_answered`).

The ids of JSON-RPC begin with 0. The errors of messages that are no requests have the id null,
which no call waits for.
-/

namespace NekoProto.JsonRpc

open Binary Parsing Json JsonValue
open Rpc (MessageType)

/-! ## The backends -/

/-- `JsonRpcBackend`, as a client uses it. It has no session, needs no preparation and recovers no
call. -/
def jsonRpcClientBackend (text : JsonText) (nullForEmpty : Bool) (conv : Conversions) (env : Env)
    (maxPendingCalls : ℕ) :
    Rpc.ClientBackend JsonRpcId ClientContext Unit RemoteMethod (Σ R : RawReturnType, R.Value) where
  maxPendingCalls := maxPendingCalls
  makeClientPeerSession _ := ()
  ensureClientReady _ session _ := (session, .ok ())
  encodeRequest context _ method notification :=
    encodeRequest nullForEmpty conv text context method notification
  decodeResponse context session method buffer expectedId :=
    (session, (decodeResponse text conv env method.returns context.options buffer expectedId).map
      fun value => ⟨method.returns, value⟩)
  recoverClientCall _ session _ _ := (session, false)
  validateMessage context message :=
    if validateMessage context.options message then .ok ()
    else .error JsonRpcError.messageToolLarge.toErrorCode
  handleClientControl _ session _ := (session, false)
  responseId message := (text.parse message).bind responseId

/-- `JsonRpcBackend`, as a server uses it. It has no cancellations and no control messages. -/
def jsonRpcConnectionBackend (text : JsonText) (nullForEmpty : Bool) (conv : Conversions)
    (env : Env) (message : Rpc.ErrorCode → Bytes) (options : Options)
    (maxInflightRequests : ℕ) :
    Rpc.ConnectionBackend JsonRpcId Unit (DecodedRequest conv env) JsonValue
      (Σ R : RawReturnType, R.Value) where
  toServerBackend := jsonRpcBackend text nullForEmpty conv env message options
  makeServerPeerSession := ()
  cancelId _ := none
  handleServerControl session _ := .ok (session, none)
  maxInflightRequests := maxInflightRequests

/-- The place of an id among those of requests, from 1 on. -/
def JsonRpcId.index : JsonRpcId → ℕ
  | .integer value => value.toNat + 1
  | _ => 0

section

variable {text : JsonText} {nullForEmpty : Bool} {conv : Conversions} {env : Env}
  {message : Rpc.ErrorCode → Bytes} {options : Options}

/-! ## Responses -/

/-- An id is no double. -/
theorem JsonRpcId.read_mapDoubles (f : BitVec 64 → BitVec 64) (v : JsonValue) (old : JsonRpcId) :
    JsonRpcId.read (mapDoubles f v) old = JsonRpcId.read v old := by
  cases v <;> rfl

theorem responseId_mapDoubles (f : BitVec 64 → BitVec 64) (v : JsonValue) :
    responseId (mapDoubles f v) = responseId v := by
  cases v with
  | object members =>
    unfold mapDoubles responseId
    simp only [findMember_mapDoubles]
    cases findMember idName members with
    | none => rfl
    | some w => simp only [Option.map_some, JsonRpcId.read_mapDoubles]
  | _ => rfl

/-- **The id of a message that a server encodes** is that of one of its responses. -/
theorem responseId_encodeResponses {responses : List JsonValue} {batch : Bool} {id : JsonRpcId}
    (h : (text.parse (encodeResponses text options responses batch)).bind responseId = some id) :
    ∃ response ∈ responses, responseIdOf response = id := by
  have hnil : (text.parse []).bind responseId = none := by rw [text.parse_nil, Option.bind_none]
  unfold encodeResponses at h
  dsimp only at h
  split_ifs at h
  · cases hnil.symm.trans h
  obtain _ | ⟨front, rest⟩ := responses
  · cases hnil.symm.trans h
  have hsent : ((text.print (if batch then .array (front :: rest) else front)).bind
      text.parse).bind responseId = some id := by
    have hbuffer : encodeBuffer text (front :: rest) batch =
      (text.print (if batch then .array (front :: rest) else front)).getD [] := rfl
    rw [hbuffer] at h
    cases hprint : text.print (if batch then .array (front :: rest) else front) with
    | none =>
      rw [hprint] at h
      cases hnil.symm.trans h
    | some bytes =>
      rw [hprint] at h
      exact h
  rw [text.parse_print] at hsent
  obtain ⟨v, hv, hid⟩ := Option.bind_eq_some_iff.mp hsent
  split_ifs at hv
  · obtain rfl := Option.some.inj hv
    rw [responseId_mapDoubles] at hid
    cases hid
  · obtain rfl := Option.some.inj hv
    rw [responseId_mapDoubles] at hid
    refine ⟨front, List.mem_cons_self, ?_⟩
    unfold responseIdOf
    rw [hid]
    rfl

/-! ## Requests -/

/-- A message that is refused is answered with the id null. -/
theorem refuse_ids (error : JsonRpcError) {response : JsonValue}
    (h : response ∈ (refuse text nullForEmpty conv env message error).responses) :
    responseIdOf response = .monostate := by
  have hids : (refuse text nullForEmpty conv env message error).responses.map responseIdOf =
    [.monostate] := appendProtocolError_ids .monostate error.toErrorCode
  have hmem := List.mem_map_of_mem (f := responseIdOf) h
  rw [hids] at hmem
  exact List.mem_singleton.mp hmem

/-- **The backends fit together.** -/
theorem json_matched (maxPendingCalls : ℕ) :
    Rpc.Matched (jsonRpcClientBackend text nullForEmpty conv env maxPendingCalls)
      (jsonRpcBackend text nullForEmpty conv env message options) JsonRpcId.index where
  decoded context session method notification context' request id peer decoded hencode hdecode := by
    obtain ⟨hallocate, v, hwrite, hprint⟩ := encodeRequest_eq_ok hencode
    obtain rfl := Option.some.inj hdecode
    rcases @decodeIncoming_written text nullForEmpty conv env message method id v request options
      hwrite hprint with ⟨-, error, hrefused⟩ | ⟨-, received, hreceived, -, hmethod⟩
    · rw [hrefused]
      refine ⟨fun response hresponse => Or.inl ?_, List.forall_mem_nil _⟩
      exact congrArg JsonRpcId.index (refuse_ids error hresponse)
    · rw [hreceived]
      refine ⟨List.forall_mem_nil _, fun request' hmem hexpects => ?_⟩
      obtain rfl := List.mem_singleton.mp hmem
      refine ⟨?_, congrArg RequestMethod.id hmethod⟩
      -- a notification has no id, and expects no response
      have hid : request'.method.id = (context.allocateId notification).2 := by
        rw [hmethod, hallocate]
      cases notification with
      | false => rfl
      | true =>
        have hnone : expectsResponse request' = false := by
          unfold expectsResponse
          rw [hid]
          rfl
        cases hnone.symm.trans hexpects
  encoded _ _ _ _ h := responseId_encodeResponses h

/-- **A client allocates its ids** one after the other, from 0 to the last but one. -/
theorem json_allocates (maxPendingCalls : ℕ) :
    (jsonRpcClientBackend text nullForEmpty conv env maxPendingCalls).Allocates
      (fun context => context.nextId.toNat) JsonRpcId.index (2 ^ 64 - 1) := by
  have hnext : ∀ context : ClientContext, context.nextId.toNat < 2 ^ 64 - 1 →
      (context.nextId + 1).toNat = context.nextId.toNat + 1 := by
    intro context hlt
    have hone : (1 : BitVec 64).toNat = 1 := rfl
    rw [BitVec.toNat_add, hone]
    exact Nat.mod_eq_of_lt (by omega)
  have hcontext : ∀ (context : ClientContext) (method : RemoteMethod) (notification : Bool),
      (encodeRequest nullForEmpty conv text context method notification).1 =
        (context.allocateId notification).1 := by
    intro context method notification
    unfold encodeRequest
    dsimp only
    split
    · rfl
    · split_ifs <;> rfl
  refine ⟨fun context session method notification hlt => ?_,
    fun context session method context' request id hlt hencode => ?_⟩
  · show context.nextId.toNat ≤
        (encodeRequest nullForEmpty conv text context method notification).1.nextId.toNat ∧
      (encodeRequest nullForEmpty conv text context method notification).1.nextId.toNat ≤
        context.nextId.toNat + 1
    rw [hcontext]
    cases notification with
    | true => exact ⟨le_rfl, Nat.le_succ _⟩
    | false =>
      have hnumber := hnext context hlt
      exact ⟨hnumber ▸ Nat.le_succ _, hnumber.le⟩
  · have hsent : encodeRequest nullForEmpty conv text context method false =
      (context', .ok (request, id)) := hencode
    obtain ⟨hallocate, -⟩ := encodeRequest_eq_ok hsent
    cases hallocate
    exact ⟨rfl, hnext context hlt⟩

end

/-! ## From the call to the method and back -/

/-- **End to end, over JSON-RPC.** Take a client and a server of any options, and any run of the two
with the network between them and with other clients, in which fewer than 2^64 attempts begin. A
call that is done with a decoded result has decoded it from the responses of a batch on its own
connection, and that batch is what the server decoded from the request that the call sent under its
own id. -/
theorem remoteCall_answered (text : JsonText) (nullForEmpty : Bool) (conv : Conversions)
    (env : Env) (message : Rpc.ErrorCode → Bytes) (clientOptions options : Options)
    (maxPendingCalls maxInflightRequests : ℕ)
    (config : Rpc.DispatcherConfig (DecodedRequest conv env))
    (actions : List (Rpc.SystemAction JsonRpcId Unit RemoteMethod (Σ R : RawReturnType, R.Value))) :
    let clientBackend := jsonRpcClientBackend text nullForEmpty conv env maxPendingCalls
    let serverBackend := jsonRpcConnectionBackend text nullForEmpty conv env message options
      maxInflightRequests
    ∀ s, Rpc.RpcSystem.run clientBackend serverBackend config actions
        (.new clientBackend { options := clientOptions }) = some s →
      actions.countP Rpc.SystemAction.isAttempt < 2 ^ 64 →
      ∀ (c : ℕ) call result, s.client.calls[c]? = some call →
        call.phase = .done (.decoded result) → ∃ id batch delivery,
          s.Answers clientBackend serverBackend c call id batch delivery result := by
  intro clientBackend serverBackend s hrun hattempts c call result hcall hphase
  have hzero : ({ options := clientOptions } : ClientContext).nextId.toNat = 0 := rfl
  obtain ⟨m, hinv⟩ := Rpc.RpcSystem.inv_run (json_allocates maxPendingCalls)
    (Rpc.RpcSystem.new_inv serverBackend config { options := clientOptions })
    (by rw [hzero]; omega) hrun
  exact hinv.answered (json_matched maxPendingCalls) hcall hphase

/-- A call of `m()`. -/
def plainCall : RemoteMethod where
  name := [0x6D]
  signature := { args := .nil, argNames := [] }
  returns := none
  params := ()

/-- A server with the method `m`. -/
def plainConfig : Rpc.DispatcherConfig (DecodedRequest noConversions Env.zero) where
  handlers name := if name = [0x6D] then some (handlerOf plainCall.signature) else none
  maxActive := 4096
  maxQueued := 4096
  canceled := ⟨.other "io", 1⟩

/-- The first request for `m`, with the id 0. -/
def firstRequest : MessageType :=
  (encodeRequest true noConversions TextWriter.plainText {} plainCall false).2.toOption.elim []
    Prod.fst

/-- Its response. -/
def firstResponse : MessageType :=
  encodeResponses TextWriter.plainText {} [success true noConversions none (.integer 0) ()] false

/-- Two clients call with the same id, and the first one gets its response. -/
def twoClients :
    List (Rpc.SystemAction JsonRpcId Unit RemoteMethod (Σ R : RawReturnType, R.Value)) :=
  [.connect, .server .addEndpoint, .server (.receive 1 (some firstRequest) true),
    .server (.begin 1 firstRequest), .client (.start plainCall false),
    .client (.ensureReceiver 0 (fun _ => .ok []) id), .client (.attempt 0),
    .server (.receive 0 (some firstRequest) true), .server (.begin 0 firstRequest),
    .client (.send 0 (.ok firstRequest.length)),
    .server (.finish 1 0 (.called (.returned (.ok ⟨none, ()⟩)))), .server (.complete 0 1 true),
    .client (.receive 0 firstResponse), .client (.resume 0)]

theorem remoteCall_answered_twoClients :
    let clientBackend := jsonRpcClientBackend TextWriter.plainText true noConversions Env.zero 8
    let serverBackend := jsonRpcConnectionBackend TextWriter.plainText true noConversions Env.zero
      (fun _ => []) {} 8
    ∃ s call result, Rpc.RpcSystem.run clientBackend serverBackend plainConfig twoClients
        (.new clientBackend {}) = some s ∧
      s.client.calls[0]? = some call ∧ call.phase = .done (.decoded result) ∧
      ∃ id batch delivery,
        s.Answers clientBackend serverBackend 0 call id batch delivery result := by
  intro clientBackend serverBackend
  have hdecoded : ((Rpc.RpcSystem.run clientBackend serverBackend plainConfig twoClients
      (.new clientBackend {})).bind fun s =>
        s.client.calls[0]?).any (fun call => call.phase.isDecoded) = true := by
    decide +kernel +revert
  obtain ⟨call, hcall, hphase⟩ := (Option.any_eq_true _ _).mp hdecoded
  obtain ⟨s, hrun, hcall⟩ := Option.bind_eq_some_iff.mp hcall
  obtain ⟨result, hphase⟩ := Rpc.Phase.exists_of_isDecoded hphase
  exact ⟨s, call, result, hrun, hcall, hphase, remoteCall_answered TextWriter.plainText true
    noConversions Env.zero (fun _ => []) {} {} 8 8 plainConfig twoClients s hrun (by decide) 0 call
    result hcall hphase⟩

end NekoProto.JsonRpc
