import NekoProto.Rpc.Response

/-!
# A call and its attempts

`_callRemote`: the client encodes a request, waits for the response, and lets the backend's
recovery decide whether to send the request again. Each attempt meets a server in an arbitrary
state, an arbitrary handler and an arbitrary dispatcher, and its response may get lost.

The recovery is meant for requests the server refused while it resolved their method id. It goes
by the code in the error payload. `call_at_most_once`: as long as no other error has the value of
a method id error, only refused requests are sent again, so that a call invokes the handler at
most once. An error of a handler that does have such a value drops the client's table and is sent
again (`call_at_most_once_fails`).
-/

namespace NekoProto.Rpc

/-! ## The call loop -/

/-- A call: the method, the arguments, and the pieces of the backend it goes through. -/
structure Call (α : Type) where
  serializer : Serializer α
  message : ErrorCode → MessageType
  codecId : UInt8
  name : Name
  notification : Bool
  payload : MessageType

/-- What one attempt of a call meets: the server's state and its dispatcher, whether the response
is delivered, and what other calls do to the client's session in the meantime. -/
structure Turn where
  context : ServerContext
  session : PeerSession
  dispatch : DecodedRequest → Dispatch
  delivered : Bool
  meanwhile : PeerSession → PeerSession

/-- An attempt: what became of its request, the client's session before and after decoding the
response, the decoded result, and whether the request is sent again. -/
structure Attempt (α : Type) where
  outcome : Outcome
  before : PeerSession
  after : PeerSession
  result : Option (Except ErrorCode α)
  retried : Bool

section

variable {α : Type} (call : Call α)

/-- The loop of `_callRemote` from a delivered response on, with the client's session after it. -/
def Call.receive (context : ClientContext) (before : PeerSession) (retryCount : ℕ)
    (outcome : Outcome) (response : FrameParts) (id : UInt64) : PeerSession × Attempt α :=
  let (after, result) := decodeResponse call.serializer call.codecId before response id
  let decoded : Attempt α := {
    outcome := outcome
    before := before
    after := after
    result := some result
    retried := false }
  match result with
  | .ok _ => (after, decoded)
  | .error error =>
    let (recovered, retried) := recoverClientCall context after error retryCount
    (recovered, { decoded with retried := retried })

/-- One turn of the loop of `_callRemote`, with the client's context and session after it. -/
def Call.attempt (context : ClientContext) (session : PeerSession) (retryCount : ℕ)
    (turn : Turn) : ClientContext × PeerSession × Attempt α :=
  let (context, request) :=
    encodeRequest call.codecId context session call.name call.notification call.payload
  let (outcome, response) :=
    processRequest call.serializer call.message call.codecId turn.context turn.session
      turn.dispatch request
  let session := turn.meanwhile session
  let lost : Attempt α := {
    outcome := outcome
    before := session
    after := session
    result := none
    retried := false }
  if call.notification then (context, session, lost)
  else
    match (if turn.delivered then response else none) with
    | none => (context, session, lost)
    | some response =>
      (context, call.receive context session retryCount outcome response request.header.id)

/-- `_callRemote`: the attempts of a call, one for each turn the server takes. -/
def Call.run : List Turn → ClientContext → PeerSession → ℕ → List (Attempt α)
  | [], _, _, _ => []
  | turn :: turns, context, session, retryCount =>
    let (context, session, attempt) := call.attempt context session retryCount turn
    if attempt.retried then
      attempt :: Call.run turns context session (retryCount + 1)
    else [attempt]

end

/-- Whether the handler was invoked. -/
def Outcome.isInvoked : Outcome → Bool
  | .invoked _ => true
  | _ => false

/-- An error that does not come from the resolution of the method id does not have the value of
an error that does. -/
def Outcome.Unmistakable : Outcome → Prop
  | .rejected error => ¬MethodIdErrorValue error.value
  | .invoked (.error error) => ¬MethodIdErrorValue error.value
  | _ => True

instance : DecidablePred Outcome.Unmistakable
  | .ignored => isTrue trivial
  | .refused _ => isTrue trivial
  | .rejected error => inferInstanceAs (Decidable ¬MethodIdErrorValue error.value)
  | .invoked (.error error) => inferInstanceAs (Decidable ¬MethodIdErrorValue error.value)
  | .invoked (.value _) => isTrue trivial

/-- **At most once.** Only a request refused at the resolution of its method id is sent again, the
handler is invoked at most once, and an error it returns leaves the client's table alone. -/
structure AtMostOnce {α : Type} (attempts : List (Attempt α)) : Prop where
  retried_refused : ∀ a ∈ attempts, a.retried = true → ∃ error, a.outcome = .refused error
  invoked_le : attempts.countP (fun a => a.outcome.isInvoked) ≤ 1
  table_kept : ∀ a ∈ attempts, ∀ error, a.outcome = .invoked (.error error) →
    a.after.methodIdEnabled = a.before.methodIdEnabled ∧
      a.after.remoteMethodTable = a.before.remoteMethodTable

/-! ## Responses -/

section

variable {α : Type} (serializer : Serializer α) (message : ErrorCode → MessageType)
  (codecId : UInt8)

theorem has_error {header : Header} (h : header.flags = Flag.error.bit) :
    header.has .error = true := by
  unfold Header.has
  rw [h]
  decide

/-- The error a client reads from an error response is an internal one, or one with the same
value. -/
theorem decodeError_makeErrorResponse (id : UInt64) (error : ErrorCode)
    (extensions : ExtensionMap) :
    serializer.decodeError
        (makeErrorResponse serializer message codecId id error extensions).payload = none ∨
      ∃ error', serializer.decodeError
          (makeErrorResponse serializer message codecId id error extensions).payload =
        some error' ∧ error'.code = error.value := by
  unfold makeErrorResponse
  simp only
  split
  · exact Or.inl serializer.decodeError_nil
  · rename_i payload hpayload
    exact Or.inr (serializer.decodeError_encodeError _ _ hpayload)

/-- An error response whose value is not that of a method id error leaves the session alone and is
not taken for a method id error. -/
theorem decodeResponse_makeErrorResponse {error : ErrorCode} (h : ¬MethodIdErrorValue error.value)
    (session : PeerSession) (id : UInt64) (extensions : ExtensionMap) :
    ∃ ec, decodeResponse serializer codecId session
        (makeErrorResponse serializer message codecId id error extensions) id =
      (session, .error ec) ∧ isMethodIdError ec = false := by
  obtain ⟨hheader, -⟩ := makeErrorResponse_header serializer message codecId id error extensions
  unfold decodeResponse
  rw [hheader, if_neg (by simp), if_neg (by simp), if_pos (has_error rfl)]
  rcases decodeError_makeErrorResponse serializer message codecId id error extensions with
    hnone | ⟨error', hsome, hcode⟩
  · rw [hnone]
    exact ⟨_, rfl, by decide⟩
  · have hec : isMethodIdError ⟨.rpc, error'.code⟩ = false := by
      simpa [isMethodIdError, hcode] using h
    rw [hsome]
    simp only [hec]
    exact ⟨_, rfl, hec⟩

/-- A response to what a handler returned, likewise. -/
theorem decodeResponse_methodReturn {result : HandlerResult}
    (h : ∀ error, result = .error error → ¬MethodIdErrorValue error.value)
    (session : PeerSession) (id : UInt64) :
    (decodeResponse serializer codecId session
        (methodReturn serializer message codecId id result) id).1 = session ∧
      ∀ ec, (decodeResponse serializer codecId session
          (methodReturn serializer message codecId id result) id).2 = .error ec →
        isMethodIdError ec = false := by
  match result with
  | .error error =>
    obtain ⟨ec, heq, hec⟩ :=
      decodeResponse_makeErrorResponse serializer message codecId (h error rfl) session id []
    rw [methodReturn, heq]
    exact ⟨rfl, fun ec' h' => Except.error.inj h' ▸ hec⟩
  | .value none =>
    have hinternal : ¬MethodIdErrorValue RpcError.internalError.toErrorCode.value := by decide
    obtain ⟨ec, heq, hec⟩ :=
      decodeResponse_makeErrorResponse serializer message codecId hinternal session id []
    rw [methodReturn, heq]
    exact ⟨rfl, fun ec' h' => Except.error.inj h' ▸ hec⟩
  | .value (some payload) =>
    unfold decodeResponse methodReturn makeResponse
    rw [if_neg (by simp), if_neg (by simp), if_neg (by simp [Header.has])]
    split
    · exact ⟨rfl, fun ec h' => Except.error.inj h' ▸ by decide⟩
    · exact ⟨rfl, fun ec h' => absurd h' (by simp)⟩

/-- What a response stands for. -/
theorem processRequest_response {context : ServerContext} {session : PeerSession}
    {dispatch : DecodedRequest → Dispatch} {parts : FrameParts} {outcome : Outcome}
    {response : FrameParts}
    (h : processRequest serializer message codecId context session dispatch parts =
      (outcome, some response)) :
    (∃ error, outcome = .refused error) ∨
      (∃ error, outcome = .rejected error ∧ response =
        makeErrorResponse serializer message codecId parts.header.id error []) ∨
      ∃ result, outcome = .invoked result ∧ response =
        methodReturn serializer message codecId parts.header.id result := by
  unfold processRequest at h
  simp only at h
  split at h
  · exact absurd h (by simp)
  · exact absurd h (by simp)
  · exact Or.inl ⟨_, (congrArg Prod.fst h).symm⟩
  · split at h <;> split_ifs at h <;> cases h
    · exact Or.inr (Or.inl ⟨_, rfl, rfl⟩)
    · exact Or.inr (Or.inr ⟨_, rfl, rfl⟩)

/-- An invoked handler's result is what the response carries. -/
theorem processRequest_invoked {context : ServerContext} {session : PeerSession}
    {dispatch : DecodedRequest → Dispatch} {parts : FrameParts} {result : HandlerResult}
    {response : Option FrameParts}
    (h : processRequest serializer message codecId context session dispatch parts =
      (.invoked result, response)) (hexpects : expectsResponse parts.header = true) :
    response = some (methodReturn serializer message codecId parts.header.id result) := by
  unfold processRequest at h
  simp only [hexpects, if_true] at h
  split at h
  · exact absurd h (by simp)
  · exact absurd h (by simp)
  · exact absurd h (by simp)
  · split at h <;> cases h
    rfl

end

/-! ## Attempts -/

section

variable {α : Type} (call : Call α)

theorem recoverClientCall_retried {context : ClientContext} {session : PeerSession}
    {error : ErrorCode} {retryCount : ℕ}
    (h : (recoverClientCall context session error retryCount).2 = true) :
    isMethodIdError error = true ∧ retryCount = 0 := by
  unfold recoverClientCall at h
  split_ifs at h with hoff
  all_goals
    simp only [not_or, not_not, Bool.not_eq_true'] at hoff
    exact ⟨by simpa using hoff.2.2.2, hoff.2.1⟩

/-- A response that is not taken for a method id error ends the call. -/
theorem receive_of_not_methodIdError {context : ClientContext} {before : PeerSession}
    {retryCount : ℕ} {outcome : Outcome} {response : FrameParts} {id : UInt64}
    (hsession : (decodeResponse call.serializer call.codecId before response id).1 = before)
    (hresult : ∀ ec,
      (decodeResponse call.serializer call.codecId before response id).2 = .error ec →
        isMethodIdError ec = false) :
    (call.receive context before retryCount outcome response id).2.retried = false ∧
      (call.receive context before retryCount outcome response id).2.after = before := by
  unfold Call.receive
  generalize decodeResponse call.serializer call.codecId before response id = decoded
    at hsession hresult ⊢
  obtain ⟨after, result⟩ := decoded
  obtain rfl : after = before := hsession
  match result with
  | .ok value => exact ⟨rfl, rfl⟩
  | .error ec =>
    refine ⟨?_, rfl⟩
    show (recoverClientCall context after ec retryCount).2 = false
    by_contra hretried
    have := (recoverClientCall_retried (Bool.not_eq_false _ ▸ hretried)).1
    exact absurd this (by rw [hresult ec rfl]; simp)

theorem receive_outcome (context : ClientContext) (before : PeerSession) (retryCount : ℕ)
    (outcome : Outcome) (response : FrameParts) (id : UInt64) :
    (call.receive context before retryCount outcome response id).2.outcome = outcome ∧
      (call.receive context before retryCount outcome response id).2.before = before := by
  unfold Call.receive
  rcases decodeResponse call.serializer call.codecId before response id with ⟨after, result⟩
  cases result <;> exact ⟨rfl, rfl⟩

/-- What an attempt must be: sent again only if refused, with the session as it was unless it was
refused. -/
def Attempt.Sound {α : Type} (attempt : Attempt α) : Prop :=
  (∃ error, attempt.outcome = .refused error) ∨
    (attempt.retried = false ∧ attempt.after = attempt.before)

/-- **One attempt.** If no other error has the value of a method id error, only a refused request
is sent again, and every other one leaves the session alone. -/
theorem attempt_sound (context : ClientContext) (session : PeerSession) (retryCount : ℕ)
    (turn : Turn)
    (h : (call.attempt context session retryCount turn).2.2.outcome.Unmistakable) :
    (call.attempt context session retryCount turn).2.2.Sound := by
  revert h
  unfold Call.attempt
  rcases encodeRequest call.codecId context session call.name call.notification call.payload with
    ⟨context', request⟩
  simp only
  cases hprocess : processRequest call.serializer call.message call.codecId turn.context
    turn.session turn.dispatch request with
  | mk outcome response =>
    simp only
    split
    · exact fun _ => Or.inr ⟨rfl, rfl⟩
    split
    · exact fun _ => Or.inr ⟨rfl, rfl⟩
    rename_i response' hresponse
    intro h
    obtain ⟨houtcome, hbefore⟩ := receive_outcome call context' (turn.meanwhile session)
      retryCount outcome response' request.header.id
    have hsome : response = some response' := by
      split_ifs at hresponse
      exact hresponse
    rw [hsome] at hprocess
    unfold Attempt.Sound
    simp only [houtcome, hbefore] at h ⊢
    rcases processRequest_response _ _ _ hprocess with
      hrefused | ⟨error, rfl, rfl⟩ | ⟨result, rfl, rfl⟩
    · exact Or.inl hrefused
    · obtain ⟨ec, heq, hec⟩ := decodeResponse_makeErrorResponse call.serializer call.message
        call.codecId h (turn.meanwhile session) request.header.id []
      refine Or.inr (receive_of_not_methodIdError call ?_ fun ec' h' => ?_)
      · rw [heq]
      · rw [heq] at h'
        exact Except.error.inj h' ▸ hec
    · obtain ⟨hsession, hresult⟩ := decodeResponse_methodReturn call.serializer call.message
        call.codecId (fun error (herror : result = .error error) => by rw [herror] at h; exact h)
        (turn.meanwhile session) request.header.id
      exact Or.inr (receive_of_not_methodIdError call hsession hresult)

/-! ## Misread errors -/

/-- An error response with the value of a method id error and no table drops the client's table. -/
theorem decodeResponse_misread {error : ErrorCode} (h : MethodIdErrorValue error.value)
    (hencodes : (call.serializer.encodeError
      { code := error.value, message := call.message error }).isSome) (session : PeerSession)
    (id : UInt64) :
    decodeResponse call.serializer call.codecId session
        (makeErrorResponse call.serializer call.message call.codecId id error []) id =
      ({ session with
          methodIdEnabled := false
          remoteMethodTable := session.remoteMethodTable.clear }, .error ⟨.rpc, error.value⟩) := by
  obtain ⟨payload, hpayload⟩ := Option.isSome_iff_exists.mp hencodes
  obtain ⟨error', hdecode, hcode⟩ := call.serializer.decodeError_encodeError _ _ hpayload
  obtain ⟨hheader, hextensions⟩ :=
    makeErrorResponse_header call.serializer call.message call.codecId id error []
  have hpart : (makeErrorResponse call.serializer call.message call.codecId id error []).payload =
      payload := by
    unfold makeErrorResponse
    simp only [hpayload]
    rfl
  have hec : isMethodIdError ⟨.rpc, error.value⟩ = true := by simpa [isMethodIdError] using h
  unfold decodeResponse
  rw [hheader, if_neg (by simp), if_neg (by simp), if_pos (has_error rfl), hpart, hdecode,
    hextensions]
  simp only [hcode, hec]
  rfl

theorem encodeRequest_spec (codecId : UInt8) (context : ClientContext) (session : PeerSession)
    (name : Name) (notification : Bool) (payload : MessageType) :
    (encodeRequest codecId context session name notification payload).1.options =
        context.options ∧
      (encodeRequest codecId context session name notification payload).2.header.kind =
        if notification then .notify else .request := by
  have hid : (context.allocateId notification).1.options = context.options := by
    unfold ClientContext.allocateId
    split_ifs <;> rfl
  unfold encodeRequest
  simp only
  split <;> exact ⟨hid, rfl⟩

/-- **A misread error.** A handler's error with the value of a method id error, once delivered,
drops the client's table, and a first request is sent again in the default mode. -/
theorem attempt_misread {context : ClientContext} {session : PeerSession} {retryCount : ℕ}
    {turn : Turn} {error : ErrorCode} (hcall : call.notification = false)
    (hdelivered : turn.delivered = true) (h : MethodIdErrorValue error.value)
    (hencodes : (call.serializer.encodeError
      { code := error.value, message := call.message error }).isSome)
    (houtcome : (call.attempt context session retryCount turn).2.2.outcome =
      .invoked (.error error)) :
    let attempt := (call.attempt context session retryCount turn).2.2
    attempt.after = { attempt.before with
        methodIdEnabled := false
        remoteMethodTable := attempt.before.remoteMethodTable.clear } ∧
      (context.options.retryMethodIdErrorOnce = true → context.options.methodId = .auto →
        retryCount = 0 → attempt.retried = true) := by
  intro attempt
  obtain ⟨hoptions, hkind⟩ := encodeRequest_spec call.codecId context session call.name
    call.notification call.payload
  revert houtcome
  show _ → attempt.after = _ ∧ _
  unfold attempt Call.attempt
  generalize encodeRequest call.codecId context session call.name call.notification call.payload =
    encoded at hoptions hkind ⊢
  obtain ⟨context', request⟩ := encoded
  rw [hcall, if_neg Bool.false_ne_true] at hkind
  simp only at hoptions hkind ⊢
  cases hprocess : processRequest call.serializer call.message call.codecId turn.context
    turn.session turn.dispatch request with
  | mk outcome response =>
    simp only [hcall, Bool.false_eq_true, if_false, hdelivered, if_true]
    cases response with
    | none =>
      intro (hinvoked : outcome = _)
      rw [hinvoked] at hprocess
      exact absurd (processRequest_invoked _ _ _ hprocess (by simp [expectsResponse, hkind]))
        (by simp)
    | some response =>
      intro (hinvoked : (call.receive _ _ _ _ _ _).2.outcome = _)
      rw [(receive_outcome call _ _ _ _ _ _).1] at hinvoked
      rw [hinvoked] at hprocess
      have hresponse := Option.some.inj
        (processRequest_invoked _ _ _ hprocess (by simp [expectsResponse, hkind]))
      have hdecode := decodeResponse_misread call h hencodes (turn.meanwhile session)
        request.header.id
      rw [hresponse, methodReturn]
      unfold Call.receive
      simp only [hdecode]
      refine ⟨trivial, fun hretry hauto hcount => ?_⟩
      unfold recoverClientCall
      have hon : ¬((!context'.options.retryMethodIdErrorOnce) = true ∨ retryCount ≠ 0 ∨
          (!context'.options.methodId.enabled) = true ∨
            (!isMethodIdError ⟨.rpc, error.value⟩) = true) := by
        simp [hoptions, hretry, hauto, hcount, FeatureMode.enabled, isMethodIdError, h]
      rw [if_neg hon, if_pos (by simp), if_neg (by simp [hoptions, hauto])]

/-! ## Runs -/

theorem run_cons (turn : Turn) (turns : List Turn) (context : ClientContext)
    (session : PeerSession) (retryCount : ℕ) :
    ∃ (attempt : Attempt α) (rest : List (Attempt α)),
      call.run (turn :: turns) context session retryCount = attempt :: rest ∧
      attempt = (call.attempt context session retryCount turn).2.2 ∧
      ((attempt.retried = false ∧ rest = []) ∨
        (attempt.retried = true ∧ ∃ context' session',
          rest = call.run turns context' session' (retryCount + 1))) := by
  rw [Call.run]
  rcases call.attempt context session retryCount turn with ⟨context', session', attempt⟩
  cases hretried : attempt.retried with
  | false => exact ⟨attempt, [], by simp [hretried], rfl, Or.inl ⟨hretried, rfl⟩⟩
  | true =>
    exact ⟨attempt, _, by simp only [hretried, if_true], rfl,
      Or.inr ⟨hretried, context', session', rfl⟩⟩

/-- **A whole call.** -/
theorem run_atMostOnce (turns : List Turn) : ∀ context session retryCount,
    (∀ a ∈ call.run turns context session retryCount, a.outcome.Unmistakable) →
    AtMostOnce (call.run turns context session retryCount) := by
  induction turns with
  | nil =>
    intro context session retryCount _
    exact ⟨fun a ha => absurd ha List.not_mem_nil, Nat.zero_le _,
      fun a ha => absurd ha List.not_mem_nil⟩
  | cons turn turns ih =>
    intro context session retryCount h
    obtain ⟨attempt, rest, hrun, hattempt, hrest⟩ :=
      run_cons call turn turns context session retryCount
    rw [hrun] at h ⊢
    have hsound : attempt.Sound := by
      have := h attempt List.mem_cons_self
      rw [hattempt] at this ⊢
      exact attempt_sound call context session retryCount turn this
    have hkept : ∀ error, attempt.outcome = .invoked (.error error) →
        attempt.after.methodIdEnabled = attempt.before.methodIdEnabled ∧
          attempt.after.remoteMethodTable = attempt.before.remoteMethodTable := by
      intro error herror
      rcases hsound with ⟨_, hrefused⟩ | ⟨_, heq⟩
      · rw [hrefused] at herror
        exact absurd herror (by simp)
      · rw [heq]
        exact ⟨rfl, rfl⟩
    rcases hrest with ⟨hretried, rfl⟩ | ⟨hretried, context', session', rfl⟩
    · refine ⟨fun a ha hr => ?_, List.countP_le_length, fun a ha => ?_⟩
      · rw [List.mem_singleton.mp ha, hretried] at hr
        exact absurd hr (by simp)
      · rw [List.mem_singleton.mp ha]
        exact hkept
    · -- an attempt that is followed by another was refused, so it did not invoke the handler
      obtain ⟨hrefused, hle, htable⟩ :=
        ih context' session' (retryCount + 1) fun a ha => h a (List.mem_cons_of_mem _ ha)
      obtain ⟨error, herror⟩ : ∃ error, attempt.outcome = .refused error := by
        rcases hsound with hr | ⟨hr, _⟩
        · exact hr
        · exact absurd (hretried.symm.trans hr) (by simp)
      refine ⟨?_, ?_, ?_⟩
      · intro a ha hr
        rcases List.mem_cons.mp ha with rfl | ha
        · exact ⟨error, herror⟩
        · exact hrefused a ha hr
      · rw [List.countP_cons_of_neg (by rw [herror]; simp [Outcome.isInvoked])]
        exact hle
      · intro a ha
        rcases List.mem_cons.mp ha with rfl | ha
        · exact hkept
        · exact htable a ha

end

/-- **At most once.** For every call, every server and dispatcher it meets in each of its attempts,
and every state of the client: if no error other than that of the method id's resolution has the
value of a method id error, only requests refused there are sent again, the handler is invoked at
most once, and its errors leave the client's table alone. -/
theorem call_at_most_once {α : Type} (call : Call α) (turns : List Turn) (context : ClientContext)
    (session : PeerSession)
    (h : ∀ a ∈ call.run turns context session 0, a.outcome.Unmistakable) :
    AtMostOnce (call.run turns context session 0) :=
  run_atMostOnce call turns context session 0 h

/-! ## A handler error taken for a method id error -/

/-- A serializer of byte strings, which writes an error as four bytes for the code and the message
after them. -/
def plainSerializer : Serializer MessageType where
  encodeError error := some (integerValue 4 error.code.toUInt32.toNat ++ error.message)
  decodeError payload :=
    if payload.length < 4 then none
    else some { code := (UInt32.ofNat (readInteger 4 payload 0)).toInt32
                message := payload.drop 4 }
  decodeValue payload := some payload
  decodeError_encodeError := by
    intro error payload h
    obtain rfl := Option.some.inj h
    have hcode : readInteger 4 (integerValue 4 error.code.toUInt32.toNat ++ error.message) 0 =
        error.code.toUInt32.toNat := by
      have hlt : error.code.toUInt32.toNat < 256 ^ 4 := error.code.toUInt32.toNat_lt
      have hread := readInteger_append hlt List.length_nil error.message
      rwa [List.nil_append] at hread
    refine ⟨_, if_neg (by simp), ?_⟩
    simp only [hcode, UInt32.ofNat_toNat]
    exact Int32.toInt32_toUInt32 _
  decodeError_nil := rfl

/-- A call of the method `p`, which has no arguments and returns a byte string. -/
def pingCall : Call MessageType where
  serializer := plainSerializer
  message _ := []
  codecId := 0
  name := [112]
  notification := false
  payload := []

/-- A server with the method `p`, whose handler fails with a given error. -/
def failingTurn (error : ErrorCode) : Turn where
  context := makeServerContext {} [⟨[112], []⟩]
  session := { remoteMethodTable := { maxEntries := 64 } }
  dispatch _ := .invoked (.error error)
  delivered := true
  meanwhile := id

theorem call_at_most_once_ping :
    AtMostOnce (pingCall.run [failingTurn ⟨.other "app", 2⟩, failingTurn ⟨.other "app", 2⟩]
      (makeClientContext {}) (makeClientPeerSession (makeClientContext {})) 0) :=
  call_at_most_once _ _ _ _ (by decide +kernel)

theorem call_at_most_once_fails :
    ¬∀ (call : Call MessageType) (turns : List Turn) (context : ClientContext)
        (session : PeerSession), AtMostOnce (call.run turns context session 0) := by
  intro h
  have hle := (h pingCall [failingTurn ⟨.other "app", 9⟩, failingTurn ⟨.other "app", 9⟩]
    (makeClientContext {}) (makeClientPeerSession (makeClientContext {}))).invoked_le
  exact absurd hle (by decide +kernel)

end NekoProto.Rpc
