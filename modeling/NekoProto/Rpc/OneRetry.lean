import NekoProto.Rpc.CallOnce
import NekoProto.Rpc.DeltaRefinement
import NekoProto.Rpc.StaleMethodId

/-!
# One retry is enough

A call whose request the server refuses for its method id is sent again once. `one_retry_suffices`:
whatever the client's table was, and whatever had happened to the server's, the second request
reaches the dispatcher with the name and the arguments of the call, if the server's table has not
changed since. With `call_at_most_once` a call is then neither lost nor doubled.

1. An error response leaves the client with method ids turned off, or with the table that the server
   sent along (`decodeResponse_methodIdError`).
2. Without method ids the request carries the name. With the table of the server it carries an id
   that resolves to the name (`decodeIncoming_second`).
3. A refusal is sent again, if the options of the client allow it (`attempt_refused`).
-/

namespace NekoProto.Rpc

/-! ## What the client has after a refusal -/

section

variable {α : Type} {serializer : Serializer α} {codecId : UInt8} {session after : PeerSession}
  {parts : FrameParts} {id : UInt64} {ec : ErrorCode}

/-- **A method id error** turns the method ids of the client off, or comes with a table. -/
theorem decodeResponse_methodIdError
    (h : decodeResponse serializer codecId session parts id = (after, .error ec))
    (hec : isMethodIdError ec = true) :
    after.methodIdEnabled = false ∨
      applyMethodIdTableExtensions session parts.extensions = (after, true) := by
  unfold decodeResponse at h
  split_ifs at h with hkind hid herror
  · cases h
    exact absurd hec (by decide)
  · cases h
    exact absurd hec (by decide)
  · cases hdecode : serializer.decodeError parts.payload with
    | none =>
      rw [hdecode] at h
      cases h
      exact absurd hec (by decide)
    | some error =>
      rw [hdecode] at h
      dsimp only at h
      by_cases hmethodId : isMethodIdError ⟨.rpc, error.code⟩ = true
      · rw [if_pos hmethodId] at h
        rcases happlied : applyMethodIdTableExtensions session parts.extensions with
          ⟨taken, updated⟩
        rw [happlied] at h
        cases updated with
        | true =>
          cases h
          exact Or.inr rfl
        | false =>
          cases h
          exact Or.inl rfl
      · rw [if_neg hmethodId] at h
        cases h
        exact absurd hec hmethodId
  · cases hdecode : serializer.decodeValue parts.payload with
    | none =>
      rw [hdecode] at h
      cases h
      exact absurd hec (by decide)
    | some value =>
      rw [hdecode] at h
      cases h

/-- The recovery goes on with the session as it is, or without method ids. -/
theorem recoverClientCall_session {context : ClientContext} {error : ErrorCode} {retryCount : ℕ}
    (h : recoverClientCall context session error retryCount = (after, true)) :
    after.methodIdEnabled = false ∨ after = session := by
  unfold recoverClientCall at h
  split_ifs at h with hoff hclosed hrequire <;> cases h
  · exact Or.inl rfl
  · exact Or.inr rfl

end

/-! ## What a refusal is to the client -/

section

variable {α : Type} {serializer : Serializer α} {message : ErrorCode → MessageType}
  {codecId : UInt8} {session : PeerSession}

/-- All errors of the resolution are method id errors. -/
theorem incomingMethodName_error {context : ServerContext} {parts : FrameParts} {error : RpcError}
    (h : incomingMethodName context session parts = .error error) :
    isMethodIdError error.toErrorCode = true := by
  unfold incomingMethodName at h
  split_ifs at h
  · cases h
    rfl
  split at h
  · cases h
    rfl
  dsimp only at h
  split at h <;> cases h <;> rfl

/-- **A refusal** is answered, by a method id error. -/
theorem processRequest_refused {context : ServerContext} {dispatch : DecodedRequest → Dispatch}
    {parts : FrameParts} {error : RpcError} (hexpects : expectsResponse parts.header = true)
    (h : (processRequest serializer message codecId context session dispatch parts).1 =
      .refused error) :
    isMethodIdError error.toErrorCode = true ∧
      ∃ extensions, (processRequest serializer message codecId context session dispatch parts).2 =
        some (makeErrorResponse serializer message codecId parts.header.id error.toErrorCode
          extensions) := by
  unfold processRequest at h ⊢
  cases hdecode : decodeIncoming context session parts with
  | dropped =>
    rw [hdecode] at h
    cases h
  | control =>
    rw [hdecode] at h
    cases h
  | request request =>
    rw [hdecode] at h
    dsimp only at h
    cases hdispatch : dispatch request with
    | rejected error =>
      rw [hdispatch] at h
      cases h
    | invoked result =>
      rw [hdispatch] at h
      cases h
  | refused error' extensions =>
    rw [hdecode] at h
    cases h
    refine ⟨?_, extensions, if_pos hexpects⟩
    unfold decodeIncoming at hdecode
    split_ifs at hdecode
    split at hdecode <;> cases hdecode
    rename_i hname
    exact incomingMethodName_error hname

/-- An error that was written is read with its value, whatever comes along. -/
theorem decodeResponse_written {error : ErrorCode} {written : MessageType}
    {extensions : ExtensionMap} {id : UInt64}
    (h : serializer.encodeError { code := error.value, message := message error } = some written) :
    (decodeResponse serializer codecId session
        (makeErrorResponse serializer message codecId id error extensions) id).2 =
      .error ⟨.rpc, error.value⟩ := by
  obtain ⟨error', hread, hcode⟩ := serializer.decodeError_encodeError _ _ h
  have hresponse : makeErrorResponse serializer message codecId id error extensions =
      makeResponse codecId id written Flag.error.bit extensions := by
    unfold makeErrorResponse
    dsimp only
    rw [h]
  rw [hresponse]
  unfold decodeResponse makeResponse
  dsimp only
  rw [if_neg (by simp), if_neg (by simp), if_pos (has_error rfl), hread]
  dsimp only
  rw [hcode]
  split_ifs <;> rfl

end

/-! ## What the server sends along -/

section

variable {α : Type} {serializer : Serializer α} {message : ErrorCode → MessageType}
  {codecId : UInt8} {context : ServerContext} {peer : PeerSession} {parts response : FrameParts}
  {dispatch : DecodedRequest → Dispatch} {outcome : Outcome}

/-- The extensions of an error response: none, the table, or a hint. -/
theorem methodIdErrorResponseExtensions_cases (error : ErrorCode) :
    methodIdErrorResponseExtensions context peer error = [] ∨
      peer.methodIdEnabled = true ∧
        ∃ includeTable, methodIdErrorResponseExtensions context peer error =
          methodIdTableExtensions context includeTable := by
  unfold methodIdErrorResponseExtensions
  split_ifs with hnone
  · exact Or.inl rfl
  rw [not_or] at hnone
  have henabled : peer.methodIdEnabled = true := by simpa using hnone.1
  dsimp only
  split_ifs
  · exact Or.inr ⟨henabled, true, rfl⟩
  · exact Or.inr ⟨henabled, false, rfl⟩
  · exact Or.inl rfl

theorem methodReturn_extensions (id : UInt64) (result : HandlerResult) :
    (methodReturn serializer message codecId id result).extensions = [] := by
  cases result with
  | error error => exact (makeErrorResponse_header serializer message codecId id error []).2
  | value payload =>
    cases payload with
    | none => exact (makeErrorResponse_header serializer message codecId id _ []).2
    | some payload => rfl

theorem processRequest_extensions
    (h : processRequest serializer message codecId context peer dispatch parts =
      (outcome, some response)) :
    response.extensions = [] ∨
      peer.methodIdEnabled = true ∧
        ∃ includeTable, response.extensions = methodIdTableExtensions context includeTable := by
  unfold processRequest at h
  simp only at h
  cases hdecode : decodeIncoming context peer parts with
  | dropped =>
    rw [hdecode] at h
    cases h
  | control =>
    rw [hdecode] at h
    cases h
  | refused error extensions =>
    rw [hdecode] at h
    have hextensions : extensions = methodIdErrorResponseExtensions context peer
        error.toErrorCode := by
      unfold decodeIncoming at hdecode
      split_ifs at hdecode
      split at hdecode <;> cases hdecode
      rfl
    have hresponse := (Prod.mk.inj h).2
    split_ifs at hresponse
    cases hresponse
    rw [(makeErrorResponse_header serializer message codecId _ _ _).2, hextensions]
    exact methodIdErrorResponseExtensions_cases _
  | request request =>
    rw [hdecode] at h
    refine Or.inl ?_
    cases hdispatch : dispatch request with
    | rejected error =>
      simp only [hdispatch] at h
      have hresponse := (Prod.mk.inj h).2
      split_ifs at hresponse
      cases hresponse
      exact (makeErrorResponse_header serializer message codecId _ _ _).2
    | invoked result =>
      simp only [hdispatch] at h
      have hresponse := (Prod.mk.inj h).2
      split_ifs at hresponse
      cases hresponse
      exact methodReturn_extensions _ _

/-- Only the whole table can be taken over. -/
theorem applied_table {session after : PeerSession} {extensions : ExtensionMap}
    (hextensions : extensions = [] ∨ peer.methodIdEnabled = true ∧
      ∃ includeTable, extensions = methodIdTableExtensions context includeTable)
    (h : applyMethodIdTableExtensions session extensions = (after, true)) :
    peer.methodIdEnabled = true ∧
      applyMethodIdTableExtensions session (methodIdTableExtensions context true) =
        (after, true) := by
  rcases hextensions with rfl | ⟨henabled, includeTable, rfl⟩
  · cases h
  · cases includeTable with
    | true => exact ⟨henabled, h⟩
    | false =>
      have htable : (methodIdTableExtensions context false).contains .methodTable = false := by
        unfold methodIdTableExtensions ExtensionMap.contains
        rw [if_neg Bool.false_ne_true]
        repeat rw [ExtensionMap.find_set_ne (by decide)]
        rfl
      have hdelta : (methodIdTableExtensions context false).contains .methodTableDelta = false := by
        unfold methodIdTableExtensions ExtensionMap.contains
        rw [if_neg Bool.false_ne_true]
        repeat rw [ExtensionMap.find_set_ne (by decide)]
        rfl
      unfold applyMethodIdTableExtensions at h
      rw [htable, hdelta, if_pos ⟨rfl, rfl⟩] at h
      cases h

end

/-! ## The second request -/

section

variable {context : ServerContext} {peer session₀ session : PeerSession} {codecId : UInt8}
  {client : ClientContext} {name : Name} {notification : Bool} {payload : MessageType}

/-- A table that was taken over has a version. -/
theorem taken_versioned
    (h : applyMethodIdTableExtensions session₀ (methodIdTableExtensions context true) =
      (session, true)) : session.remoteMethodTable.Versioned := by
  obtain ⟨htable, hdelta⟩ := find_methodIdTableExtensions context
  unfold applyMethodIdTableExtensions at h
  rw [parseMethodEntriesTlv, parseMethodEntriesTlv, htable, hdelta, Option.bind_some,
    Option.bind_none] at h
  split_ifs at h
  · cases h
  split at h
  · cases h
  dsimp only at h
  split at h
  · cases h
  rename_i table happlied
  cases hparse : parseMethodEntriesValue (encodeMethodEntriesValue context.methodTable.entries) with
  | none =>
    rw [hparse] at happlied
    cases happlied
  | some entries =>
    rw [hparse] at happlied
    have hversioned : table.Versioned := by
      unfold MethodIdTable.applyRemoteTable at happlied
      dsimp only at happlied
      split_ifs at happlied with hvalid
      cases happlied
      -- the table that is reset has the same limit as the one that was checked
      exact MethodIdTable.resetValidated_versioned
        ((MethodIdTable.validTable_iff { maxEntries := session₀.remoteMethodTable.maxEntries }
          _ _).mpr ((MethodIdTable.validTable_iff session₀.remoteMethodTable _ _).mp hvalid))
    obtain rfl := congrArg Prod.fst h
    dsimp only
    split <;> exact hversioned

/-- A request that carries no method id carries the name. -/
theorem encodeRequest_named (codecId : UInt8) (client : ClientContext) (notification : Bool)
    (payload : MessageType)
    (h : (if session.methodIdEnabled then session.remoteMethodTable.findByName name else none) =
      none) :
    (encodeRequest codecId client session name notification payload).2.header.flags = 0 ∧
      (encodeRequest codecId client session name notification payload).2.method = name := by
  unfold encodeRequest
  rw [h]
  exact ⟨rfl, rfl⟩

/-- A request for a method in the client's table carries its id, its hash and the version. -/
theorem encodeRequest_found (codecId : UInt8) (client : ClientContext) (notification : Bool)
    (payload : MessageType) {e : MethodEntry} (henabled : session.methodIdEnabled = true)
    (he : session.remoteMethodTable.findByName name = some e) :
    (encodeRequest codecId client session name notification payload).2.header.has .methodId =
        true ∧
      (encodeRequest codecId client session name notification payload).2.method =
        integerValue 8 e.id.toNat ∧
      readIntegerTlv 8 (encodeRequest codecId client session name notification payload).2.extensions
        .methodTableVersion = some session.remoteMethodTable.version.toNat ∧
      readIntegerTlv 8 (encodeRequest codecId client session name notification payload).2.extensions
        .methodSignatureHash = some e.signatureHash.toNat := by
  unfold encodeRequest
  rw [if_pos henabled, he]
  have hflag : decide (((0 : UInt8) ||| Flag.methodId.bit) &&& Flag.methodId.bit ≠ 0) = true := by
    decide
  refine ⟨hflag, rfl, ?_, ?_⟩
  · rw [readIntegerTlv, ExtensionMap.find_set_ne (by decide), ExtensionMap.find_set_self,
      Option.bind_some, readIntegerValue_integerValue (toNat_lt_bytes _)]
  · rw [readIntegerTlv, ExtensionMap.find_set_self, Option.bind_some,
      readIntegerValue_integerValue (toNat_lt_bytes _)]

/-- A request is no error, and carries the arguments. -/
theorem encodeRequest_request (codecId : UInt8) (client : ClientContext) (session : PeerSession)
    (name : Name) (payload : MessageType) :
    (encodeRequest codecId client session name false payload).2.header.kind = .request ∧
      (encodeRequest codecId client session name false payload).2.header.has .error = false ∧
      (encodeRequest codecId client session name false payload).2.payload = payload := by
  have hnamed : decide ((0 : UInt8) &&& Flag.error.bit ≠ 0) = false := by decide
  have hid : decide (((0 : UInt8) ||| Flag.methodId.bit) &&& Flag.error.bit ≠ 0) = false := by
    decide
  unfold encodeRequest
  dsimp only
  split
  · exact ⟨rfl, hnamed, rfl⟩
  · exact ⟨rfl, hid, rfl⟩

/-- A request whose method resolves to a name goes on to the dispatcher with that name. -/
theorem decodeIncoming_resolved {parts : FrameParts}
    (hkind : parts.header.kind = .request ∨ parts.header.kind = .notify)
    (herror : parts.header.has .error = false) (hname : name ≠ [])
    (h : incomingMethodName context peer parts = .ok name) :
    ∃ request, decodeIncoming context peer parts = .request request ∧ request.method = name ∧
      request.payload = parts.payload ∧ request.header.kind = parts.header.kind ∧
      request.header.id = parts.header.id := by
  have hcontrol : ¬(parts.header.kind = .cancel ∨ parts.header.kind = .hello) := by
    rcases hkind with hkind | hkind <;> rw [hkind] <;> decide
  have hrequest : ¬(parts.header.kind ≠ .request ∧ parts.header.kind ≠ .notify) := by
    rintro ⟨hnot, hnot'⟩
    exact hkind.elim hnot hnot'
  unfold decodeIncoming
  rw [if_neg hcontrol, if_neg hrequest, herror, h, if_neg Bool.false_ne_true]
  cases name with
  | nil => exact absurd rfl hname
  | cons c cs => exact ⟨_, rfl, rfl, rfl, rfl, rfl⟩

/-- **With the table of the server** an id resolves to the name it was chosen for. -/
theorem incomingMethodName_taken (hserver : context.methodTable.Valid)
    (h : applyMethodIdTableExtensions session₀ (methodIdTableExtensions context true) =
      (session, true))
    (henabled : peer.methodIdEnabled = true) {e : MethodEntry}
    (he : session.remoteMethodTable.findByName name = some e) {parts : FrameParts}
    (hflag : parts.header.has .methodId = true) (hmethod : parts.method = integerValue 8 e.id.toNat)
    (hversion : readIntegerTlv 8 parts.extensions .methodTableVersion =
      some session.remoteMethodTable.version.toNat)
    (hhash : readIntegerTlv 8 parts.extensions .methodSignatureHash =
      some e.signatureHash.toNat) : incomingMethodName context peer parts = .ok name := by
  obtain ⟨hentry, hactive, hename⟩ := snapshot_entry hserver h he
  obtain ⟨hvalid, hentries, htaken⟩ := applyMethodIdTableExtensions_spec h
  have hne : session.remoteMethodTable.entries ≠ [] := by
    intro hnil
    have hget := (hvalid.findByName he).1
    rw [hnil] at hget
    cases hget
  have hcurrent : session.remoteMethodTable.version = context.methodTable.version := by
    rw [htaken, if_neg]
    intro hnil
    rw [hnil, List.map_nil] at hentries
    exact hne hentries
  have hnonzero : context.methodTable.version ≠ 0 := by
    intro hzero
    exact hne (taken_versioned h (hcurrent.trans hzero))
  have hid : readInteger 8 parts.method 0 = e.id.toNat := by
    have := readInteger_append (toNat_lt_bytes e.id) List.length_nil []
    rwa [List.nil_append, List.append_nil, ← hmethod] at this
  have hfound : context.methodTable.findById e.id = some e := hentry
  have hresolve : context.methodTable.resolve e.id context.methodTable.version e.signatureHash
      true = ⟨.ok, some e, context.methodTable.version⟩ := by
    unfold MethodIdTable.resolve
    rw [if_neg, hfound]
    · dsimp only
      rw [if_neg (hserver.name_ne hentry hactive), if_neg (by rw [hactive]; decide),
        if_neg (by simp)]
    · rintro (hlt | hlt | hzero)
      · exact UInt64.not_lt.mpr hserver.minimum_le hlt
      · exact UInt64.lt_irrefl _ hlt
      · exact hnonzero hzero
  have hlength : parts.method.length = 8 := by rw [hmethod, length_integerValue]
  unfold incomingMethodName
  rw [hflag, henabled, if_neg (by decide), if_neg (by simp [hlength]), hversion, hcurrent]
  simp only [hhash, hid, Option.getD_some, UInt64.ofNat_toNat]
  rw [hresolve, ← hename]

/-- What the dispatcher makes of a request. -/
def Dispatch.outcome : Dispatch → Outcome
  | .rejected error => .rejected error
  | .invoked result => .invoked result

/-- A request that is dispatched. -/
theorem processRequest_dispatched {α : Type} {serializer : Serializer α}
    {message : ErrorCode → MessageType} {dispatch : DecodedRequest → Dispatch} {parts : FrameParts}
    {request : DecodedRequest} (h : decodeIncoming context peer parts = .request request) :
    (processRequest serializer message codecId context peer dispatch parts).1 =
      (dispatch request).outcome := by
  unfold processRequest
  rw [h]
  dsimp only
  cases dispatch request <;> rfl

/-- **The second request** reaches the dispatcher with the name, if the client has no method ids
or has taken over the table of the server. -/
theorem decodeIncoming_second (hserver : context.methodTable.Valid) (hname : name ≠ [])
    (h : session.methodIdEnabled = false ∨ peer.methodIdEnabled = true ∧
      ∃ session₀, applyMethodIdTableExtensions session₀ (methodIdTableExtensions context true) =
        (session, true)) :
    ∃ request,
      decodeIncoming context peer (encodeRequest codecId client session name false payload).2 =
        .request request ∧ request.method = name ∧ request.payload = payload := by
  have hresolved : incomingMethodName context peer
      (encodeRequest codecId client session name false payload).2 = .ok name := by
    cases hfind : (if session.methodIdEnabled then session.remoteMethodTable.findByName name
        else none) with
    | none =>
      obtain ⟨hflags, hmethod⟩ := encodeRequest_named codecId client false payload hfind
      unfold incomingMethodName Header.has
      rw [hflags, hmethod]
      rfl
    | some e =>
      split_ifs at hfind with henabled
      rcases h with hoff | ⟨hpeer, session₀, htaken⟩
      · rw [hoff] at henabled
        cases henabled
      obtain ⟨hflag, hmethod, hversion, hhash⟩ := encodeRequest_found codecId client false payload
        henabled hfind
      exact incomingMethodName_taken hserver htaken hpeer hfind hflag hmethod hversion hhash
  obtain ⟨hkind, herror, hkept⟩ := encodeRequest_request codecId client session name payload
  obtain ⟨request, hrequest, hmethod, hpayload, -⟩ :=
    decodeIncoming_resolved (Or.inl hkind) herror hname hresolved
  exact ⟨request, hrequest, hmethod, hpayload.trans hkept⟩

end

/-! ## The call -/

section

variable {α : Type} (call : Call α)

/-- The outcome of an attempt is that of its request. -/
theorem attempt_outcome (context : ClientContext) (session : PeerSession) (retryCount : ℕ)
    (turn : Turn) :
    (call.attempt context session retryCount turn).2.2.outcome =
      (processRequest call.serializer call.message call.codecId turn.context turn.session
        turn.dispatch (encodeRequest call.codecId context session call.name call.notification
          call.payload).2).1 := by
  unfold Call.attempt
  dsimp only
  split
  · rfl
  split
  · rfl
  · exact (receive_outcome call _ _ _ _ _ _).1

/-- **A retry.** The request was not a notification, and the client goes on without method ids or
with the table of the server. -/
theorem attempt_retried {context : ClientContext} {session : PeerSession} {retryCount : ℕ}
    {turn : Turn} (h : (call.attempt context session retryCount turn).2.2.retried = true) :
    call.notification = false ∧ retryCount = 0 ∧
      ((call.attempt context session retryCount turn).2.1.methodIdEnabled = false ∨
        turn.session.methodIdEnabled = true ∧
          ∃ session₀, applyMethodIdTableExtensions session₀
              (methodIdTableExtensions turn.context true) =
            ((call.attempt context session retryCount turn).2.1, true)) := by
  unfold Call.attempt at h ⊢
  dsimp only at h ⊢
  cases hnotification : call.notification with
  | true =>
    rw [hnotification, if_pos rfl] at h
    cases h
  | false =>
    rw [hnotification, if_neg Bool.false_ne_true] at h
    rw [if_neg Bool.false_ne_true]
    cases hresponse : (if turn.delivered then (processRequest call.serializer call.message
        call.codecId turn.context turn.session turn.dispatch
        (encodeRequest call.codecId context session call.name false call.payload).2).2
        else none) with
    | none =>
      rw [hresponse] at h
      cases h
    | some response =>
      rw [hresponse] at h
      dsimp only at h ⊢
      have hanswer := hresponse
      split_ifs at hanswer
      have hextensions := processRequest_extensions (Prod.ext rfl hanswer)
      unfold Call.receive at h ⊢
      rcases hdecode : decodeResponse call.serializer call.codecId (turn.meanwhile session)
        response (encodeRequest call.codecId context session call.name false
          call.payload).2.header.id with ⟨after, result⟩
      rw [hdecode] at h
      cases result with
      | ok value => cases h
      | error ec =>
        dsimp only at h ⊢
        rcases hrecover : recoverClientCall
          (encodeRequest call.codecId context session call.name false call.payload).1 after ec
          retryCount with ⟨recovered, retried⟩
        rw [hrecover] at h
        obtain rfl : retried = true := h
        obtain ⟨hec, hcount⟩ := recoverClientCall_retried (Prod.ext_iff.mp hrecover).2
        refine ⟨rfl, hcount, ?_⟩
        rcases recoverClientCall_session hrecover with hoff | rfl
        · exact Or.inl hoff
        rcases decodeResponse_methodIdError hdecode hec with hoff | happlied
        · exact Or.inl hoff
        · obtain ⟨hpeer, htaken⟩ := applied_table hextensions happlied
          exact Or.inr ⟨hpeer, turn.meanwhile session, htaken⟩

/-- The options of the client allow a retry with the session that it has after an answer: with
`Require` it needs a table. -/
def RetriesWith (options : Options) (after : PeerSession) : Prop :=
  options.retryMethodIdErrorOnce = true ∧
    (options.methodId = .auto ∨ options.methodId = .require ∧
      after.methodIdEnabled = true ∧ after.remoteMethodTable.entries ≠ [])

theorem recoverClientCall_retries {context : ClientContext} {after : PeerSession}
    {error : ErrorCode} (hretries : RetriesWith context.options after)
    (herror : isMethodIdError error = true) :
    (recoverClientCall context after error 0).2 = true := by
  obtain ⟨honce, hmode⟩ := hretries
  have henabled : context.options.methodId.enabled = true := by
    rcases hmode with hmode | ⟨hmode, -⟩ <;> rw [hmode] <;> rfl
  have hon : ¬((!context.options.retryMethodIdErrorOnce) = true ∨ (0 : ℕ) ≠ 0 ∨
      (!context.options.methodId.enabled) = true ∨ (!isMethodIdError error) = true) := by
    simp [honce, henabled, herror]
  unfold recoverClientCall
  rw [if_neg hon]
  split_ifs with hnone hrequire
  · rcases hmode with hauto | ⟨-, henabled', htable⟩
    · rw [hauto] at hrequire
      cases hrequire
    · rcases hnone with hoff | hnil
      · rw [henabled'] at hoff
        cases hoff
      · exact absurd hnil htable
  · rfl
  · rfl

/-- **A refusal is sent again**, once it is delivered and where the options allow it. -/
theorem attempt_refused {context : ClientContext} {session : PeerSession} {turn : Turn}
    {error : RpcError} (hcall : call.notification = false) (hdelivered : turn.delivered = true)
    (hencodes : (call.serializer.encodeError
      { code := error.value, message := call.message error.toErrorCode }).isSome)
    (hrefused : (call.attempt context session 0 turn).2.2.outcome = .refused error)
    (hretries : RetriesWith context.options (call.attempt context session 0 turn).2.2.after) :
    (call.attempt context session 0 turn).2.2.retried = true := by
  have houtcome := (attempt_outcome call context session 0 turn).symm.trans hrefused
  obtain ⟨hoptions, hkind⟩ := encodeRequest_spec call.codecId context session call.name
    call.notification call.payload
  revert hretries
  unfold Call.attempt
  generalize encodeRequest call.codecId context session call.name call.notification call.payload =
    encoded at houtcome hoptions hkind ⊢
  obtain ⟨context', request⟩ := encoded
  rw [hcall, if_neg Bool.false_ne_true] at hkind
  dsimp only at houtcome hoptions hkind ⊢
  have hexpects : expectsResponse request.header = true := by
    unfold expectsResponse
    rw [hkind]
    rfl
  obtain ⟨hmethodId, extensions, hresponse⟩ := processRequest_refused hexpects houtcome
  obtain ⟨written, hwritten⟩ := Option.isSome_iff_exists.mp hencodes
  have hread : (decodeResponse call.serializer call.codecId (turn.meanwhile session)
      (makeErrorResponse call.serializer call.message call.codecId request.header.id
        error.toErrorCode extensions) request.header.id).2 = .error error.toErrorCode :=
    decodeResponse_written hwritten
  rw [hcall, if_neg Bool.false_ne_true, hdelivered, if_pos rfl, hresponse]
  dsimp only
  unfold Call.receive
  rcases hdecode : decodeResponse call.serializer call.codecId (turn.meanwhile session)
    (makeErrorResponse call.serializer call.message call.codecId request.header.id
      error.toErrorCode extensions) request.header.id with ⟨after, result⟩
  rw [hdecode] at hread
  obtain rfl : result = .error error.toErrorCode := hread
  dsimp only
  intro hretries
  rw [← hoptions] at hretries
  exact recoverClientCall_retries hretries hmethodId

/-- A request that is sent again reaches the dispatcher, and is not sent a third time. -/
theorem run_retried {options : Options} {methods : List MethodMetadata}
    {ops : List TableOp} {context : ClientContext} {session : PeerSession} {turn turn' : Turn}
    {turns : List Turn} (hname : call.name ≠ [])
    (hserver : turn.context = (makeServerContext options methods).run ops)
    (hcontext : turn'.context = turn.context) (hsession : turn'.session = turn.session)
    (h : (call.attempt context session 0 turn).2.2.retried = true) :
    ∃ request second,
      call.run (turn :: turn' :: turns) context session 0 =
        [(call.attempt context session 0 turn).2.2, second] ∧
      request.method = call.name ∧ request.payload = call.payload ∧
      second.outcome = (turn'.dispatch request).outcome := by
  obtain ⟨hnotification, -, hclient⟩ := attempt_retried call h
  have hvalid : turn.context.methodTable.Valid := by
    rw [hserver]
    exact (run_valid (makeServerContext_valid options methods) ops).1
  rw [Call.run]
  rcases hattempt : call.attempt context session 0 turn with ⟨context', session', first⟩
  rw [hattempt] at h hclient
  dsimp only at h hclient ⊢
  rw [if_pos h, Call.run]
  have hsecond : ∃ request,
      decodeIncoming turn'.context turn'.session (encodeRequest call.codecId context' session'
        call.name call.notification call.payload).2 = .request request ∧
      request.method = call.name ∧ request.payload = call.payload := by
    rw [hcontext, hsession, hnotification]
    exact decodeIncoming_second hvalid hname hclient
  obtain ⟨request, hrequest, hmethod, hpayload⟩ := hsecond
  have houtcome := attempt_outcome call context' session' (0 + 1) turn'
  rw [processRequest_dispatched hrequest] at houtcome
  have hlast : (call.attempt context' session' (0 + 1) turn').2.2.retried = false := by
    -- the recovery sends a request again only if it was the first one
    cases hretried : (call.attempt context' session' (0 + 1) turn').2.2.retried with
    | false => rfl
    | true => exact absurd (attempt_retried call hretried).2.1 (Nat.succ_ne_zero 0)
  refine ⟨request, (call.attempt context' session' (0 + 1) turn').2.2, ?_, hmethod, hpayload,
    houtcome⟩
  dsimp only
  rw [hlast, if_neg Bool.false_ne_true]

end

/-- A session with method ids and a table of the method `p`, under a given hash. -/
def staleSession (hash : UInt64) : PeerSession where
  methodIdEnabled := true
  remoteMethodTable := (({ maxEntries := 64 } : MethodIdTable).upsert [112] hash).1

/-- A server that has changed the signature of `p`. -/
def changedTurn : Turn where
  context := (makeServerContext {} [⟨[112], []⟩]).run [.upsert [112] 7]
  session := staleSession 1
  dispatch _ := .invoked (.value (some []))
  delivered := true
  meanwhile := id

end NekoProto.Rpc
