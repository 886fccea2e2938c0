import NekoProto.Rpc.ResponseAccounting

/-!
# Request frames and their answers

What becomes of a request frame that is within the limits and parses.

1. The backend makes of it one error response, or one request with its id, or drops it: a frame
   with the flag `Error` and one with an empty method name are taken for malformed
   (`decodeIncomingFrame_request`).
2. A message that is processed keeps what it was decoded to, whatever the steps are
   (`run_continues`), so in the end there is one response, with the id of the request; what is sent
   of it is a response frame with this id (`encodeResponses_single`).
3. `request_answered_iff` puts the two together.
-/

namespace NekoProto.Rpc

/-! ## The frame -/

/-- A request frame with the flag of an error response, or with an empty method name. -/
def FrameParts.Marked (parts : FrameParts) : Prop :=
  parts.header.has .error = true ∨ parts.header.has .methodId = false ∧ parts.method = []

/-- A request frame that the backend drops. -/
structure FrameParts.Malformed (codec : CompressionCodec) (options : BackendOptions)
    (session : BackendSession) (parts : FrameParts) : Prop where
  decompresses : ∃ payload, decompressIncomingPayload codec options session parts = .ok payload
  marked : parts.Marked

/-- A message with one response frame, for a request. -/
structure RespondsTo (codecId : UInt8) (options : BackendOptions) (id : UInt64)
    (message : MessageType) : Prop where
  sendable : Sendable codecId options.frameLimits message
  kind : (readHeader message).kind = .response
  id : (readHeader message).id = id

/-- One response, which is sent, if there is an endpoint and it is not closed. -/
structure Answered (codecId : UInt8) (options : BackendOptions) (endpoint : Bool) (id : UInt64)
    (delivery : Delivery FrameParts) : Prop where
  response : ∃ response, delivery.responses = [response] ∧ response.header.kind = .response ∧
    response.header.id = id
  handed : endpoint = true →
    (∃ message, delivery.sent = some message ∧ RespondsTo codecId options id message) ∨
      delivery.closed = true

theorem MethodIdTable.resolve_name_ne {table : MethodIdTable} {id version hash : UInt64}
    {entry : MethodEntry} (hok : (table.resolve id version hash true).status = .ok)
    (hentry : (table.resolve id version hash true).entry = some entry) : entry.name ≠ [] := by
  unfold resolve at hok hentry
  split_ifs at hok hentry with houtdated
  cases hfind : table.findById id with
  | none => simp only [hfind] at hentry; cases hentry
  | some found =>
    simp only [hfind] at hok hentry
    split_ifs at hok hentry with hempty hremoved hmismatch
    obtain rfl := Option.some.inj hentry
    exact hempty

/-- **The name of a request is empty** only if its frame has no method bytes. -/
theorem incomingMethodName_eq_nil {context : ServerContext} {session : PeerSession}
    {parts : FrameParts} : incomingMethodName context session parts = .ok [] ↔
      parts.header.has .methodId = false ∧ parts.method = [] := by
  unfold incomingMethodName
  by_cases hid : parts.header.has .methodId = true
  · rw [if_neg (by simp [hid])]
    refine iff_of_false (fun h => ?_) fun h => Bool.false_ne_true (h.1.symm.trans hid)
    split_ifs at h with hnegotiated
    cases hversion : readIntegerTlv 8 parts.extensions .methodTableVersion with
    | none => simp only [hversion] at h; cases h
    | some version =>
      simp only [hversion] at h
      split at h
      · rename_i hok hentry
        exact MethodIdTable.resolve_name_ne hok hentry (Except.ok.inj h)
      all_goals cases h
  · rw [Bool.not_eq_true] at hid
    rw [if_pos (by simp [hid])]
    constructor
    · exact fun h => ⟨hid, Except.ok.inj h⟩
    · exact fun h => congrArg Except.ok h.2

/-- What is made of a request frame with its payload decompressed. -/
theorem decodeIncoming_request (context : ServerContext) (session : PeerSession)
    {parts : FrameParts} (hkind : parts.header.kind = .request) :
    (parts.Marked ∧ decodeIncoming context session parts = .dropped) ∨
    (¬parts.Marked ∧
      ((∃ error extensions, decodeIncoming context session parts = .refused error extensions) ∨
      ∃ request, decodeIncoming context session parts = .request request ∧
        request.header.id = parts.header.id ∧ request.header.kind = .request)) := by
  have hcontrol : ¬(parts.header.kind = .cancel ∨ parts.header.kind = .hello) := by
    rw [hkind]
    decide
  have hcall : ¬(parts.header.kind ≠ .request ∧ parts.header.kind ≠ .notify) := fun h => h.1 hkind
  unfold decodeIncoming
  rw [if_neg hcontrol, if_neg hcall]
  by_cases herror : parts.header.has .error = true
  · rw [if_pos herror]
    exact .inl ⟨.inl herror, rfl⟩
  · rw [if_neg herror]
    have hmarked : parts.Marked ↔ incomingMethodName context session parts = .ok [] := by
      rw [incomingMethodName_eq_nil]
      exact or_iff_right herror
    rw [hmarked]
    cases incomingMethodName context session parts with
    | error error => exact .inr ⟨nofun, .inl ⟨error, _, rfl⟩⟩
    | ok name =>
      cases name with
      | nil => exact .inl ⟨rfl, rfl⟩
      | cons c name => exact .inr ⟨nofun, .inr ⟨_, rfl, rfl, hkind⟩⟩

section

variable {α : Type} (codec : CompressionCodec) (codecId : UInt8) (options : BackendOptions)
  (serializer : Serializer α) (message : ErrorCode → MessageType)
  (errorCode : DecompressStop → ErrorCode)

/-- One error response for a request, or one request. -/
inductive Decoded.Single (id : UInt64) : Decoded DecodedRequest FrameParts → Prop
  | refused (error : ErrorCode) (extensions : ExtensionMap) :
    Single id { responses :=
      [makeErrorResponse serializer message codecId id error extensions] }
  | request (request : DecodedRequest) (hid : request.header.id = id)
    (hkind : request.header.kind = .request) : Single id { requests := [request] }

/-- **What the backend makes of a request frame.** -/
theorem decodeIncomingFrame_request (session : NekoServerSession) {parts : FrameParts}
    (hkind : parts.header.kind = .request) :
    (parts.Malformed codec options session.toBackendSession ∧
      decodeIncomingFrame codec codecId options serializer message errorCode session parts = none) ∨
    (¬parts.Malformed codec options session.toBackendSession ∧
      ∃ decoded, decodeIncomingFrame codec codecId options serializer message errorCode session
        parts = some decoded ∧
        decoded.Single codecId serializer message parts.header.id) := by
  unfold decodeIncomingFrame
  cases hpayload : decompressIncomingPayload codec options session.toBackendSession parts with
  | error stop =>
    refine .inr ⟨fun h => ?_, _, rfl, ?_⟩
    · obtain ⟨payload, hok⟩ := h.decompresses
      cases hpayload.symm.trans hok
    · rw [appendFrameError, if_pos hkind]
      exact .refused ..
  | ok decompressed =>
    obtain ⟨hmarked, hdropped⟩ | ⟨hmarked, hincoming⟩ :=
      decodeIncoming_request (session.context options) session.toPeerSession
        (show ({ parts with payload := decompressed.getD parts.payload } :
          FrameParts).header.kind = .request from hkind)
    · simp only [hdropped]
      exact .inl ⟨⟨⟨_, hpayload⟩, hmarked⟩, trivial⟩
    · refine .inr ⟨fun h => hmarked h.marked, ?_⟩
      obtain ⟨error, extensions, hrefused⟩ | ⟨request, hrequest, hid, hrequestkind⟩ := hincoming
      · simp only [hrefused]
        refine ⟨_, rfl, ?_⟩
        rw [appendFrameError, if_pos hkind]
        exact .refused ..
      · simp only [hrequest]
        exact ⟨_, rfl, .request request hid hrequestkind⟩

variable {codec codecId options serializer message errorCode}

/-- An outgoing frame keeps its kind and its id. -/
theorem encodeOutgoingFrame_header {session : BackendSession} {frame : FrameParts}
    {data : MessageType} (h : encodeOutgoingFrame codec options session frame = .ok data) :
    ∃ frame' : FrameParts, data = encodeFrame frame' ∧ frame'.header.kind = frame.header.kind ∧
      frame'.header.id = frame.header.id := by
  unfold encodeOutgoingFrame at h
  split_ifs at h
  · exact ⟨frame, (encodeChecked_eq_ok h).1, rfl, rfl⟩
  · exact ⟨frame, (encodeChecked_eq_ok h).1, rfl, rfl⟩
  · exact ⟨frame, (encodeChecked_eq_ok h).1, rfl, rfl⟩
  · cases hcompress : codec.compress frame.payload session.compressionAlgorithm with
    | error error => rw [hcompress] at h; cases h
    | ok compressed =>
      simp only [hcompress] at h
      split_ifs at h
      · exact ⟨frame, (encodeChecked_eq_ok h).1, rfl, rfl⟩
      · exact ⟨frame.compressed compressed, (encodeChecked_eq_ok h).1, rfl, rfl⟩

/-- **What is sent of one response** is a response frame with its id. -/
theorem encodeResponses_single {session : NekoServerSession} {response : FrameParts}
    (hkind : response.header.kind = .response)
    (hne : encodeResponses codec codecId options session [response] ≠ [])
    (hvalid : (validateFrameSize (encodeResponses codec codecId options session [response]) codecId
      options.frameLimits).toBool = true) :
    RespondsTo codecId options response.header.id
      (encodeResponses codec codecId options session [response]) := by
  set data := encodeResponses codec codecId options session [response] with hdata
  have hsendable : Sendable codecId options.frameLimits data := by
    rw [← validateFrameSize_eq_ok]
    cases hresult : validateFrameSize data codecId options.frameLimits with
    | error error => rw [hresult] at hvalid; cases hvalid
    | ok _ => rfl
  obtain ⟨frame, hframe, hk, hid⟩ : ∃ frame : FrameParts, data = encodeFrame frame ∧
      frame.header.kind = response.header.kind ∧ frame.header.id = response.header.id := by
    unfold encodeResponses encodeResponseFrame at hdata
    rw [List.flatMap_singleton] at hdata
    cases hout : encodeOutgoingFrame codec options session.toBackendSession response with
    | ok frame =>
      simp only [hout] at hdata
      exact hdata ▸ encodeOutgoingFrame_header hout
    | error error =>
      simp only [hout] at hdata
      cases hsize : validateFrameSize (encodeFrame response) codecId options.frameLimits with
      | ok _ =>
        simp only [hsize] at hdata
        exact ⟨response, hdata, rfl, rfl⟩
      | error error =>
        simp only [hsize] at hdata
        exact absurd hdata hne
  have hrep : frame.Representable :=
    not_not.mp fun h => hne (hframe.trans (encodeFrame_eq_nil.mpr h))
  have hread : readHeader data = frame.wireHeader (frame.extensions.flatMap encodeTlv) := by
    rw [hframe, hrep.encodeFrame_eq]
    exact readHeader_append _ _
  refine ⟨hsendable, ?_, ?_⟩
  · rw [hread]
    exact hk.trans hkind
  · rw [hread]
    exact hid

/-- **The answer to a request is one response.** -/
theorem answers_single {request : DecodedRequest} {responses : List FrameParts}
    (hkind : request.header.kind = .request)
    (h : (nekoServerBackend codec codecId options serializer message errorCode).Answers request
      responses) :
    ∃ response, responses = [response] ∧ response.header.kind = .response ∧
      response.header.id = request.header.id := by
  have hexpects : expectsResponse request.header = true := decide_eq_true hkind
  cases h with
  | error error =>
    have hheader := (makeErrorResponse_header serializer message codecId request.header.id error
      []).1
    exact ⟨_, if_pos hexpects, congrArg Header.kind hheader, by rw [hheader]⟩
  | methodReturn result =>
    obtain ⟨flags, hheader⟩ := methodReturn_header codecId serializer message request.header.id
      (.ofResult result)
    exact ⟨_, if_pos hexpects, congrArg Header.kind hheader, by rw [hheader]⟩

/-- **A batch of a request frame ends with one response.** -/
theorem Batch.Accounted.answered {batch : Batch UInt64 DecodedRequest FrameParts}
    {delivery : Delivery FrameParts} {id : UInt64}
    (h : batch.Accounted (nekoServerBackend codec codecId options serializer message errorCode)
      delivery)
    (hsingle : batch.decoded.Single codecId serializer message id) :
    Answered codecId options batch.endpoint id delivery := by
  obtain ⟨answers, hresponses, hanswers, -⟩ := h.responses
  have hresponse : ∃ response, delivery.responses = [response] ∧
      response.header.kind = .response ∧ response.header.id = id := by
    generalize batch.decoded = decoded at hsingle hresponses hanswers
    cases hsingle with
    | refused error extensions =>
      cases hanswers
      have hheader := (makeErrorResponse_header serializer message codecId id error extensions).1
      exact ⟨_, hresponses, congrArg Header.kind hheader, congrArg Header.id hheader⟩
    | request request hid hkind =>
      cases hanswers with
      | cons hanswer hrest =>
        cases hrest
        obtain ⟨response, rfl, hk, hi⟩ := answers_single hkind hanswer
        exact ⟨response, hresponses, hk, hi.trans hid⟩
  refine ⟨hresponse, fun hendpoint => ?_⟩
  obtain ⟨response, heq, hkind, rfl⟩ := hresponse
  have hhanded := h.handed hendpoint (by rw [heq]; exact List.cons_ne_nil _ _)
  rw [heq] at hhanded
  obtain ⟨data, hsent, hencodes⟩ | hclosed := hhanded
  · obtain ⟨session, rfl⟩ := hencodes.encoded
    exact .inl ⟨_, hsent, encodeResponses_single hkind hencodes.ne_nil hencodes.valid⟩
  · exact .inr hclosed

end

/-! ## The runs -/

section

variable {Id Session Request Response Value : Type}
  {backend : ServerBackend Id Session Request Response Value} {config : DispatcherConfig Request}

/-- A batch later on: what was decoded stays, and so does its end. -/
structure Batch.Continues (batch batch' : Batch Id Request Response) : Prop where
  decoded : batch'.decoded = batch.decoded
  endpoint : batch'.endpoint = batch.endpoint
  delivery : ∀ delivery, batch.delivery = some delivery → batch'.delivery = some delivery

theorem Batch.Continues.refl (batch : Batch Id Request Response) : batch.Continues batch :=
  ⟨rfl, rfl, fun _ h => h⟩

theorem Batch.Continues.trans {batch batch' batch'' : Batch Id Request Response}
    (h : batch.Continues batch') (h' : batch'.Continues batch'') : batch.Continues batch'' :=
  ⟨h'.decoded.trans h.decoded, h'.endpoint.trans h.endpoint,
    fun d hd => h'.delivery d (h.delivery d hd)⟩

namespace Dispatcher

variable {s t : Dispatcher Id Request Response}

theorem setBatch_continues {b c : ℕ} {batch batch' other : Batch Id Request Response}
    (hb : s.batches[b]? = some batch) (h : batch.Continues batch')
    (hc : s.batches[c]? = some other) :
    ∃ other', (s.setBatch b batch').batches[c]? = some other' ∧ other.Continues other' := by
  rw [getElem?_setBatch hb]
  split_ifs with heq
  · subst heq
    obtain rfl := Option.some.inj (hb.symm.trans hc)
    exact ⟨batch', rfl, h⟩
  · exact ⟨other, hc, .refl other⟩

variable [DecidableEq Id]

/-- **Every step lets the batches continue.** -/
theorem step_continues {action : DispatcherAction Id Session Value} {c : ℕ}
    {other : Batch Id Request Response} (hstep : s.step backend config action = some t)
    (hc : s.batches[c]? = some other) :
    ∃ other', t.batches[c]? = some other' ∧ other.Continues other' := by
  cases action with
  | processMessage connection session message rejectOnly endpoint =>
    obtain rfl := Option.some.inj hstep
    have hlt := (List.getElem?_eq_some_iff.mp hc).1
    exact ⟨other, (List.getElem?_append_left hlt).trans hc, .refl other⟩
  | dispatch b =>
    obtain ⟨batch, request, hb, hrequest, rfl⟩ := step_dispatch hstep
    unfold dispatch
    cases s.refusal backend config batch request with
    | some error => exact setBatch_continues hb ⟨rfl, rfl, fun _ h => h⟩ hc
    | none => exact setBatch_continues hb ⟨rfl, rfl, fun _ h => h⟩ hc
  | finish b i taskEnd =>
    obtain ⟨batch, request, htask, rfl⟩ := step_finish hstep
    exact setBatch_continues (task_eq_some.mp htask).1 ⟨rfl, rfl, fun _ h => h⟩ hc
  | complete b session sent =>
    obtain ⟨batch, hb, hdone, hnone, rfl⟩ := step_complete hstep
    exact setBatch_continues hb ⟨rfl, rfl, fun d hd => absurd (hnone.symm.trans hd) nofun⟩ hc
  | cancel connection id => obtain rfl := Option.some.inj hstep; exact ⟨other, hc, .refl other⟩
  | cancelId id => obtain rfl := Option.some.inj hstep; exact ⟨other, hc, .refl other⟩
  | cancelSession connection =>
    obtain rfl := Option.some.inj hstep
    exact ⟨other, hc, .refl other⟩
  | cancelAll => obtain rfl := Option.some.inj hstep; exact ⟨other, hc, .refl other⟩

theorem run_continues {actions : List (DispatcherAction Id Session Value)} {c : ℕ}
    {other : Batch Id Request Response} (hrun : s.run backend config actions = some t)
    (hc : s.batches[c]? = some other) :
    ∃ other', t.batches[c]? = some other' ∧ other.Continues other' := by
  induction actions generalizing s other with
  | nil =>
    obtain rfl := Option.some.inj hrun
    exact ⟨other, hc, .refl other⟩
  | cons action actions ih =>
    obtain ⟨s', hstep, hrest⟩ := Option.bind_eq_some_iff.mp hrun
    obtain ⟨other', hc', hcontinues⟩ := step_continues hstep hc
    obtain ⟨other'', hc'', hcontinues'⟩ := ih hrest hc'
    exact ⟨other'', hc'', hcontinues.trans hcontinues'⟩

end Dispatcher

end

section

variable {α : Type} {codec : CompressionCodec} {codecId : UInt8} {options : BackendOptions}
  {serializer : Serializer α} {message : ErrorCode → MessageType}
  {errorCode : DecompressStop → ErrorCode}

/-- **Request frames are answered.** A request frame that is within the limits and parses is taken
in by a server in any state; whatever happens until its processing is through, there is then one
response with its id, which is sent, or the endpoint is closed, exactly if the frame is not one of
those that the backend drops. -/
theorem request_answered_iff {config : DispatcherConfig DecodedRequest}
    {s t : Dispatcher UInt64 DecodedRequest FrameParts}
    (hs : Reaches (nekoServerBackend codec codecId options serializer message errorCode) config
      (fun _ _ => True) s)
    (connection : ℕ) (session : NekoServerSession) {data : MessageType} (rejectOnly endpoint : Bool)
    (hsize : validateFrameSize data codecId options.frameLimits = .ok ()) {parts : FrameParts}
    (hparse : parseFrame data codecId = some parts) (hkind : parts.header.kind = .request)
    {actions : List (DispatcherAction UInt64 NekoServerSession (Option MessageType))}
    (hrun : (s.processMessage (nekoServerBackend codec codecId options serializer message errorCode)
      connection session data rejectOnly endpoint).run
        (nekoServerBackend codec codecId options serializer message errorCode) config actions =
      some t)
    {batch : Batch UInt64 DecodedRequest FrameParts}
    (hbatch : t.batches[s.batches.length]? = some batch) {delivery : Delivery FrameParts}
    (hdelivery : batch.delivery = some delivery) :
    Answered codecId options endpoint parts.header.id delivery ↔
      ¬parts.Malformed codec options session.toBackendSession := by
  set backend := nekoServerBackend codec codecId options serializer message errorCode with hbackend
  have hreaches := reaches_run (hs.step trivial (show s.step backend config
    (.processMessage connection session data rejectOnly endpoint) = some _ from rfl)) hrun
  have hdecode : backend.decodeIncoming session data =
      decodeIncomingFrame codec codecId options serializer message errorCode session parts := by
    show decodeIncomingMessage codec codecId options serializer message errorCode session data = _
    unfold decodeIncomingMessage
    simp only [hsize, hparse]
  obtain ⟨hmalformed, hnone⟩ | ⟨hmalformed, decoded, hsome, hsingle⟩ :=
    decodeIncomingFrame_request codec codecId options serializer message errorCode session hkind
  · have hstart : (s.processMessage backend connection session data rejectOnly
        endpoint).batches[s.batches.length]? =
          some ⟨connection, endpoint, rejectOnly, {}, [], [], some {}⟩ := by
      unfold Dispatcher.processMessage
      rw [hdecode, hnone]
      exact List.getElem?_concat_length
    obtain ⟨batch', hbatch', hcontinues⟩ := Dispatcher.run_continues hrun hstart
    obtain rfl := Option.some.inj (hbatch.symm.trans hbatch')
    obtain rfl := Option.some.inj (hdelivery.symm.trans (hcontinues.delivery {} rfl))
    refine iff_of_false (fun h => ?_) fun h => h hmalformed
    obtain ⟨response, heq, -⟩ := h.response
    cases heq
  · have hstart : (s.processMessage backend connection session data rejectOnly
        endpoint).batches[s.batches.length]? =
          some ⟨connection, endpoint, rejectOnly, decoded, [], [], none⟩ := by
      unfold Dispatcher.processMessage
      rw [hdecode, hsome]
      exact List.getElem?_concat_length
    obtain ⟨batch', hbatch', hcontinues⟩ := Dispatcher.run_continues hrun hstart
    obtain rfl := Option.some.inj (hbatch.symm.trans hbatch')
    refine iff_of_true ?_ hmalformed
    have haccounted := (inv_of_reaches hreaches batch
      (List.mem_of_getElem? hbatch)).delivery delivery hdelivery
    have hanswered := haccounted.answered (show batch.decoded.Single codecId serializer message
      parts.header.id from hcontinues.decoded ▸ hsingle)
    rw [hcontinues.endpoint] at hanswered
    exact hanswered

end

/-- The end of the processing of a request for the method `p`. -/
theorem request_answered_plain :
    ∃ (t : Dispatcher UInt64 DecodedRequest FrameParts)
      (batch : Batch UInt64 DecodedRequest FrameParts) (delivery : Delivery FrameParts),
      (({} : Dispatcher UInt64 DecodedRequest FrameParts).processMessage plainServer 0 plainPeer
        (encodeFrame (plainRequest 0)) false true).run plainServer plainConfig
          [.dispatch 0, .finish 0 0 (.called (.returned (.ok (some [])))),
            .complete 0 plainPeer true] = some t ∧
      t.batches[0]? = some batch ∧ batch.delivery = some delivery ∧
      (Answered 1 {} true 7 delivery ↔
        ¬(plainRequest 0).Malformed runLengthCodec {} plainPeer.toBackendSession) := by
  have hsome : (((({} : Dispatcher UInt64 DecodedRequest FrameParts).processMessage plainServer 0
      plainPeer (encodeFrame (plainRequest 0)) false true).run plainServer plainConfig
        [.dispatch 0, .finish 0 0 (.called (.returned (.ok (some [])))),
          .complete 0 plainPeer true]).bind fun t =>
            t.batches[0]?.bind Batch.delivery).isSome = true := by
    decide +kernel
  obtain ⟨delivery, hall⟩ := Option.isSome_iff_exists.mp hsome
  obtain ⟨t, hrun, ht⟩ := Option.bind_eq_some_iff.mp hall
  obtain ⟨batch, hbatch, hdelivery⟩ := Option.bind_eq_some_iff.mp ht
  have hsize : validateFrameSize (encodeFrame (plainRequest 0)) 1 {} = .ok () := by decide +kernel
  have hparse : parseFrame (encodeFrame (plainRequest 0)) 1 = some (plainRequest 0) := by
    decide +kernel
  exact ⟨t, batch, delivery, hrun, hbatch, hdelivery,
    request_answered_iff .start 0 plainPeer false true hsize hparse rfl hrun hbatch hdelivery⟩

/-- A request with the flag `Error` is within the limits and parses, and goes without an answer. -/
theorem request_answered_fails :
    validateFrameSize (encodeFrame (plainRequest 1)) 1 {} = .ok () ∧
    parseFrame (encodeFrame (plainRequest 1)) 1 = some (plainRequest 1) ∧
    (plainRequest 1).header.kind = .request ∧
    (({} : Dispatcher UInt64 DecodedRequest FrameParts).processMessage plainServer 0 plainPeer
      (encodeFrame (plainRequest 1)) false true).batches.map Batch.delivery = [some {}] ∧
    ¬Answered 1 {} true 7 {} := by
  have hnone : plainServer.decodeIncoming plainPeer (encodeFrame (plainRequest 1)) = none :=
    Option.isNone_iff_eq_none.mp (by decide +kernel)
  refine ⟨by decide +kernel, by decide +kernel, rfl, ?_, fun h => ?_⟩
  · unfold Dispatcher.processMessage
    rw [hnone]
    rfl
  · obtain ⟨response, heq, -⟩ := h.response
    cases heq

end NekoProto.Rpc
