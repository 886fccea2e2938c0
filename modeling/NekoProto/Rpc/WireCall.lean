import NekoProto.Rpc.Hello
import NekoProto.Rpc.NekoRpcBackend
import NekoProto.Rpc.NekoServer
import NekoProto.Rpc.OneRetry

/-!
# A call over the wire

From the bytes of the hello to the bytes of a response. `call_after_hello`: after a handshake that
the client accepts, with any features on either side, the server dispatches exactly the method and
the arguments of a call, and the client reads exactly what the handler returned, as long as the
receivers take the two messages.

1. A message that a receiver takes carries the frame of its sender, whether it was compressed or
   not, up to the flags of the transport (`receive_sent`).
2. The sessions of a handshake agree (`agree_hello`).
3. With sessions that agree the request and the response arrive (`decodeIncomingMessage_sent`,
   `decodeResponseMessage_sent`).
-/

namespace NekoProto.Rpc

/-! ## Messages -/

/-- The decompressor undoes the compressor on a payload. -/
def CompressionCodec.Undoes (codec : CompressionCodec) (algorithm : CompressionAlgorithm)
    (payload : MessageType) : Prop :=
  ∀ compressed budget, codec.compress payload algorithm = .ok compressed →
    payload.length ≤ budget → codec.decompress compressed algorithm budget = .ok payload

/-- A message that carries a frame is within the limits of the receiver, and the payload within
its budget if the sender compressed it. -/
structure Taken (codec : CompressionCodec) (sender : BackendSession) (options : BackendOptions)
    (frame : FrameParts) (message : MessageType) : Prop where
  undoes : codec.Undoes sender.compressionAlgorithm frame.payload
  within : validateFrameSize message frame.header.codec options.frameLimits = .ok ()
  budget : ∀ compressed, Compresses codec sender frame compressed →
    frame.payload.length ≤ outputBudget options compressed.length

/-- Two sessions with the same compression. -/
structure SameCompression (sender receiver : BackendSession) : Prop where
  enabled : sender.compressionEnabled = receiver.compressionEnabled
  algorithm : sender.compressionEnabled = true →
    sender.compressionAlgorithm = receiver.compressionAlgorithm

theorem SameCompression.symm {client server : BackendSession} (h : SameCompression client server) :
    SameCompression server client where
  enabled := h.enabled.symm
  algorithm henabled := (h.algorithm (h.enabled.trans henabled)).symm

/-- The frame with other flags. -/
def FrameParts.withFlags (frame : FrameParts) (flags : UInt8) : FrameParts :=
  { frame with header := { frame.header with flags := flags } }

section

variable {codec : CompressionCodec} {options options' : BackendOptions}
  {sender receiver : BackendSession} {frame : FrameParts} {message : MessageType}

/-- A frame that passed `encode_checked` is parsed back, up to the flag `HasExtensions`. -/
theorem parseFrame_checked (h : encodeChecked options frame = .ok message)
    (hordered : frame.extensions.Ordered)
    (hsupported : ∀ e ∈ frame.extensions, e.1.critical = false) :
    ∃ flags, parseFrame message frame.header.codec = some (frame.withFlags flags) ∧
      ∀ bit, Flag.hasExtensions.bit &&& bit = 0 → flags &&& bit = frame.header.flags &&& bit := by
  obtain ⟨rfl, hrep, hkind, -⟩ := encodeChecked_eq_ok h
  refine ⟨_, hrep.parseFrame_encodeFrame hkind hordered hsupported, fun bit hbit => ?_⟩
  obtain ⟨hset, hclear⟩ := and_eq_of_disjoint hbit frame.header.flags
  unfold FrameParts.wireHeader
  dsimp only
  split_ifs
  · exact hset
  · exact hclear

/-- **What is sent is received.** A message that the receiver takes carries the frame, with its
payload, up to the flags of the transport. -/
theorem receive_sent (hsame : SameCompression sender receiver)
    (hflag : frame.header.has .compressed = false) (hordered : frame.extensions.Ordered)
    (hsupported : ∀ e ∈ frame.extensions, e.1.critical = false)
    (hsent : encodeOutgoingFrame codec options sender frame = .ok message ∨
      encodeChecked options frame = .ok message)
    (htaken : Taken codec sender options' frame message) :
    ∃ parts decompressed flags, parseFrame message frame.header.codec = some parts ∧
      decompressIncomingPayload codec options' receiver parts = .ok decompressed ∧
      { parts with payload := decompressed.getD parts.payload } = frame.withFlags flags ∧
      ∀ bit, Flag.hasExtensions.bit &&& bit = 0 → Flag.compressed.bit &&& bit = 0 →
        flags &&& bit = frame.header.flags &&& bit := by
  have hcases : (∃ compressed, Compresses codec sender frame compressed ∧
      encodeChecked options (frame.compressed compressed) = .ok message) ∨
        encodeChecked options frame = .ok message := by
    rcases hsent with hsent | hchecked
    · rcases encodeOutgoingFrame_cases hflag hsent with hcompressed | ⟨-, hchecked⟩
      · exact Or.inl hcompressed
      · exact Or.inr hchecked
    · exact Or.inr hchecked
  rcases hcases with ⟨z, hz, hchecked⟩ | hchecked
  · obtain ⟨flags, hparse, hkept⟩ := parseFrame_checked hchecked hordered hsupported
    have hset : ((frame.compressed z).withFlags flags).header.has .compressed = true := by
      have hkept' := hkept Flag.compressed.bit (by decide)
      have hset := has_compressed frame z
      unfold Header.has at hset ⊢
      rw [show ((frame.compressed z).withFlags flags).header.flags = flags from rfl, hkept']
      exact hset
    have hdecompress : decompressIncomingPayload codec options' receiver
        ((frame.compressed z).withFlags flags) = .ok (some frame.payload) := by
      have hundone := htaken.undoes z _ hz.compress_eq (htaken.budget z hz)
      rw [hsame.algorithm hz.enabled] at hundone
      have hpayload : ((frame.compressed z).withFlags flags).payload = z := rfl
      unfold decompressIncomingPayload
      rw [hset, if_neg (by decide), if_neg, hpayload, hundone]
      · rintro (hoff | hnone | hhello)
        · rw [← hsame.enabled, hz.enabled] at hoff
          exact Bool.false_ne_true hoff
        · exact hz.algorithm_ne ((hsame.algorithm hz.enabled).trans hnone)
        · exact hz.kind_ne hhello
    refine ⟨_, _, flags, hparse, hdecompress, rfl, fun bit hextensions hcompressed => ?_⟩
    exact (hkept bit hextensions).trans (and_eq_of_disjoint hcompressed frame.header.flags).1
  · obtain ⟨flags, hparse, hkept⟩ := parseFrame_checked hchecked hordered hsupported
    have hclear : (frame.withFlags flags).header.has .compressed = false := by
      unfold Header.has at hflag ⊢
      rw [show (frame.withFlags flags).header.flags = flags from rfl,
        hkept Flag.compressed.bit (by decide)]
      exact hflag
    have hdecompress : decompressIncomingPayload codec options' receiver
        (frame.withFlags flags) = .ok none := by
      unfold decompressIncomingPayload
      rw [hclear, if_pos (by decide)]
    exact ⟨_, _, flags, hparse, hdecompress, rfl, fun bit hextensions _ => hkept bit hextensions⟩

end

/-! ## Sessions that agree -/

/-- A client and a server after their handshake: the same compression, and a client with method
ids has taken over the table of a server that has them too. -/
structure Agree (context : BackendServerContext) (client server : BackendSession) : Prop where
  compression : SameCompression client server
  methodIds : client.methodIdEnabled = true → server.methodIdEnabled = true ∧
    ∃ before taken : PeerSession,
      applyMethodIdTableExtensions before (methodIdTableExtensions context.toServerContext true) =
        (taken, true) ∧ client.remoteMethodTable = taken.remoteMethodTable

/-- The compression part of a server's hello is read back. -/
theorem read_compressionExtensions (context : BackendServerContext) (session : BackendSession) :
    (serverHelloExtensions context session).contains .compression = session.compressionEnabled ∧
      (session.compressionEnabled = true →
        readAlgorithmTlv (serverHelloExtensions context session) .compressionAlgorithm =
          some (.ofWire session.compressionAlgorithm.toWire)) := by
  unfold ExtensionMap.contains readAlgorithmTlv readIntegerTlv
  rw [find_serverHelloExtensions, if_neg (by decide), find_serverHelloExtensions,
    if_neg (by decide)]
  unfold compressionExtensions
  cases session.compressionEnabled with
  | false => exact ⟨rfl, fun henabled => absurd henabled Bool.false_ne_true⟩
  | true => exact ⟨rfl, fun _ => session.compressionAlgorithm.readIntegerValue_toWire⟩

/-- **After a handshake** that the client accepts, the sessions agree. -/
theorem agree_hello {codec : CompressionCodec} {codecId : UInt8} {clientOptions : BackendOptions}
    {context : BackendServerContext} {client server : BackendSession} {hello answer : MessageType}
    (hserver : handleServerControl codec codecId context context.options.makePeerSession hello =
      .ok (server, some answer))
    (hclient : handleClientControl codec codecId clientOptions.makePeerSession answer =
      (client, true)) : Agree context client server := by
  obtain ⟨extensions, hnegotiate, rfl⟩ := handleServerControl_answer hserver
  unfold handleClientControl at hclient
  split_ifs at hclient with hhello
  · cases hclient
  have hsize : (serverHelloExtensions context server).wireSize ≤ 65535 := by
    refine Nat.not_lt.mp fun hlt => hhello ?_
    rw [encodeHello_eq_nil.mpr hlt]
    rfl
  obtain ⟨parts, hparse, -, hextensions⟩ := parseFrame_serverHello hsize codecId
  obtain ⟨hmethod, htable, hcompression, hagree⟩ := handleServerHello_accepted hparse hclient
  rw [hextensions] at hmethod htable hcompression hagree
  obtain ⟨hcontains, halgorithm⟩ := read_compressionExtensions context server
  rw [hcontains] at hcompression
  refine ⟨⟨hcompression, fun henabled => ?_⟩, fun henabled => ?_⟩
  · have hserverEnabled := hcompression ▸ henabled
    have hread := Option.some.inj
      ((hagree henabled).1.symm.trans (halgorithm hserverEnabled))
    rw [hnegotiate] at hserverEnabled
    obtain ⟨value, hvalue⟩ := negotiate_algorithm hserverEnabled
    rw [← hnegotiate] at hvalue
    rw [hread, hvalue, CompressionAlgorithm.ofWire_toWire]
  · rw [hmethod] at henabled
    obtain ⟨hserverMethod, before, taken, happly, heq⟩ := acceptMethodIds_serverHello rfl henabled
    exact ⟨hserverMethod, before, taken, happly, htable.trans heq⟩

/-- Sessions that sent no hello agree. -/
theorem agree_without_hello (clientOptions : BackendOptions) (context : BackendServerContext) :
    Agree context { clientOptions.makePeerSession with handshakeDone := true }
      context.options.makePeerSession where
  compression := ⟨rfl, fun h => by cases h⟩
  methodIds h := by cases h

/-! ## The request -/

section

variable (codecId : UInt8) (client : ClientContext) (session : PeerSession) (name : Name)
  (notification : Bool) (payload : MessageType)

/-- The header and the payload of a request. -/
theorem encodeRequest_header :
    (encodeRequest codecId client session name notification payload).2.header.kind =
        (if notification then .notify else .request) ∧
      (encodeRequest codecId client session name notification payload).2.header.codec = codecId ∧
      (encodeRequest codecId client session name notification payload).2.header.has .error =
        false ∧
      (encodeRequest codecId client session name notification payload).2.header.has .compressed =
        false ∧
      (encodeRequest codecId client session name notification payload).2.payload = payload := by
  have hnamed : ∀ f : Flag, f = .error ∨ f = .compressed →
      decide ((0 : UInt8) &&& f.bit ≠ 0) = false := by
    rintro f (rfl | rfl) <;> decide
  have hid : ∀ f : Flag, f = .error ∨ f = .compressed →
      decide (((0 : UInt8) ||| Flag.methodId.bit) &&& f.bit ≠ 0) = false := by
    rintro f (rfl | rfl) <;> decide
  unfold encodeRequest
  dsimp only
  split
  · exact ⟨rfl, rfl, hnamed _ (Or.inl rfl), hnamed _ (Or.inr rfl), rfl⟩
  · exact ⟨rfl, rfl, hid _ (Or.inl rfl), hid _ (Or.inr rfl), rfl⟩

/-- The extensions of a request are in order and none is critical. -/
theorem encodeRequest_extensions :
    (encodeRequest codecId client session name notification payload).2.extensions.Ordered ∧
      ∀ e ∈ (encodeRequest codecId client session name notification payload).2.extensions,
        e.1.critical = false := by
  unfold encodeRequest
  dsimp only
  split
  · exact ⟨List.Pairwise.nil, List.forall_mem_nil _⟩
  · rename_i entry _
    have heq : ExtensionMap.set .methodSignatureHash (integerValue 8 entry.signatureHash.toNat)
        (ExtensionMap.set .methodTableVersion
          (integerValue 8 session.remoteMethodTable.version.toNat) []) =
        [(.methodTableVersion, integerValue 8 session.remoteMethodTable.version.toNat),
          (.methodSignatureHash, integerValue 8 entry.signatureHash.toNat)] := rfl
    dsimp only
    rw [heq]
    constructor
    · simp [ExtensionMap.Ordered, ExtensionType.methodTableVersion,
        ExtensionType.methodSignatureHash]
    · simp only [List.forall_mem_cons]
      exact ⟨by decide, by decide, List.forall_mem_nil _⟩

/-- **The method of a request** resolves to its name at a server that agrees with the client. -/
theorem incomingMethodName_sent {context : BackendServerContext} {sender receiver : BackendSession}
    (hserver : context.methodTable.Valid) (hagree : Agree context sender receiver)
    {parts : FrameParts}
    (hflag : parts.header.has .methodId =
      (encodeRequest codecId client sender.toPeerSession name notification payload).2.header.has
        .methodId)
    (hmethod : parts.method =
      (encodeRequest codecId client sender.toPeerSession name notification payload).2.method)
    (hextensions : parts.extensions =
      (encodeRequest codecId client sender.toPeerSession name notification payload).2.extensions) :
    incomingMethodName context.toServerContext receiver.toPeerSession parts = .ok name := by
  cases hfind : (if sender.methodIdEnabled then sender.remoteMethodTable.findByName name
      else none) with
  | none =>
    obtain ⟨hflags, hname⟩ := encodeRequest_named codecId client notification payload hfind
    have hnamed : parts.header.has .methodId = false := by
      rw [hflag]
      unfold Header.has
      rw [hflags]
      rfl
    unfold incomingMethodName
    rw [hnamed, if_pos (by decide), hmethod, hname]
  | some e =>
    split_ifs at hfind with henabled
    obtain ⟨hhas, hid, hversion, hhash⟩ := encodeRequest_found codecId client notification payload
      henabled hfind
    obtain ⟨hpeer, before, taken, happly, htable⟩ := hagree.methodIds henabled
    rw [← hflag] at hhas
    rw [← hmethod] at hid
    rw [← hextensions] at hversion hhash
    rw [htable] at hversion hfind
    exact incomingMethodName_taken hserver happly hpeer hfind hhas hid hversion hhash

end

section

variable {α : Type} {codec : CompressionCodec} {codecId : UInt8} {serializer : Serializer α}
  {message : ErrorCode → MessageType} {errorCode : DecompressStop → ErrorCode}
  {context context' : BackendClientContext} {options : BackendOptions} {client : BackendSession}
  {server : NekoServerSession} {method : RemoteMethod} {payload : MessageType}
  {notification : Bool} {request response : MessageType} {id : UInt64}

/-- The frame of a call's request. -/
def requestFrame (codecId : UInt8) (context : BackendClientContext) (client : BackendSession)
    (name : Name) (notification : Bool) (payload : MessageType) : FrameParts :=
  (encodeRequest codecId context.toClientContext client.toPeerSession name notification payload).2

/-- A request that a client sends is the message of its frame. -/
theorem encodeRequestMessage_eq_ok (hpayload : method.payload = some payload)
    (h : encodeRequestMessage codec codecId errorCode context client method notification =
      (context', .ok (request, id))) :
    encodeOutgoingFrame codec context.options client
        (requestFrame codecId context client method.name notification payload) = .ok request ∧
      (requestFrame codecId context client method.name notification payload).header.id = id ∧
      context'.options = context.options := by
  unfold encodeRequestMessage at h
  rw [hpayload] at h
  dsimp only at h
  unfold requestFrame
  split at h <;> cases h
  exact ⟨by assumption, rfl, rfl⟩

/-- **The request arrives.** A server that agrees with the client and takes the message decodes
the method and the arguments of the call. -/
theorem decodeIncomingMessage_sent (serializer : Serializer α) (message : ErrorCode → MessageType)
    (hserver : server.methodTable.Valid)
    (hagree : Agree ⟨options, server.methodTable⟩ client server.toBackendSession)
    (hname : method.name ≠ []) (hpayload : method.payload = some payload)
    (hsent : encodeRequestMessage codec codecId errorCode context client method notification =
      (context', .ok (request, id)))
    (htaken : Taken codec client options
      (requestFrame codecId context client method.name notification payload) request) :
    ∃ decoded, decodeIncomingMessage codec codecId options serializer message errorCode server
        request = some { requests := [decoded] } ∧
      decoded.method = method.name ∧ decoded.payload = payload ∧ decoded.header.id = id ∧
      expectsResponse decoded.header = !notification := by
  obtain ⟨hencoded, hid, -⟩ := encodeRequestMessage_eq_ok hpayload hsent
  obtain ⟨hkind, hcodec, herror, hcompressed, hkept⟩ := encodeRequest_header codecId
    context.toClientContext client.toPeerSession method.name notification payload
  obtain ⟨hordered, hsupported⟩ := encodeRequest_extensions codecId context.toClientContext
    client.toPeerSession method.name notification payload
  obtain ⟨parts, decompressed, flags, hparse, hdecompress, hframe, hflags⟩ :=
    receive_sent hagree.compression hcompressed hordered hsupported (Or.inl hencoded) htaken
  set frame := requestFrame codecId context client method.name notification payload with hdef
  have hresolved : incomingMethodName (server.context options) server.toPeerSession
      (frame.withFlags flags) = .ok method.name := by
    refine incomingMethodName_sent codecId context.toClientContext method.name notification payload
      hserver hagree ?_ rfl rfl
    unfold Header.has
    rw [show (frame.withFlags flags).header.flags = flags from rfl,
      hflags Flag.methodId.bit (by decide) (by decide)]
  have hnoerror : (frame.withFlags flags).header.has .error = false := by
    unfold Header.has at herror ⊢
    rw [show (frame.withFlags flags).header.flags = flags from rfl,
      hflags Flag.error.bit (by decide) (by decide)]
    exact herror
  have hframeKind : (frame.withFlags flags).header.kind =
      if notification then .notify else .request := hkind
  obtain ⟨decoded, hdecoded, hmethod, hpayload', hkind', hid'⟩ := decodeIncoming_resolved
    (by cases notification with
      | false => exact Or.inl hframeKind
      | true => exact Or.inr hframeKind) hnoerror hname hresolved
  refine ⟨decoded, ?_, hmethod, hpayload'.trans hkept, hid'.trans hid, ?_⟩
  · have hwithin := htaken.within
    have hframeCodec : frame.header.codec = codecId := hcodec
    rw [hframeCodec] at hwithin
    rw [hcodec] at hparse
    unfold decodeIncomingMessage decodeIncomingFrame
    rw [hwithin, hparse]
    dsimp only
    rw [hdecompress]
    dsimp only
    rw [hframe]
    unfold requestFrame at hdef
    rw [← hdef, hdecoded]
  · unfold expectsResponse
    rw [hkind', hframeKind]
    cases notification <;> rfl

/-! ## The response -/

/-- The frame of a response to what a method returned. -/
theorem methodReturn_frame (serializer : Serializer α) (message : ErrorCode → MessageType)
    (codecId : UInt8) (id : UInt64) (result : HandlerResult) :
    (methodReturn serializer message codecId id result).header.codec = codecId ∧
      (methodReturn serializer message codecId id result).header.has .compressed = false ∧
      (methodReturn serializer message codecId id result).extensions = [] := by
  have herror : decide (Flag.error.bit &&& Flag.compressed.bit ≠ 0) = false := by decide
  have hvalue : decide ((0 : UInt8) &&& Flag.compressed.bit ≠ 0) = false := by decide
  cases result with
  | error error =>
    obtain ⟨hheader, hextensions⟩ :=
      makeErrorResponse_header serializer message codecId id error []
    unfold methodReturn
    rw [hheader]
    exact ⟨rfl, herror, hextensions⟩
  | value value =>
    cases value with
    | some value => exact ⟨rfl, hvalue, rfl⟩
    | none =>
      obtain ⟨hheader, hextensions⟩ := makeErrorResponse_header serializer message codecId id
        RpcError.internalError.toErrorCode []
      unfold methodReturn
      rw [hheader]
      exact ⟨rfl, herror, hextensions⟩

/-- What a server sends for a response: the frame with what the session transforms, or as it is. -/
theorem encodeResponses_cases (codec : CompressionCodec) (options : BackendOptions)
    (server : NekoServerSession) {frame : FrameParts} (hcodec : frame.header.codec = codecId) :
    encodeResponses codec codecId options server [frame] = [] ∨
      encodeOutgoingFrame codec options server.toBackendSession frame =
        .ok (encodeResponses codec codecId options server [frame]) ∨
      encodeChecked options frame =
        .ok (encodeResponses codec codecId options server [frame]) := by
  unfold encodeResponses
  rw [List.flatMap_cons, List.flatMap_nil, List.append_nil]
  unfold encodeResponseFrame
  cases hencoded : encodeOutgoingFrame codec options server.toBackendSession frame with
  | ok sent => exact Or.inr (Or.inl rfl)
  | error error =>
    dsimp only
    cases hvalidate : validateFrameSize (encodeFrame frame) codecId options.frameLimits with
    | error error => exact Or.inl rfl
    | ok u =>
      refine Or.inr (Or.inr ?_)
      unfold encodeChecked
      dsimp only
      rw [hcodec, hvalidate]
      rfl

/-- A response is decoded by its flag `Error` alone. -/
theorem decodeResponse_withFlags {session : PeerSession} {frame : FrameParts} {flags : UInt8}
    (h : flags &&& Flag.error.bit = frame.header.flags &&& Flag.error.bit) :
    decodeResponse serializer codecId session (frame.withFlags flags) id =
      decodeResponse serializer codecId session frame id := by
  have hhas : (frame.withFlags flags).header.has .error = frame.header.has .error := by
    unfold Header.has
    rw [show (frame.withFlags flags).header.flags = flags from rfl, h]
  unfold decodeResponse
  rw [hhas]
  rfl

/-- **The response arrives.** A client that agrees with the server and takes the message decodes
the frame of what the method returned. -/
theorem decodeResponseMessage_sent (errorCode : DecompressStop → ErrorCode)
    {result : HandlerResult}
    (hsame : SameCompression client server.toBackendSession)
    (hsent : encodeResponses codec codecId options server
      [methodReturn serializer message codecId id result] = response)
    (htaken : Taken codec server.toBackendSession context.options
      (methodReturn serializer message codecId id result) response) :
    decodeResponseMessage codec codecId serializer errorCode context client response id =
      ({ client with toPeerSession := (decodeResponse serializer codecId client.toPeerSession
          (methodReturn serializer message codecId id result) id).1 },
        (decodeResponse serializer codecId client.toPeerSession
          (methodReturn serializer message codecId id result) id).2) := by
  obtain ⟨hcodec, hcompressed, hextensions⟩ :=
    methodReturn_frame serializer message codecId id result
  have hwithin := htaken.within
  rw [hcodec] at hwithin
  have hencoded : encodeOutgoingFrame codec options server.toBackendSession
        (methodReturn serializer message codecId id result) = .ok response ∨
      encodeChecked options (methodReturn serializer message codecId id result) =
        .ok response := by
    rcases encodeResponses_cases codec options server hcodec with hnil | hcases
    · -- an empty message is no frame
      rw [hsent] at hnil
      rw [hnil] at hwithin
      cases hwithin
    · rw [hsent] at hcases
      exact hcases
  obtain ⟨parts, decompressed, flags, hparse, hdecompress, hframe, hflags⟩ :=
    receive_sent hsame.symm hcompressed (by rw [hextensions]; exact List.Pairwise.nil)
      (by rw [hextensions]; exact List.forall_mem_nil _) hencoded htaken
  rw [hcodec] at hparse
  unfold decodeResponseMessage
  rw [hwithin, hparse]
  dsimp only
  rw [hdecompress]
  dsimp only
  rw [hframe, decodeResponse_withFlags (hflags _ (by decide) (by decide))]

/-- A value is read as what the serializer reads from its payload. -/
theorem decodeResponse_value {value : MessageType} {read : α} {session : PeerSession}
    (h : serializer.decodeValue value = some read) :
    decodeResponse serializer codecId session
        (methodReturn serializer message codecId id (.value (some value))) id =
      (session, .ok read) := by
  unfold decodeResponse methodReturn makeResponse
  rw [if_neg (by simp), if_neg (by simp), if_neg (by simp [Header.has])]
  dsimp only
  rw [h]

/-- An error is read with its value. -/
theorem decodeResponse_error {error : ErrorCode} {written : MessageType} {session : PeerSession}
    (h : serializer.encodeError { code := error.value, message := message error } = some written) :
    (decodeResponse serializer codecId session
        (methodReturn serializer message codecId id (.error error)) id).2 =
      .error ⟨.rpc, error.value⟩ :=
  decodeResponse_written h

end

/-! ## From the hello to the response -/

/-- **A call after a handshake.** Take any options and any table of the server, reached by any
updates, and any hello whose answer the client accepts, both on new sessions. A call of a named
method whose request the server takes is dispatched with its name and its arguments. Of whatever
the handler returns, if the client takes the response, it reads the value, or an error with the
same code; but the error of a method of `void` that `invoke` calls is read as a success. -/
theorem call_after_hello {α : Type} (codec : CompressionCodec) (codecId : UInt8)
    (serializer : Serializer α) (message : ErrorCode → MessageType)
    (errorCode : DecompressStop → ErrorCode) (clientOptions options : BackendOptions)
    (maxEntries : UInt64) (ops : List TableUpdate) (server client : BackendSession)
    (hello answer : MessageType) (nextId : UInt64) (context' : BackendClientContext) (name : Name)
    (payload request : MessageType) (id : UInt64) (hname : name ≠ []) :
    let table := MethodIdTable.updates { maxEntries := maxEntries } ops
    let context : BackendClientContext := { options := clientOptions, nextId := nextId }
    let peer : NekoServerSession := { server with methodTable := table }
    handleServerControl codec codecId ⟨options, table⟩ options.makePeerSession hello =
      .ok (server, some answer) →
    handleClientControl codec codecId clientOptions.makePeerSession answer = (client, true) →
    encodeRequestMessage codec codecId errorCode context client ⟨name, some payload⟩ false =
      (context', .ok (request, id)) →
    Taken codec client options (requestFrame codecId context client name false payload) request →
    ∃ decoded, decodeIncomingMessage codec codecId options serializer message errorCode peer
        request = some { requests := [decoded] } ∧
      decoded.method = name ∧ decoded.payload = payload ∧
      ∀ isVoid withContext returned response,
        encodeResponses codec codecId options peer (appendMethodReturn codecId serializer message
          decoded (callHandler isVoid withContext returned)) = response →
        Taken codec server clientOptions (methodReturn serializer message codecId id
          (callHandler isVoid withContext returned)) response →
        (∀ value read, returned = .value (some value) →
          serializer.decodeValue value = some read →
          decodeResponseMessage codec codecId serializer errorCode context' client response id =
            (client, .ok read)) ∧
        ∀ error, returned = .error error →
          (¬(isVoid = true ∧ withContext = false) → ∀ written,
            serializer.encodeError { code := error.value, message := message error } =
              some written →
            (decodeResponseMessage codec codecId serializer errorCode context' client response
              id).2 = .error ⟨.rpc, error.value⟩) ∧
          (isVoid = true ∧ withContext = false → ∀ read, serializer.decodeValue [] = some read →
            decodeResponseMessage codec codecId serializer errorCode context' client response id =
              (client, .ok read)) := by
  intro table context peer hserver hclient hsent htaken
  have hagree : Agree ⟨options, table⟩ client server := agree_hello hserver hclient
  have hvalid : table.Valid :=
    (updates_valid (MethodIdTable.clear_valid { maxEntries := maxEntries })).1
  have hagree' : Agree ⟨options, peer.methodTable⟩ client peer.toBackendSession := hagree
  obtain ⟨decoded, hdecoded, hmethod, hpayload, hid, hexpects⟩ := decodeIncomingMessage_sent
    serializer message hvalid hagree' hname rfl hsent htaken
  obtain ⟨-, -, hoptions⟩ := encodeRequestMessage_eq_ok rfl hsent
  refine ⟨decoded, hdecoded, hmethod, hpayload,
    fun isVoid withContext returned response hresponse htaken' => ?_⟩
  have hanswers : expectsResponse decoded.header = true := hexpects
  have hframes : ∀ result, appendMethodReturn codecId serializer message decoded result =
      [methodReturn serializer message codecId id result] := by
    intro result
    unfold appendMethodReturn
    rw [if_pos hanswers, hid]
  rw [hframes] at hresponse
  have hread := decodeResponseMessage_sent errorCode hagree.compression hresponse
    (by rw [← show context'.options = clientOptions from hoptions] at htaken'; exact htaken')
  rw [hread]
  refine ⟨?_, ?_⟩
  · rintro value read rfl hvalue
    rw [show callHandler isVoid withContext (.value (some value)) = .value (some value) from rfl,
      decodeResponse_value hvalue]
  · rintro error rfl
    refine ⟨fun hkept written hwritten => ?_, fun hdropped read hvalue => ?_⟩
    · have hcall : callHandler isVoid withContext (.error error) = .error error :=
        if_neg (by simpa using hkept)
      rw [hcall]
      exact decodeResponse_error hwritten
    · have hcall : callHandler isVoid withContext (.error error) = .value (some []) :=
        if_pos (by simpa using hdropped)
      rw [hcall, decodeResponse_value hvalue]

/-- Options with method ids and compression from four bytes on. -/
def wireOptions : BackendOptions where
  compression := .auto
  compressionMinPayloadSize := 4

/-- A server with these options and a method `a`. -/
def wireContext : BackendServerContext where
  options := wireOptions
  methodTable := MethodIdTable.updates { maxEntries := 4 } [.upsert [97] 1]

/-- Its session after the hello of a client with the same options. -/
def wireServer : BackendSession :=
  negotiate runLengthCodec wireContext wireOptions.makePeerSession
    (clientHelloExtensions runLengthCodec wireOptions)

/-- The session of the client after the answer. -/
def wireClient : BackendSession :=
  (handleClientControl runLengthCodec 1 wireOptions.makePeerSession
    (encodeHello (serverHelloExtensions wireContext wireServer) 1)).1

/-- A call of `a` with six zeros. -/
def wireFrame : FrameParts :=
  requestFrame 1 { options := wireOptions, nextId := 7 } wireClient [97] false [0, 0, 0, 0, 0, 0]

/-- Its message, with the zeros compressed. -/
def wireRequest : MessageType :=
  encodeFrame (wireFrame.compressed (compressRunLength [0, 0, 0, 0, 0, 0]))

theorem call_after_hello_zeros :
    ∃ decoded, decodeIncomingMessage runLengthCodec 1 wireOptions plainSerializer (fun _ => [])
        (fun _ => RpcError.internalError.toErrorCode)
        { wireServer with methodTable := wireContext.methodTable } wireRequest =
          some { requests := [decoded] } ∧
      decoded.method = [97] ∧ decoded.payload = [0, 0, 0, 0, 0, 0] := by
  have htaken : Taken runLengthCodec wireClient wireOptions wireFrame wireRequest := {
    undoes := fun compressed budget hcompress hle => by
      obtain rfl := Except.ok.inj hcompress
      exact decompress_compress_of_aligned hle (by decide +kernel)
    within := by decide +kernel
    budget := fun compressed h => by
      obtain rfl := Except.ok.inj h.compress_eq
      decide +kernel }
  have hsent : encodeRequestMessage runLengthCodec 1 (fun _ => RpcError.internalError.toErrorCode)
      { options := wireOptions, nextId := 7 } wireClient ⟨[97], some [0, 0, 0, 0, 0, 0]⟩ false =
        ({ options := wireOptions, nextId := 8 }, .ok (wireRequest, 8)) := by decide +kernel
  obtain ⟨decoded, hdecoded, hmethod, hpayload, -⟩ := call_after_hello runLengthCodec 1
    plainSerializer (fun _ => []) (fun _ => RpcError.internalError.toErrorCode) wireOptions
    wireOptions 4 [.upsert [97] 1] wireServer wireClient
    (encodeHello (clientHelloExtensions runLengthCodec wireOptions) 1)
    (encodeHello (serverHelloExtensions wireContext wireServer) 1) 7 _ [97] [0, 0, 0, 0, 0, 0]
    wireRequest 8 (by decide) rfl (Prod.ext rfl (by decide +kernel)) hsent htaken
  exact ⟨decoded, hdecoded, hmethod, hpayload⟩

end NekoProto.Rpc
