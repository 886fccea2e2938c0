import NekoProto.Rpc.FrameCodec

/-!
# Frames on a byte stream

`NekoRpcStreamEndpoint`: `recv` reads a header, computes the size of the body from it and reads
the body; `send` checks a frame, writes it and flushes the stream. The streams are `ilias` streams.
Of these the endpoint relies on `readAll` and `writeAll`, which transfer exactly the bytes asked
for, in order, or fail (`ByteStream`, `ByteSink`).

1. The body size computed from a header is what `parseFrame` requires (`headerBodySize_eq_ok`,
   `parseFrame_length`).
2. `recv` takes a frame off a stream that starts with it (`recv_frame`), and so every frame of a
   sequence (`recvMany_frames`).
-/

namespace NekoProto.Rpc

/-! ## Sizes -/

/-- `NekoRpcFrameLimits`. -/
structure FrameLimits where
  maxFrameBytes : ℕ := 16 * 1024 * 1024
  maxMethodBytes : ℕ := 64 * 1024
  maxPayloadBytes : ℕ := 16 * 1024 * 1024
  maxExtensionBytes : ℕ := 64 * 1024
  deriving DecidableEq, Repr

/-- `headerBodySize`. -/
def headerBodySize (header : MessageType) (codec : UInt8) (limits : FrameLimits) :
    Except CodecError ℕ :=
  if header.length ≠ headerSize then .error (.rpc .invalidRequest)
  else
    let parsed := readHeader header
    if !parsed.valid ∨ parsed.codec ≠ codec then .error (.rpc .invalidRequest)
    else if limits.maxMethodBytes < parsed.methodSize.toNat ∨
        limits.maxPayloadBytes < parsed.payloadSize.toNat ∨
        limits.maxExtensionBytes < parsed.extensionSize.toNat then .error (.io .messageTooLarge)
    else
      match frameBodySize parsed with
      | .error _ => .error (.io .messageTooLarge)
      | .ok bodySize =>
        if limits.maxFrameBytes < headerSize ∨ limits.maxFrameBytes - headerSize < bodySize then
          .error (.io .messageTooLarge)
        else .ok bodySize

/-- What a header's sizes have to be for the limits. -/
structure WireHeader.Within (h : WireHeader) (limits : FrameLimits) : Prop where
  method_le : h.methodSize.toNat ≤ limits.maxMethodBytes
  payload_le : h.payloadSize.toNat ≤ limits.maxPayloadBytes
  extension_le : h.extensionSize.toNat ≤ limits.maxExtensionBytes
  frame_le : headerSize + h.bodySize ≤ limits.maxFrameBytes

/-- **The computed body size.** -/
theorem headerBodySize_eq_ok {header : MessageType} {codec : UInt8} {limits : FrameLimits}
    {n : ℕ} : headerBodySize header codec limits = .ok n ↔
      header.length = headerSize ∧ (readHeader header).valid = true ∧
      (readHeader header).codec = codec ∧ (readHeader header).Within limits ∧
      n = (readHeader header).bodySize := by
  unfold headerBodySize
  simp only [frameBodySize_eq]
  constructor
  · intro h
    split_ifs at h with hlen hvalid hlimits hframe
    rw [not_not] at hlen
    simp only [Bool.not_eq_true', not_or, Bool.not_eq_false, not_not] at hvalid
    exact ⟨hlen, hvalid.1, hvalid.2, ⟨by omega, by omega, by omega, by omega⟩,
      (Except.ok.inj h).symm⟩
  · rintro ⟨hlen, hvalid, hcodec, ⟨hm, hp, he, hf⟩, rfl⟩
    rw [if_neg (by simp [hlen]), if_neg (by simp [hvalid, hcodec]), if_neg (by omega),
      if_neg (by omega)]

/-- A header whose sizes are not within the limits. -/
theorem headerBodySize_tooLarge {header : MessageType} {codec : UInt8} {limits : FrameLimits}
    (hlen : header.length = headerSize) (hvalid : (readHeader header).valid = true)
    (hcodec : (readHeader header).codec = codec) (h : ¬(readHeader header).Within limits) :
    headerBodySize header codec limits = .error (.io .messageTooLarge) := by
  unfold headerBodySize
  simp only [frameBodySize_eq]
  rw [if_neg (by simp [hlen]), if_neg (by simp [hvalid, hcodec])]
  split_ifs with hlimits hframe
  · rfl
  · rfl
  · exact absurd ⟨by omega, by omega, by omega, by omega⟩ h

/-- A header is read from the first bytes only. -/
theorem readHeader_take (data : MessageType) : readHeader (data.take headerSize) =
    readHeader data := by
  have hread : ∀ size offset, offset + size ≤ headerSize →
      readInteger size (data.take headerSize) offset = readInteger size data offset := by
    intro size offset h
    unfold readInteger
    rw [List.drop_take, List.take_take, Nat.min_eq_left (by omega)]
  unfold readHeader
  simp (disch := decide) only [hread]

/-- **The body length.** What follows the header of a frame that parses is its body. -/
theorem parseFrame_length {data : MessageType} {codec : UInt8}
    (h : (parseFrame data codec).isSome = true) :
    headerSize ≤ data.length ∧ (readHeader data).valid = true ∧ (readHeader data).codec = codec ∧
      data.length = headerSize + (readHeader data).bodySize := by
  obtain ⟨hlen, hmagic, hversion, hcodec, hkind, hsize, -⟩ :=
    (parseFrame_isSome_iff data codec).mp h
  refine ⟨hlen, by simp [WireHeader.valid, hmagic, hversion, hkind], hcodec, ?_⟩
  rw [WireHeader.bodySize]
  omega

/-! ## Streams -/

/-- The errors of an endpoint's `recv` and `send`. -/
inductive EndpointError
  | codec (error : CodecError)
  | unexpectedEof
  | writeZero
  | stream
  deriving DecidableEq, Repr

/-- The reading side of an `ilias` stream: the bytes it still has to deliver before it ends, and
`readAll`, which takes as many of them as it is asked for, or fails where the stream ends before. -/
structure ByteStream (σ : Type) where
  pending : σ → MessageType
  readAll : ℕ → σ → Except EndpointError (MessageType × σ)
  readAll_ok : ∀ {n : ℕ} {s : σ}, n ≤ (pending s).length → ∃ s',
    readAll n s = .ok ((pending s).take n, s') ∧ pending s' = (pending s).drop n
  readAll_eof : ∀ {n : ℕ} {s : σ}, (pending s).length < n → readAll n s = .error .unexpectedEof

namespace ByteStream

variable {σ : Type} (stream : ByteStream σ) {s : σ}

/-- What is pending first is read. -/
theorem readAll_append {front back : MessageType} (hs : stream.pending s = front ++ back) :
    ∃ s', stream.readAll front.length s = .ok (front, s') ∧ stream.pending s' = back := by
  obtain ⟨s', hread, hs'⟩ := stream.readAll_ok (n := front.length) (s := s)
    (by rw [hs, List.length_append]; omega)
  rw [hs, List.take_left] at hread
  rw [hs, List.drop_left] at hs'
  exact ⟨s', hread, hs'⟩

/-- What was read was pending first. -/
theorem readAll_eq_ok {n : ℕ} {s' : σ} {bytes : MessageType}
    (h : stream.readAll n s = .ok (bytes, s')) :
    bytes.length = n ∧ stream.pending s = bytes ++ stream.pending s' := by
  by_cases hlen : n ≤ (stream.pending s).length
  · obtain ⟨s₁, hread, hs₁⟩ := stream.readAll_ok hlen
    rw [hread] at h
    obtain ⟨rfl, rfl⟩ := Prod.mk.inj (Except.ok.inj h)
    rw [hs₁, List.take_append_drop, List.length_take]
    exact ⟨by omega, rfl⟩
  · rw [stream.readAll_eof (by omega)] at h
    exact absurd h (by simp)

end ByteStream

/-- The writing side: the bytes written so far, `writeAll`, which adds the bytes it is given, or
fails, and `flush`, which adds nothing and may fail too. -/
structure ByteSink (τ : Type) where
  written : τ → MessageType
  writeAll : MessageType → τ → Except EndpointError (ℕ × τ)
  flush : τ → Except EndpointError τ
  writeAll_ok : ∀ {bytes : MessageType} {n : ℕ} {t t' : τ}, writeAll bytes t = .ok (n, t') →
    n = bytes.length ∧ written t' = written t ++ bytes
  flush_ok : ∀ {t t' : τ}, flush t = .ok t' → written t' = written t

/-- Reading from chunks, each of which a single read returns up to its end. -/
def readChunks : ℕ → List MessageType → Except EndpointError (MessageType × List MessageType)
  | 0, chunks => .ok ([], chunks)
  | _ + 1, [] => .error .unexpectedEof
  | n + 1, chunk :: chunks =>
    if chunk.length ≤ n + 1 then
      match readChunks (n + 1 - chunk.length) chunks with
      | .ok (bytes, rest) => .ok (chunk ++ bytes, rest)
      | .error error => .error error
    else .ok (chunk.take (n + 1), chunk.drop (n + 1) :: chunks)

theorem readChunks_ok : ∀ {chunks : List MessageType} {n : ℕ}, n ≤ chunks.flatten.length →
    ∃ rest, readChunks n chunks = .ok (chunks.flatten.take n, rest) ∧
      rest.flatten = chunks.flatten.drop n := by
  intro chunks
  induction chunks with
  | nil =>
    intro n h
    obtain rfl := Nat.le_zero.mp h
    exact ⟨[], rfl, rfl⟩
  | cons chunk chunks ih =>
    intro n h
    cases n with
    | zero => exact ⟨chunk :: chunks, rfl, rfl⟩
    | succ n =>
      rw [List.flatten_cons, List.length_append] at h
      unfold readChunks
      by_cases hle : chunk.length ≤ n + 1
      · obtain ⟨rest, hread, hrest⟩ := ih (n := n + 1 - chunk.length) (by omega)
        rw [if_pos hle, hread, List.flatten_cons, List.take_append, List.take_of_length_le hle,
          List.drop_append, List.drop_of_length_le hle]
        exact ⟨rest, rfl, hrest⟩
      · rw [if_neg hle, List.flatten_cons, List.take_append_of_le_length (by omega),
          List.drop_append_of_le_length (by omega)]
        exact ⟨_, rfl, List.flatten_cons⟩

theorem readChunks_eof : ∀ {chunks : List MessageType} {n : ℕ}, chunks.flatten.length < n →
    readChunks n chunks = .error .unexpectedEof := by
  intro chunks
  induction chunks with
  | nil =>
    intro n h
    cases n with
    | zero => exact absurd h (Nat.not_lt_zero _)
    | succ n => rfl
  | cons chunk chunks ih =>
    intro n h
    rw [List.flatten_cons, List.length_append] at h
    cases n with
    | zero => exact absurd h (Nat.not_lt_zero _)
    | succ n =>
      unfold readChunks
      rw [if_pos (by omega), ih (by omega)]

/-- A stream that arrives in chunks, cut anywhere. -/
def chunkStream : ByteStream (List MessageType) where
  pending := List.flatten
  readAll := readChunks
  readAll_ok := readChunks_ok
  readAll_eof := readChunks_eof

/-! ## The endpoint -/

section Endpoint

variable {σ τ : Type} (stream : ByteStream σ) (sink : ByteSink τ) (codecId : UInt8)
  (limits : FrameLimits)

/-- `_readFrame` and `recv`: the frame in the buffer. -/
def recv (s : σ) : Except EndpointError (MessageType × σ) := do
  let (headerBytes, s) ← stream.readAll headerSize s
  if headerBytes.length ≠ headerSize then
    throw .unexpectedEof
  let bodySize ← (headerBodySize headerBytes codecId limits).mapError .codec
  if bodySize = 0 then
    return (headerBytes, s)
  let (body, s) ← stream.readAll bodySize s
  if body.length ≠ bodySize then
    throw .unexpectedEof
  return (headerBytes ++ body, s)

/-- The checks of `_writeFrame`. -/
def checkFrame (frame : MessageType) : Except EndpointError Unit :=
  if frame.length < headerSize ∨ limits.maxFrameBytes < frame.length then
    .error (.codec (.io .messageTooLarge))
  else
    match headerBodySize (frame.take headerSize) codecId limits with
    | .error error => .error (.codec error)
    | .ok bodySize =>
      if bodySize ≠ frame.length - headerSize then .error (.codec (.rpc .invalidRequest))
      else .ok ()

/-- `_writeFrame` and `send`. -/
def send (frame : MessageType) (t : τ) : Except EndpointError τ := do
  checkFrame codecId limits frame
  let (written, t) ← sink.writeAll frame t
  if written ≠ frame.length then
    throw .writeZero
  sink.flush t

/-- Sending frames one after the other. -/
def sendMany : List MessageType → τ → Except EndpointError τ
  | [], t => .ok t
  | frame :: frames, t => (send sink codecId limits frame t).bind (sendMany frames)

/-- Receiving a number of frames one after the other. -/
def recvMany : ℕ → σ → Except EndpointError (List MessageType × σ)
  | 0, s => .ok ([], s)
  | n + 1, s => do
    let (frame, s) ← recv stream codecId limits s
    let (frames, s) ← recvMany n s
    return (frame :: frames, s)

/-- What `_writeFrame` lets pass. -/
structure Sendable (frame : MessageType) : Prop where
  header_le : headerSize ≤ frame.length
  valid : (readHeader frame).valid = true
  codec_eq : (readHeader frame).codec = codecId
  within : (readHeader frame).Within limits
  length_eq : frame.length = headerSize + (readHeader frame).bodySize

variable {codecId limits}

theorem checkFrame_eq_ok {frame : MessageType} :
    checkFrame codecId limits frame = .ok () ↔ Sendable codecId limits frame := by
  unfold checkFrame
  constructor
  · intro h
    split_ifs at h with hlen
    cases hsize : headerBodySize (frame.take headerSize) codecId limits with
    | error error => rw [hsize] at h; exact absurd h (by simp)
    | ok n =>
      rw [hsize] at h
      simp only at h
      split_ifs at h with hbody
      rw [not_not] at hbody
      obtain ⟨-, hvalid, hcodec, hwithin, rfl⟩ := headerBodySize_eq_ok.mp hsize
      rw [readHeader_take] at hvalid hcodec hwithin hbody
      exact ⟨by omega, hvalid, hcodec, hwithin, by omega⟩
  · rintro ⟨hlen, hvalid, hcodec, hwithin, hlength⟩
    have hframe := hwithin.frame_le
    have hsize : headerBodySize (frame.take headerSize) codecId limits =
        .ok (readHeader frame).bodySize := by
      rw [headerBodySize_eq_ok, readHeader_take]
      exact ⟨by rw [List.length_take]; omega, hvalid, hcodec, hwithin, rfl⟩
    rw [if_neg (by omega), hsize]
    simp only
    rw [if_neg (by omega)]

/-- A frame that was sent. -/
theorem send_eq_ok {frame : MessageType} {t t' : τ}
    (h : send sink codecId limits frame t = .ok t') :
    Sendable codecId limits frame ∧ sink.written t' = sink.written t ++ frame := by
  unfold send at h
  cases hcheck : checkFrame codecId limits frame with
  | error error => rw [hcheck] at h; exact absurd h (by simp [bind, Except.bind])
  | ok u =>
    rw [hcheck] at h
    cases hwrite : sink.writeAll frame t with
    | error error => rw [hwrite] at h; exact absurd h (by simp [bind, Except.bind])
    | ok p =>
      obtain ⟨n, t₁⟩ := p
      obtain ⟨hn, hwritten⟩ := sink.writeAll_ok hwrite
      rw [hwrite] at h
      simp only [bind, Except.bind, hn, ne_eq, not_true, if_false] at h
      exact ⟨checkFrame_eq_ok.mp hcheck, (sink.flush_ok h).trans hwritten⟩

/-- Frames that were sent stand on the wire back to back. -/
theorem sendMany_eq_ok {frames : List MessageType} : ∀ {t t' : τ},
    sendMany sink codecId limits frames t = .ok t' →
      (∀ frame ∈ frames, Sendable codecId limits frame) ∧
        sink.written t' = sink.written t ++ frames.flatten := by
  induction frames with
  | nil =>
    intro t t' h
    obtain rfl := Except.ok.inj h
    exact ⟨fun frame hf => absurd hf List.not_mem_nil, by simp⟩
  | cons frame frames ih =>
    intro t t' h
    unfold sendMany at h
    cases hsend : send sink codecId limits frame t with
    | error error => rw [hsend] at h; exact absurd h (by simp [Except.bind])
    | ok t₁ =>
      rw [hsend] at h
      obtain ⟨hsendable, hwritten⟩ := send_eq_ok sink hsend
      obtain ⟨hrest, hwritten'⟩ := ih h
      refine ⟨List.forall_mem_cons.mpr ⟨hsendable, hrest⟩, ?_⟩
      rw [hwritten', hwritten, List.flatten_cons, List.append_assoc]

/-- **Receiving a frame.** -/
theorem recv_frame {frame rest : MessageType} (h : Sendable codecId limits frame) {s : σ}
    (hs : stream.pending s = frame ++ rest) :
    ∃ s', recv stream codecId limits s = .ok (frame, s') ∧ stream.pending s' = rest := by
  have hlen := h.length_eq
  have hheader : (frame.take headerSize).length = headerSize := by
    rw [List.length_take, Nat.min_eq_left h.header_le]
  have hsize : headerBodySize (frame.take headerSize) codecId limits =
      .ok (readHeader frame).bodySize := by
    rw [headerBodySize_eq_ok, readHeader_take]
    exact ⟨hheader, h.valid, h.codec_eq, h.within, rfl⟩
  have hbody : (frame.drop headerSize).length = (readHeader frame).bodySize := by
    rw [List.length_drop]
    omega
  rw [← List.take_append_drop headerSize frame, List.append_assoc] at hs
  obtain ⟨s₁, hread, hs₁⟩ := stream.readAll_append hs
  rw [hheader] at hread
  unfold recv
  simp only [hread, bind, Except.bind, hheader, hsize, Except.mapError, ne_eq, not_true, if_false,
    pure, Except.pure]
  by_cases hzero : (readHeader frame).bodySize = 0
  · rw [if_pos hzero]
    have hframe : frame.take headerSize = frame := List.take_of_length_le (by omega)
    refine ⟨s₁, by rw [hframe], ?_⟩
    rw [hs₁, List.drop_of_length_le (by omega), List.nil_append]
  · obtain ⟨s₂, hread₂, hs₂⟩ := stream.readAll_append hs₁
    rw [hbody] at hread₂
    rw [if_neg hzero, hread₂]
    simp only [hbody, not_true, if_false, List.take_append_drop]
    exact ⟨s₂, rfl, hs₂⟩

/-- At the end of the stream. -/
theorem recv_eof {s : σ} (hs : stream.pending s = []) :
    recv stream codecId limits s = .error .unexpectedEof := by
  unfold recv
  rw [stream.readAll_eof (by rw [hs]; decide)]
  rfl

/-- **Receiving frames that stand back to back.** -/
theorem recvMany_frames {frames : List MessageType} : ∀ {s : σ},
    (∀ frame ∈ frames, Sendable codecId limits frame) → stream.pending s = frames.flatten →
      ∃ s', recvMany stream codecId limits frames.length s = .ok (frames, s') ∧
        stream.pending s' = [] := by
  induction frames with
  | nil => intro s _ hs; exact ⟨s, rfl, hs⟩
  | cons frame frames ih =>
    intro s h hs
    obtain ⟨hframe, hrest⟩ := List.forall_mem_cons.mp h
    obtain ⟨s₁, hrecv, hs₁⟩ := recv_frame stream hframe hs
    obtain ⟨s₂, hmany, hs₂⟩ := ih hrest hs₁
    refine ⟨s₂, ?_, hs₂⟩
    rw [List.length_cons]
    unfold recvMany
    simp only [hrecv, bind, Except.bind, hmany]
    rfl

end Endpoint

/-- A sink that keeps what is written. -/
def byteSink : ByteSink MessageType where
  written := id
  writeAll bytes t := .ok (bytes.length, t ++ bytes)
  flush := .ok
  writeAll_ok h := by
    obtain ⟨rfl, rfl⟩ := Prod.mk.inj (Except.ok.inj h)
    exact ⟨rfl, rfl⟩
  flush_ok h := congrArg id (Except.ok.inj h).symm

/-! ## Encoded frames on a stream -/

/-- A frame whose parts are within the endpoint's limits. -/
structure FrameParts.Within (frame : FrameParts) (limits : FrameLimits) : Prop where
  method_le : frame.method.length ≤ limits.maxMethodBytes
  payload_le : frame.payload.length ≤ limits.maxPayloadBytes
  extension_le : (frame.extensions.flatMap encodeTlv).length ≤ limits.maxExtensionBytes
  frame_le : headerSize + (frame.method.length + (frame.extensions.flatMap encodeTlv).length +
    frame.payload.length) ≤ limits.maxFrameBytes

/-- An encoded frame passes the checks of the endpoint. -/
theorem FrameParts.Representable.sendable {frame : FrameParts} (h : frame.Representable)
    (hkind : frame.header.kind.known = true) {limits : FrameLimits}
    (hwithin : frame.Within limits) : Sendable frame.header.codec limits (encodeFrame frame) := by
  obtain ⟨hm, he, hp⟩ := h.wireHeader_sizes
  obtain ⟨h1, h2, h3, h4⟩ := hwithin
  have hread : readHeader (encodeFrame frame) =
      frame.wireHeader (frame.extensions.flatMap encodeTlv) := by
    rw [h.encodeFrame_eq]
    exact readHeader_append _ _
  have hlen : (encodeFrame frame).length = headerSize + (frame.method.length +
      ((frame.extensions.flatMap encodeTlv).length + frame.payload.length)) := by
    rw [h.encodeFrame_eq]
    simp only [List.length_append, length_bytes]
  refine ⟨by omega, ?_, by rw [hread]; rfl, ?_, ?_⟩
  · rw [hread]
    simpa [WireHeader.valid, FrameParts.wireHeader] using hkind
  · rw [hread]
    exact ⟨by omega, by omega, by omega, by rw [WireHeader.bodySize]; omega⟩
  · rw [hread, WireHeader.bodySize]
    omega

/-- **Stream framing.** Encoded frames of the endpoint's codec within its limits pass the checks of
`send`. Written back to back and read from a stream that delivers what was written, they come out
of `recv` byte for byte and in order, and then `recv` reports the end of the stream. And the body
size the endpoint computes from a header is the body length `parseFrame` requires. -/
theorem stream_framing {σ τ : Type} (stream : ByteStream σ) (sink : ByteSink τ) (codecId : UInt8)
    (limits : FrameLimits) (frames : List FrameParts)
    (hframes : ∀ frame ∈ frames, frame.header.kind.known = true ∧ frame.header.codec = codecId ∧
      encodeFrame frame ≠ [] ∧ frame.Within limits) :
    (∀ frame ∈ frames, checkFrame codecId limits (encodeFrame frame) = .ok ()) ∧
    (∀ (t t' : τ) (s : σ), sink.written t = [] →
      sendMany sink codecId limits (frames.map encodeFrame) t = .ok t' →
      stream.pending s = sink.written t' →
      ∃ s', recvMany stream codecId limits frames.length s = .ok (frames.map encodeFrame, s') ∧
        recv stream codecId limits s' = .error .unexpectedEof) ∧
    (∀ (header body : MessageType) (n : ℕ), headerBodySize header codecId limits = .ok n →
      (parseFrame (header ++ body) codecId).isSome = true → body.length = n) ∧
    ∀ data : MessageType, (parseFrame data codecId).isSome = true →
      headerBodySize (data.take headerSize) codecId limits = .ok (data.length - headerSize) ∨
        headerBodySize (data.take headerSize) codecId limits =
          .error (.io .messageTooLarge) := by
  refine ⟨fun frame hf => ?_, fun t t' s hempty hsent hs => ?_,
    fun header body n hsize hparse => ?_, fun data hparse => ?_⟩
  · obtain ⟨hkind, rfl, hne, hwithin⟩ := hframes frame hf
    have h : frame.Representable := not_not.mp fun h => hne (encodeFrame_eq_nil.mpr h)
    exact checkFrame_eq_ok.mpr (h.sendable hkind hwithin)
  · obtain ⟨hsendable, hwritten⟩ := sendMany_eq_ok sink hsent
    rw [hwritten, hempty, List.nil_append] at hs
    obtain ⟨s', hmany, hs'⟩ := recvMany_frames stream hsendable hs
    rw [List.length_map] at hmany
    exact ⟨s', hmany, recv_eof stream hs'⟩
  · obtain ⟨hlen, -, -, -, rfl⟩ := headerBodySize_eq_ok.mp hsize
    obtain ⟨-, -, -, hlength⟩ := parseFrame_length hparse
    rw [← readHeader_take, List.take_left' hlen, List.length_append] at hlength
    omega
  · obtain ⟨hlen, hvalid, hcodec, hlength⟩ := parseFrame_length hparse
    have htake : (data.take headerSize).length = headerSize := by
      rw [List.length_take, Nat.min_eq_left hlen]
    by_cases hwithin : (readHeader data).Within limits
    · left
      rw [headerBodySize_eq_ok, readHeader_take]
      exact ⟨htake, hvalid, hcodec, hwithin, by omega⟩
    · right
      rw [← readHeader_take] at hvalid hcodec hwithin
      exact headerBodySize_tooLarge htake hvalid hcodec hwithin

/-- A cancel frame and a hello frame. -/
def cancelAndHello : List FrameParts :=
  [{ header := { kind := .cancel, flags := 0, codec := 1, id := 7 }
     method := [], extensions := [], payload := [] },
   { header := { kind := .hello, flags := 0, codec := 1, id := 0 }
     method := [], extensions := [(.methodId, [])], payload := [] }]

theorem stream_framing_cancelAndHello :
    (∀ frame ∈ cancelAndHello, checkFrame 1 {} (encodeFrame frame) = .ok ()) ∧
    (∀ (t t' : MessageType) (s : List MessageType), byteSink.written t = [] →
      sendMany byteSink 1 {} (cancelAndHello.map encodeFrame) t = .ok t' →
      chunkStream.pending s = byteSink.written t' →
      ∃ s', recvMany chunkStream 1 {} cancelAndHello.length s =
          .ok (cancelAndHello.map encodeFrame, s') ∧
        recv chunkStream 1 {} s' = .error .unexpectedEof) ∧
    (∀ (header body : MessageType) (n : ℕ), headerBodySize header 1 {} = .ok n →
      (parseFrame (header ++ body) 1).isSome = true → body.length = n) ∧
    ∀ data : MessageType, (parseFrame data 1).isSome = true →
      headerBodySize (data.take headerSize) 1 {} = .ok (data.length - headerSize) ∨
        headerBodySize (data.take headerSize) 1 {} = .error (.io .messageTooLarge) := by
  refine stream_framing chunkStream byteSink 1 {} cancelAndHello fun frame hf => ?_
  have hcases : frame = cancelAndHello[0] ∨ frame = cancelAndHello[1] := by
    simpa [cancelAndHello] using hf
  rcases hcases with rfl | rfl <;>
    exact ⟨by decide, by decide, by decide, by decide, by decide, by decide, by decide⟩

end NekoProto.Rpc
