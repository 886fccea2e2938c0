import NekoProto.Rpc.Backend
import NekoProto.Rpc.RunLength
import NekoProto.Rpc.StreamEndpoint

/-!
# Compressed transport

`backend_compression.hpp`: a sender compresses the payload of a frame when the session says so and
it pays; a receiver decompresses it within an output budget. The sender does not look at the
receiver's budget. `compressed_transport_iff`: the payload arrives exactly when it was sent as it
is, or the budget holds it.
-/

namespace NekoProto.Rpc

/-! ## Codecs, options and sessions -/

/-- The compression codec, a template parameter of `NekoRpcBackend`. -/
structure CompressionCodec where
  preferredAlgorithm : CompressionAlgorithm
  supports : CompressionAlgorithm → Bool
  compress : MessageType → CompressionAlgorithm → Except CodecError MessageType
  decompress : MessageType → CompressionAlgorithm → ℕ → Except DecompressStop MessageType

/-- `NekoRpcCompressionCodec`. -/
def runLengthCodec : CompressionCodec where
  preferredAlgorithm := .runLength
  supports algorithm := algorithm = .runLength
  compress := compress
  decompress := decompress

/-- `NekoRpcBackend::Options` with the fields of the compression and the frame limits. -/
structure BackendOptions extends Options where
  compression : FeatureMode := .disable
  compressionMinPayloadSize : UInt32 := 64
  frameLimits : FrameLimits := {}
  maxDecompressedPayloadBytes : ℕ := 16 * 1024 * 1024
  maxCompressionRatio : ℕ := 130
  deriving DecidableEq, Repr

/-- `PeerSession` with the fields of the compression. -/
structure BackendSession extends PeerSession where
  compressionEnabled : Bool := false
  compressionAlgorithm : CompressionAlgorithm := .none
  compressionMinPayloadSize : UInt32 := 64

/-! ## Sending and receiving -/

/-- `_validateFrameSize`. -/
def validateFrameSize (frame : MessageType) (codecId : UInt8) (limits : FrameLimits) :
    Except CodecError Unit :=
  if frame.length < headerSize then .error (.rpc .invalidRequest)
  else
    match headerBodySize (frame.take headerSize) codecId limits with
    | .error error => .error error
    | .ok bodySize =>
      if bodySize ≠ frame.length - headerSize then .error (.rpc .invalidRequest) else .ok ()

/-- `encode_checked`, which makes the checks of `_validateFrameSize` on the encoded frame. -/
def encodeChecked (options : BackendOptions) (frame : FrameParts) :
    Except CodecError MessageType :=
  let encoded := encodeFrame frame
  match validateFrameSize encoded frame.header.codec options.frameLimits with
  | .error error => .error error
  | .ok () => .ok encoded

/-- The frame with its payload compressed. -/
def FrameParts.compressed (frame : FrameParts) (payload : MessageType) : FrameParts :=
  { frame with
    header := { frame.header with flags := frame.header.flags ||| Flag.compressed.bit }
    payload := payload }

section Transport

variable (codec : CompressionCodec) (options : BackendOptions) (session : BackendSession)

/-- `neko_rpc_encode_outgoing_frame`. -/
def encodeOutgoingFrame (frame : FrameParts) : Except CodecError MessageType :=
  if !session.compressionEnabled ∨ session.compressionAlgorithm = .none then
    encodeChecked options frame
  else if frame.header.kind = .hello ∨ frame.header.has .compressed then
    encodeChecked options frame
  else if frame.payload = [] ∨ frame.payload.length < session.compressionMinPayloadSize.toNat then
    encodeChecked options frame
  else
    match codec.compress frame.payload session.compressionAlgorithm with
    | .error error => .error error
    | .ok compressed =>
      if frame.payload.length ≤ compressed.length then encodeChecked options frame
      else encodeChecked options (frame.compressed compressed)

/-- The `output_budget` for a compressed payload of some size. -/
def outputBudget (size : ℕ) : ℕ :=
  let ratio := max options.maxCompressionRatio 1
  let ratioBudget := if maxSize / ratio < size then maxSize else size * ratio
  min options.maxDecompressedPayloadBytes ratioBudget

/-- `neko_rpc_decompress_incoming_payload`. -/
def decompressIncomingPayload (parts : FrameParts) :
    Except DecompressStop (Option MessageType) :=
  if !parts.header.has .compressed then .ok none
  else if !session.compressionEnabled ∨ session.compressionAlgorithm = .none ∨
      parts.header.kind = .hello then .error (.error (.rpc .invalidRequest))
  else
    match codec.decompress parts.payload session.compressionAlgorithm
        (outputBudget options parts.payload.length) with
    | .error stop => .error stop
    | .ok payload => .ok (some payload)

/-- How `decodeIncoming` and `decodeResponse` come to the payload of a message. -/
def receivePayload (codecId : UInt8) (message : MessageType) :
    Except DecompressStop MessageType :=
  match validateFrameSize message codecId options.frameLimits with
  | .error error => .error (.error error)
  | .ok () =>
    match parseFrame message codecId with
    | none => .error (.error (.rpc .invalidRequest))
    | some parts =>
      match decompressIncomingPayload codec options session parts with
      | .error stop => .error stop
      | .ok decompressed => .ok (decompressed.getD parts.payload)

/-- The sender compresses the payload of a frame, to `compressed`. -/
structure Compresses (frame : FrameParts) (compressed : MessageType) : Prop where
  enabled : session.compressionEnabled = true
  algorithm_ne : session.compressionAlgorithm ≠ .none
  kind_ne : frame.header.kind ≠ .hello
  payload_ne : frame.payload ≠ []
  size_le : session.compressionMinPayloadSize.toNat ≤ frame.payload.length
  compress_eq : codec.compress frame.payload session.compressionAlgorithm = .ok compressed
  gain : compressed.length < frame.payload.length

end Transport

/-! ## What arrives -/

theorem validateFrameSize_eq_ok {frame : MessageType} {codecId : UInt8} {limits : FrameLimits} :
    validateFrameSize frame codecId limits = .ok () ↔ Sendable codecId limits frame := by
  unfold validateFrameSize
  constructor
  · intro h
    split_ifs at h with hlen
    cases hsize : headerBodySize (frame.take headerSize) codecId limits with
    | error error => rw [hsize] at h; exact absurd h (by simp)
    | ok n =>
      rw [hsize] at h
      simp only at h
      split_ifs at h with hbody
      rw [not_not] at hbody
      obtain ⟨-, hvalid, hcodec, hwithin, rfl⟩ := headerBodySize_eq_ok.mp hsize
      rw [readHeader_take] at hvalid hcodec hwithin hbody
      exact ⟨by omega, hvalid, hcodec, hwithin, by omega⟩
  · rintro ⟨hlen, hvalid, hcodec, hwithin, hlength⟩
    have hsize : headerBodySize (frame.take headerSize) codecId limits =
        .ok (readHeader frame).bodySize := by
      rw [headerBodySize_eq_ok, readHeader_take]
      exact ⟨by rw [List.length_take]; omega, hvalid, hcodec, hwithin, rfl⟩
    rw [if_neg (by omega), hsize]
    simp only
    rw [if_neg (by omega)]

/-- A frame that passed `encode_checked`. -/
theorem encodeChecked_eq_ok {options : BackendOptions} {frame : FrameParts}
    {message : MessageType} (h : encodeChecked options frame = .ok message) :
    message = encodeFrame frame ∧ frame.Representable ∧ frame.header.kind.known = true ∧
      Sendable frame.header.codec options.frameLimits message := by
  unfold encodeChecked at h
  simp only at h
  cases hvalidate : validateFrameSize (encodeFrame frame) frame.header.codec
      options.frameLimits with
  | error error => rw [hvalidate] at h; exact absurd h (by simp)
  | ok u =>
    rw [hvalidate] at h
    obtain rfl := Except.ok.inj h
    have hsendable := validateFrameSize_eq_ok.mp hvalidate
    have hrep : frame.Representable := by
      by_contra hnot
      have hlen := hsendable.header_le
      rw [encodeFrame_eq_nil.mpr hnot, List.length_nil, headerSize] at hlen
      omega
    have hvalid := hsendable.valid
    rw [hrep.encodeFrame_eq, readHeader_append] at hvalid
    exact ⟨rfl, hrep, by simpa [WireHeader.valid, FrameParts.wireHeader] using hvalid, hsendable⟩

/-- Setting or clearing a flag leaves the others as they were. -/
theorem and_eq_of_disjoint {b c : UInt8} (h : b &&& c = 0) (flags : UInt8) :
    (flags ||| b) &&& c = flags &&& c ∧ (flags &&& ~~~b) &&& c = flags &&& c := by
  have hbits : ∀ (i : ℕ) (hi : i < 8), (b.toBitVec[i] && c.toBitVec[i]) = false := by
    intro i hi
    have hbit := congrArg (fun x : UInt8 => x.toBitVec[i]) h
    simpa only [UInt8.toBitVec_and, BitVec.getElem_and, UInt8.toBitVec_ofNat,
      BitVec.ofNat_eq_ofNat, BitVec.getElem_zero] using hbit
  constructor
  all_goals
    apply UInt8.toBitVec_inj.mp
    ext i hi
    have hbit := hbits i hi
    simp only [UInt8.toBitVec_or, UInt8.toBitVec_and, UInt8.toBitVec_not, BitVec.getElem_or,
      BitVec.getElem_and, BitVec.getElem_not]
    revert hbit
    cases flags.toBitVec[i] <;> cases b.toBitVec[i] <;> cases c.toBitVec[i] <;> decide

/-- Encoding a frame leaves the flag `Compressed` as it was. -/
theorem wireHeader_has_compressed (frame : FrameParts) (extensions : MessageType) :
    (frame.wireHeader extensions).header.has .compressed = frame.header.has .compressed := by
  obtain ⟨hset, hclear⟩ := and_eq_of_disjoint
    (show Flag.hasExtensions.bit &&& Flag.compressed.bit = 0 by decide) frame.header.flags
  have hbits : (frame.wireHeader extensions).header.flags &&& Flag.compressed.bit =
      frame.header.flags &&& Flag.compressed.bit := by
    unfold FrameParts.wireHeader WireHeader.header
    simp only
    split_ifs
    · exact hset
    · exact hclear
  unfold Header.has
  rw [hbits]

theorem has_compressed (frame : FrameParts) (payload : MessageType) :
    (frame.compressed payload).header.has .compressed = true := by
  have habsorb : (frame.header.flags ||| Flag.compressed.bit) &&& Flag.compressed.bit =
      Flag.compressed.bit := by
    apply UInt8.toBitVec_inj.mp
    ext i hi
    simp only [UInt8.toBitVec_or, UInt8.toBitVec_and, BitVec.getElem_or, BitVec.getElem_and]
    cases frame.header.flags.toBitVec[i] <;> cases Flag.compressed.bit.toBitVec[i] <;> rfl
  show decide ((frame.header.flags ||| Flag.compressed.bit) &&& Flag.compressed.bit ≠ 0) = true
  rw [habsorb]
  rfl

section Transport

variable {codec : CompressionCodec} {options : BackendOptions} {session : BackendSession}
  {frame : FrameParts} {message : MessageType}

/-- What a receiver makes of a frame that passed `encode_checked`. -/
theorem receivePayload_eq (h : encodeChecked options frame = .ok message)
    (hordered : frame.extensions.Ordered)
    (hsupported : ∀ e ∈ frame.extensions, e.1.critical = false) :
    receivePayload codec options session frame.header.codec message =
      (decompressIncomingPayload codec options session frame).map (·.getD frame.payload) := by
  obtain ⟨rfl, hrep, hkind, hsendable⟩ := encodeChecked_eq_ok h
  have hparse := hrep.parseFrame_encodeFrame hkind hordered hsupported
  have hdecompress : decompressIncomingPayload codec options session { frame with
      header := (frame.wireHeader (frame.extensions.flatMap encodeTlv)).header } =
        decompressIncomingPayload codec options session frame := by
    unfold decompressIncomingPayload
    simp only [wireHeader_has_compressed]
    rfl
  unfold receivePayload
  rw [validateFrameSize_eq_ok.mpr hsendable]
  simp only [hparse, hdecompress]
  cases decompressIncomingPayload codec options session frame <;> rfl

/-- **The sender's choice.** The frame goes out compressed, or as it is. -/
theorem encodeOutgoingFrame_cases (hflag : frame.header.has .compressed = false)
    (h : encodeOutgoingFrame codec options session frame = .ok message) :
    (∃ compressed, Compresses codec session frame compressed ∧
      encodeChecked options (frame.compressed compressed) = .ok message) ∨
    ((∀ compressed, ¬Compresses codec session frame compressed) ∧
      encodeChecked options frame = .ok message) := by
  unfold encodeOutgoingFrame at h
  split_ifs at h with henabled hkind hsmall
  · refine Or.inr ⟨fun z hz => ?_, h⟩
    rcases henabled with hoff | hnone
    · exact absurd hz.enabled (by simpa using hoff)
    · exact hz.algorithm_ne hnone
  · refine Or.inr ⟨fun z hz => ?_, h⟩
    rcases hkind with hhello | hset
    · exact hz.kind_ne hhello
    · exact absurd hset (by simp [hflag])
  · refine Or.inr ⟨fun z hz => ?_, h⟩
    rcases hsmall with hempty | hlt
    · exact hz.payload_ne hempty
    · exact absurd hz.size_le (Nat.not_le.mpr hlt)
  · cases hcompress : codec.compress frame.payload session.compressionAlgorithm with
    | error error => rw [hcompress] at h; exact absurd h (by simp)
    | ok compressed =>
      rw [hcompress] at h
      simp only at h
      rw [not_or] at henabled hkind hsmall
      split_ifs at h with hgain
      · refine Or.inr ⟨fun z hz => ?_, h⟩
        obtain rfl := Except.ok.inj (hcompress.symm.trans hz.compress_eq)
        exact absurd hz.gain (Nat.not_lt.mpr hgain)
      · refine Or.inl ⟨compressed, ⟨by simpa using henabled.1, henabled.2, hkind.1, hsmall.1,
          Nat.not_lt.mp hsmall.2, hcompress, Nat.not_le.mp hgain⟩, h⟩

/-- **Compressed transport.** Take a codec whose decompressor undoes its compressor on the payload
when the budget holds it, and never exceeds the budget. A frame that is sent arrives with its
payload exactly when the sender did not compress it, or the payload is within the receiver's
output budget for the compressed size. -/
theorem compressed_transport_iff (codec : CompressionCodec) (options : BackendOptions)
    (session : BackendSession) (frame : FrameParts) (message : MessageType)
    (hundo : ∀ compressed budget,
      codec.compress frame.payload session.compressionAlgorithm = .ok compressed →
      frame.payload.length ≤ budget →
      codec.decompress compressed session.compressionAlgorithm budget = .ok frame.payload)
    (hbudget : ∀ compressed payload budget,
      codec.decompress compressed session.compressionAlgorithm budget = .ok payload →
      payload.length ≤ budget)
    (hflag : frame.header.has .compressed = false) (hordered : frame.extensions.Ordered)
    (hsupported : ∀ e ∈ frame.extensions, e.1.critical = false)
    (hsent : encodeOutgoingFrame codec options session frame = .ok message) :
    receivePayload codec options session frame.header.codec message = .ok frame.payload ↔
      ∀ compressed, Compresses codec session frame compressed →
        frame.payload.length ≤ outputBudget options compressed.length := by
  rcases encodeOutgoingFrame_cases hflag hsent with ⟨z, hz, hchecked⟩ | ⟨hnot, hchecked⟩
  · have hdecompress : decompressIncomingPayload codec options session (frame.compressed z) =
        (codec.decompress z session.compressionAlgorithm (outputBudget options z.length)).map
          some := by
      unfold decompressIncomingPayload
      rw [if_neg (by simp [has_compressed]), if_neg (by
        simp only [hz.enabled, Bool.not_true, Bool.false_eq_true, false_or, not_or]
        exact ⟨hz.algorithm_ne, hz.kind_ne⟩)]
      show (match codec.decompress z session.compressionAlgorithm
          (outputBudget options z.length) with
        | .error stop => Except.error stop
        | .ok payload => .ok (some payload)) = _
      cases codec.decompress z session.compressionAlgorithm (outputBudget options z.length) <;> rfl
    rw [show frame.header.codec = (frame.compressed z).header.codec from rfl,
      receivePayload_eq hchecked hordered hsupported, hdecompress]
    constructor
    · intro h z' hz'
      obtain rfl := Except.ok.inj (hz.compress_eq.symm.trans hz'.compress_eq)
      cases hd : codec.decompress z session.compressionAlgorithm
          (outputBudget options z.length) with
      | error stop => rw [hd] at h; exact absurd h (by simp [Except.map])
      | ok payload =>
        rw [hd] at h
        obtain rfl : payload = frame.payload := Except.ok.inj h
        exact hbudget _ _ _ hd
    · intro h
      rw [hundo z _ hz.compress_eq (h z hz)]
      rfl
  · have hdecompress : decompressIncomingPayload codec options session frame = .ok none := by
      unfold decompressIncomingPayload
      rw [if_pos (by simp [hflag])]
    rw [receivePayload_eq hchecked hordered hsupported, hdecompress]
    exact iff_of_true rfl fun z hz => absurd hz (hnot z)

end Transport

/-! ## The run-length codec -/

theorem decompressLoop_length_le {payload : MessageType} {budget : ℕ} (fuel : ℕ) :
    ∀ {s s' : DecompressState}, s.out.length ≤ budget →
      decompressLoop payload budget fuel s = .ok s' → s'.out.length ≤ budget := by
  induction fuel with
  | zero => intro s s' hs h; obtain rfl := Except.ok.inj h; exact hs
  | succ fuel ih =>
    intro s s' hs h
    unfold decompressLoop at h
    split_ifs at h
    · cases hstep : decompressStep payload budget s with
      | error e => rw [hstep] at h; exact absurd h (by simp [bind, Except.bind])
      | ok s₁ =>
        rw [hstep] at h
        obtain ⟨_, -, -, hle⟩ := decompressStep_cases hstep
        exact ih hle h
    · obtain rfl := Except.ok.inj h
      exact hs

/-- The decompressor keeps to its budget. -/
theorem decompress_length_le {compressed payload : MessageType} {algorithm : CompressionAlgorithm}
    {budget : ℕ} (h : decompress compressed algorithm budget = .ok payload) :
    payload.length ≤ budget := by
  unfold decompress at h
  cases algorithm with
  | none =>
    simp only at h
    split_ifs at h with hlt
    obtain rfl := Except.ok.inj h
    omega
  | runLength =>
    simp only [decompressRunLength] at h
    cases hloop : decompressLoop compressed budget compressed.length ⟨[], 0⟩ with
    | error e => rw [hloop] at h; exact absurd h (by simp [bind, Except.bind])
    | ok s =>
      rw [hloop] at h
      obtain rfl := Except.ok.inj h
      exact decompressLoop_length_le _ (Nat.zero_le _) hloop
  | unknown value => exact absurd h (by simp)

/-- A notification of 65 zeros. -/
def zerosFrame : FrameParts where
  header := { kind := .notify, flags := 0, codec := 1, id := 0 }
  method := [97]
  extensions := []
  payload := List.replicate 65 0

/-- A session that compresses. -/
def runLengthSession : BackendSession where
  remoteMethodTable := { maxEntries := 4 }
  compressionEnabled := true
  compressionAlgorithm := .runLength

/-- The message that carries `zerosFrame`. -/
def zerosMessage : MessageType :=
  encodeFrame (zerosFrame.compressed (compressRunLength zerosFrame.payload))

theorem compressed_transport_zeros :
    receivePayload runLengthCodec {} runLengthSession 1 zerosMessage = .ok zerosFrame.payload ↔
      ∀ compressed, Compresses runLengthCodec runLengthSession zerosFrame compressed →
        zerosFrame.payload.length ≤ outputBudget {} compressed.length :=
  compressed_transport_iff runLengthCodec {} runLengthSession zerosFrame zerosMessage
    (fun compressed budget hcompress hle => by
      obtain rfl := Except.ok.inj hcompress
      exact decompress_compress_of_aligned hle (by decide +kernel))
    (fun compressed payload budget (h : decompress compressed .runLength budget = .ok payload) =>
      decompress_length_le h) (by decide)
    (by unfold ExtensionMap.Ordered; decide) (by decide) (by decide +kernel)

/-- A receiver that allows 64 decompressed bytes refuses what the sender with the same options
sent. -/
theorem compressed_transport_fails :
    let options : BackendOptions := { maxDecompressedPayloadBytes := 64 }
    (∀ budget, zerosFrame.payload.length ≤ budget →
      runLengthCodec.decompress (compressRunLength zerosFrame.payload) .runLength budget =
        .ok zerosFrame.payload) ∧
    encodeOutgoingFrame runLengthCodec options runLengthSession zerosFrame = .ok zerosMessage ∧
    receivePayload runLengthCodec options runLengthSession 1 zerosMessage =
      .error (.error (.io .messageTooLarge)) :=
  ⟨fun _ hle => decompress_compress_of_aligned hle (by decide +kernel), by decide +kernel,
    by decide +kernel⟩

end NekoProto.Rpc
