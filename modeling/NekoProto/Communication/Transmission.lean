import NekoProto.Communication.Send

/-!
# Transfers from a sender to a receiver

What a receiver makes of the messages that a sender sends over the same stream: in one piece, in
slices, or in slices up to one at which the sender is cancelled.

1. What the sender writes in each of the cases, as long as the stream does its part (`Carried`,
   `send_carried`). A sender that is cancelled writes a `Cancel`, unless at the last slice, whose
   result it does not look at.
2. The receiver takes slice after slice at the offset up to which the buffer is filled
   (`Filled`, `recv_slices`), and is idle again behind a message or a `Cancel` (`Idle`).
3. So a sequence of messages is received as it was sent (`transmissions_received`), and a message of
   an unknown type only if it comes in one piece (`unknown_delivered_iff`).
-/

namespace NekoProto.Communication

open Binary

/-! ## The sender -/

/-- How a message is sent: in one piece, in slices, or in slices up to the unit at which the sender
is cancelled. Unit 0 is the `SliceHeader`. -/
inductive Mode
  | complete
  | sliced
  | cancelled (unit : ℕ)

/-- The buffers of a transfer, its header and slice after slice. -/
def transferUnits (type : BitVec 32) (payload : Bytes) : List (List Bytes) :=
  [(transferHeader type payload).bytes] :: (payloadSlices payload).map sliceBuffers

/-- The header of a `Cancel`. -/
def cancelHeader (type : BitVec 32) : MessageHeader := ⟨0, type, MessageType.cancel.code⟩

/-- The bytes that are sent. -/
def Mode.bytes (type : BitVec 32) (payload : Bytes) : Mode → Bytes
  | .complete => wire false type payload
  | .sliced => wire true type payload
  | .cancelled unit =>
    ((transferUnits type payload).take unit).flatten.flatten ++ (cancelHeader type).bytes

/-- The flags of a send. -/
def Mode.flag : Mode → StreamFlag
  | .complete => {}
  | _ => { sliceData := true }

section

variable {σ : Type}

/-- What the stream does with a message: it takes all of it; or it takes the units before that at
which the sender is cancelled, whose first write is `Canceled`, and then what the sender has still
to say. -/
inductive Carried (stream : Stream σ) (type : BitVec 32) (payload : Bytes) : Mode → σ → σ → Prop
  | complete {s t : σ} : Takes stream s (wire false type payload) t →
    Carried stream type payload .complete s t
  | sliced {s t : σ} : TakesAll stream s (transferUnits type payload).flatten t →
    Carried stream type payload .sliced s t
  | cancelled {s t u v : σ} {unit : ℕ} {buffer : Bytes} {buffers : List Bytes} :
    (transferUnits type payload)[unit]? = some (buffer :: buffers) →
    TakesAll stream s ((transferUnits type payload).take unit).flatten t →
    stream.write t buffer = (.error .canceled, u) → Takes stream u (cancelHeader type).bytes v →
    Carried stream type payload (.cancelled unit) s v

variable {stream : Stream σ}

theorem sendRaw_takes {data : Bytes} (hdata : data.length < 2 ^ 31) {k : Sink σ} {t : σ}
    (h : Takes stream k.state data t) :
    sendRaw stream data k = (.ok (), { k with state := t, taken := k.taken ++ data }) := by
  obtain ⟨u, htakes, hsent⟩ | ⟨hnot, -⟩ := sendRaw_sends hdata k
  · rw [hsent, h.unique (takesAll_singleton.mp htakes), List.flatten_singleton]
  · exact absurd (takesAll_singleton.mpr h) (hnot t)

/-- A write that fails at once. -/
theorem sendRaw_error {data : Bytes} (hne : data ≠ []) (hdata : data.length < 2 ^ 31) {k : Sink σ}
    {e : IoError} {s : σ} (h : stream.write k.state data = (.error e, s)) :
    sendRaw stream data k = (.error e, { k with state := s, failed := true }) := by
  obtain ⟨n, hn⟩ := Nat.exists_eq_succ_of_ne_zero (mt List.length_eq_zero_iff.mp hne)
  unfold sendRaw
  rw [hn]
  unfold sendLoop
  rw [narrow_of_lt hdata, if_pos (by omega), List.drop_zero]
  simp only [Sink.write, h]

theorem serializeHeader_ne_nil (header : MessageHeader) : serializeHeader header ≠ [] := by
  intro h
  have := length_serializeHeader header
  rw [h] at this
  cases this

theorem sendSlice_takes {data : Bytes} (hdata : data.length < 2 ^ 31) {offset : ℕ} {k : Sink σ}
    {t : σ} (h : TakesAll stream k.state (sliceBuffers (offset, data)) t) :
    sendSlice stream data offset k =
      (.ok (), { k with
        state := t
        taken := k.taken ++ (sliceBuffers (offset, data)).flatten }) := by
  obtain ⟨u, htakes, hsent⟩ | ⟨hnot, -⟩ := sendSlice_sends hdata offset k
  · rw [hsent, h.unique htakes]
  · exact absurd h (hnot t)

theorem sendCancel_takes {type : BitVec 32} {k : Sink σ} {t : σ}
    (h : Takes stream k.state (cancelHeader type).bytes t) : (sendCancel stream type k).2 =
      { k with state := t, taken := k.taken ++ (cancelHeader type).bytes } := by
  have hsend : sendCancel stream type k = sendRaw stream (cancelHeader type).bytes k := rfl
  rw [hsend, sendRaw_takes (by rw [MessageHeader.length_bytes]; decide) h]

/-- The loop after a write that was cancelled. -/
theorem sendSlices_canceled (type : BitVec 32) {fuel : ℕ} (hfuel : fuel ≠ 0) (offset : ℕ)
    (rest : Bytes) {k : Sink σ} {t : σ} (h : Takes stream k.state (cancelHeader type).bytes t) :
    (sendSlices stream type fuel (.error .canceled) offset rest k).2 =
      { k with state := t, taken := k.taken ++ (cancelHeader type).bytes } := by
  obtain ⟨n, rfl⟩ := Nat.exists_eq_succ_of_ne_zero hfuel
  rw [sendSlices]
  simp only [if_true]
  exact sendCancel_takes h

/-- The slices before the one that is cancelled, and the `Cancel` in its place. -/
theorem sendSlices_cancelled (type : BitVec 32) : ∀ (fuel offset : ℕ) (rest : Bytes) (j : ℕ)
    {k : Sink σ} {slice : ℕ × Bytes} {t u v : σ},
    (slices fuel offset rest)[j]? = some slice → j + 1 < (slices fuel offset rest).length →
    TakesAll stream k.state (((slices fuel offset rest).take j).flatMap sliceBuffers) t →
    stream.write t (serializeHeader (sliceHeader slice.1 slice.2)) = (.error .canceled, u) →
    Takes stream u (cancelHeader type).bytes v →
      (sendSlices stream type fuel (.ok ()) offset rest k).2 = ⟨v, k.taken ++
        (((slices fuel offset rest).take j).flatMap sliceBuffers).flatten ++
          (cancelHeader type).bytes, true⟩ := by
  intro fuel
  induction fuel with
  | zero => exact fun _ _ _ _ _ _ _ _ _ hlt => absurd hlt (Nat.not_lt_zero _)
  | succ fuel ih =>
    intro offset rest j k slice t u v hslice hlt htakes hwrite hcancel
    by_cases hlast : rest.length ≤ sliceDataSize
    · rw [slices_last hlast, List.length_singleton] at hlt
      omega
    rw [slices_more hlast] at hslice hlt htakes ⊢
    rw [sendSlices_more hlast]
    have hfuel : fuel ≠ 0 := by
      rintro rfl
      simp [slices] at hlt
    have hsize : (rest.take sliceDataSize).length < 2 ^ 31 :=
      lt_of_le_of_lt (List.length_take_le _ _) (by decide)
    cases j with
    | zero =>
      obtain rfl := Option.some.inj hslice
      cases htakes
      have hsent : sendSlice stream (rest.take sliceDataSize) offset k =
          (.error .canceled, { k with state := u, failed := true }) := by
        unfold sendSlice
        rw [sendRaw_error (serializeHeader_ne_nil _) (by rw [length_serializeHeader]; decide)
          hwrite]
        rfl
      rw [hsent, sendSlices_canceled type hfuel _ _ hcancel]
      simp
    | succ j =>
      simp only [List.take_succ_cons, List.flatMap_cons] at htakes ⊢
      obtain ⟨t', hfirst, hrest⟩ := takesAll_append.mp htakes
      rw [sendSlice_takes hsize hfirst]
      rw [List.length_cons] at hlt
      rw [ih (offset + sliceDataSize) (rest.drop sliceDataSize) j hslice (by omega) hrest hwrite
        hcancel]
      simp only [List.flatten_append, List.append_assoc]

theorem transferUnits_flatten (type : BitVec 32) (payload : Bytes) :
    (transferUnits type payload).flatten =
      transferStart type payload ++ lastSlice (payloadSlices payload) := by
  simp only [transferUnits, transferStart, List.flatten_cons, List.cons_append, List.nil_append,
    beforeLast_append_lastSlice, List.flatMap_def]

/-- A transfer that is sent to its end. -/
theorem sendSliced_takes {type : BitVec 32} {payload : Bytes} (hne : payload ≠ []) {k : Sink σ}
    {t : σ} (h : TakesAll stream k.state (transferUnits type payload).flatten t) :
    (sendSliced stream type payload k).2 =
      { k with state := t, taken := k.taken ++ wire true type payload } := by
  rw [transferUnits_flatten, takesAll_append] at h
  obtain ⟨u, hstart, hlast⟩ := h
  obtain ⟨u', sent, hstart', hsends, hsent⟩ | ⟨hnot, -⟩ := sendSliced_cases type hne k
  · obtain rfl := hstart.unique hstart'
    rw [hsent]
    obtain ⟨t', hlast', rfl⟩ | ⟨hnot, -⟩ := hsends
    · rw [hlast.unique hlast', wire_sliced, List.append_assoc]
    · exact absurd hlast (hnot t)
  · exact absurd hstart (hnot u)

/-- A transfer that is cancelled before its last slice. -/
theorem sendSliced_cancelled {type : BitVec 32} {payload : Bytes} (hne : payload ≠ [])
    {k : Sink σ} {unit : ℕ} {buffer : Bytes} {buffers : List Bytes} {t u v : σ}
    (hunit : (transferUnits type payload)[unit]? = some (buffer :: buffers))
    (hlast : unit + 1 < (transferUnits type payload).length)
    (htakes : TakesAll stream k.state ((transferUnits type payload).take unit).flatten t)
    (hwrite : stream.write t buffer = (.error .canceled, u))
    (hcancel : Takes stream u (cancelHeader type).bytes v) :
    (sendSliced stream type payload k).2 =
      ⟨v, k.taken ++ ((transferUnits type payload).take unit).flatten.flatten ++
        (cancelHeader type).bytes, true⟩ := by
  have hheader : (transferHeader type payload).bytes.length < 2 ^ 31 := by
    rw [MessageHeader.length_bytes]
    decide
  have hfuel : payload.length ≠ 0 := mt List.length_eq_zero_iff.mp hne
  have hstep : sendSliced stream type payload k = sendSlices stream type payload.length
      (sendRaw stream (transferHeader type payload).bytes k).1 0 payload
      (sendRaw stream (transferHeader type payload).bytes k).2 := rfl
  rw [hstep]
  cases unit with
  | zero =>
    obtain ⟨rfl, rfl⟩ := List.cons.inj (Option.some.inj hunit)
    cases htakes
    have hsent :=
      sendRaw_error (serializeHeader_ne_nil (transferHeader type payload)) hheader hwrite
    rw [show (transferHeader type payload).bytes = serializeHeader (transferHeader type payload)
      from rfl, hsent, sendSlices_canceled type hfuel _ _ hcancel]
    simp
  | succ j =>
    have hslices : (payloadSlices payload)[j]?.map sliceBuffers = some (buffer :: buffers) := by
      simpa [transferUnits] using hunit
    obtain ⟨slice, hslice, hbuffers⟩ := Option.map_eq_some_iff.mp hslices
    obtain ⟨rfl, -⟩ := List.cons.inj hbuffers
    have hcount : j + 1 < (payloadSlices payload).length := by
      simpa [transferUnits] using hlast
    have hunits : ((transferUnits type payload).take (j + 1)).flatten =
        (transferHeader type payload).bytes ::
          ((payloadSlices payload).take j).flatMap sliceBuffers := by
      simp [transferUnits, List.flatMap_def, List.map_take]
    rw [hunits] at htakes ⊢
    cases htakes with
    | cons hfirst hrest =>
      rw [sendRaw_takes hheader hfirst]
      rw [sendSlices_cancelled type payload.length 0 payload j hslice hcount hrest hwrite hcancel]
      simp only [payloadSlices, List.flatten_cons, List.append_assoc]

theorem ioResult_snd (sent : Except IoError Unit × Sink σ) : (ioResult sent).2 = sent.2 := by
  obtain ⟨result, k⟩ := sent
  cases result <;> rfl

/-- The send of a message in one piece. -/
theorem sendMessage_whole (stream : Stream σ) (type : BitVec 32) {payload : Bytes}
    (hne : payload ≠ [])
    (hsize : payload.length + 10 < 2 ^ 32) (k : Sink σ) :
    sendMessage stream {} type (some payload) k =
      ioResult (sendRaw stream (wire false type payload) k) := by
  have hlen : (List.replicate MessageHeader.size (0 : UInt8) ++ payload).length =
      payload.length + 10 := by
    rw [List.length_append, List.length_replicate, Nat.add_comm]
    rfl
  have hpos : 0 < payload.length := List.length_pos_iff.mpr hne
  have hdata : List.replicate MessageHeader.size (0 : UInt8) ++ payload ≠ [] :=
    List.append_ne_nil_of_right_ne_nil _ hne
  have hnarrow : narrow (payload.length + 10) ≠ MessageHeader.size := by
    rw [ne_eq, narrow_eq_size hsize]
    omega
  have hlarge : ¬2 ^ 32 ≤ payload.length + 10 := by omega
  unfold sendMessage
  simp only [serializeMessageData, Bool.not_false, if_true, hlen, hdata, hnarrow, hlarge, and_false,
    or_self, if_false, Bool.false_eq_true, sendComplete_eq]
  rfl

/-- The send of a message in slices. -/
theorem sendMessage_transfer (stream : Stream σ) (type : BitVec 32) {payload : Bytes}
    (hne : payload ≠ [])
    (hsize : payload.length < 2 ^ 32) (k : Sink σ) :
    sendMessage stream { sliceData := true } type (some payload) k =
      ioResult (sendSliced stream type payload k) := by
  unfold sendMessage
  simp only [serializeMessageData, Bool.not_true, Bool.false_eq_true, if_false, List.nil_append,
    hne, false_and, or_false, if_true, if_neg (not_le.mpr hsize)]

variable {Msg : Type}

/-- A message to send, which has data, and how it is sent. -/
structure Transmission (program : Program Msg) where
  message : Proto Msg
  payload : Bytes
  mode : Mode
  toData : program.toData message = some payload
  ne_nil : payload ≠ []
  size_lt : payload.length < 2 ^ 30

variable {program : Program Msg}

/-- The number of the message class. -/
def Transmission.type (t : Transmission program) : BitVec 32 := program.type t.message

/-- The sender is not cancelled at the last slice. -/
def Transmission.Heard (t : Transmission program) : Prop :=
  ∀ unit, t.mode = .cancelled unit → unit + 1 < (transferUnits t.type t.payload).length

/-- The stream when it is sent. -/
def Transmission.send (stream : Stream σ) (factory : Option (ProtoFactory Msg))
    (t : Transmission program) (k : Sink σ) : Sink σ :=
  ((Communication.send stream program factory t.mode.flag (some t.message) (some k)).2).getD k

/-- **What is sent**: the bytes of the message, or of the part of it before the cancellation and of
a `Cancel`. -/
theorem Transmission.send_carried (factory : Option (ProtoFactory Msg))
    {t : Transmission program} (hheard : t.Heard) {k : Sink σ} {u : σ}
    (h : Carried stream t.type t.payload t.mode k.state u) :
    (t.send stream factory k).state = u ∧
      (t.send stream factory k).taken = k.taken ++ t.mode.bytes t.type t.payload := by
  have hsize := t.size_lt
  have hsend : t.send stream factory k =
      (sendMessage stream t.mode.flag t.type (some t.payload) k).2 := by
    have hfirst : sendFirst stream factory t.mode.flag k = (.ok (), k) := by
      cases t.mode <;> rfl
    rw [Transmission.send, send_of_ok hfirst, Option.bind_some, t.toData]
    rfl
  rw [hsend]
  cases hmode : t.mode with
  | complete =>
    rw [hmode] at h
    cases h with
    | complete htakes =>
      have hlen : (wire false t.type t.payload).length < 2 ^ 31 := by
        simp only [wire, Bool.false_eq_true, if_false, List.length_append,
          MessageHeader.length_bytes]
        have : MessageHeader.size = 10 := rfl
        omega
      have hmessage := sendMessage_whole stream t.type t.ne_nil (by omega) k
      rw [Mode.flag, hmessage, ioResult_snd, sendRaw_takes hlen htakes]
      exact ⟨rfl, rfl⟩
  | sliced =>
    rw [hmode] at h
    cases h with
    | sliced htakes =>
      have hmessage := sendMessage_transfer stream t.type t.ne_nil (by omega) k
      rw [Mode.flag, hmessage, ioResult_snd, sendSliced_takes t.ne_nil htakes]
      · exact ⟨rfl, rfl⟩
      · intro h
        cases h
  | cancelled unit =>
    rw [hmode] at h
    cases h with
    | cancelled hunit htakes hwrite hcancel =>
      have hmessage := sendMessage_transfer stream t.type t.ne_nil (by omega) k
      rw [Mode.flag, hmessage, ioResult_snd,
        sendSliced_cancelled t.ne_nil hunit (hheard unit hmode) htakes hwrite hcancel]
      · exact ⟨rfl, by rw [List.append_assoc]; rfl⟩
      · intro h
        cases h

end

/-! ## The receiver -/

section

variable {Msg : Type} (program : Program Msg)

/-- What is handed on for a payload. -/
def handed (proto : Proto Msg) (payload : Bytes) : Result Msg :=
  match program.fromData proto payload with
  | some message => .message message
  | none => .error .invalidProtoData

variable {program}

/-- A client between two messages, with the classes of another. -/
structure Idle (c₀ c : Client Msg) : Prop where
  factory : c.factory = c₀.factory
  protocolTable : c.protocolTable = c₀.protocolTable
  count : c.sliceSizeCount = 0

/-- A client in a transfer whose buffer is filled up to an offset. -/
structure Filled (c₀ : Client Msg) (proto : Proto Msg) (payload : Bytes) (offset : ℕ)
    (c : Client Msg) : Prop where
  factory : c.factory = c₀.factory
  protocolTable : c.protocolTable = c₀.protocolTable
  message : c.message = some proto
  size : c.buffer.length = payload.length
  filled : c.buffer.take offset = payload.take offset
  count : c.sliceSizeCount.toNat = offset

theorem Idle.createProto {c₀ c : Client Msg} (h : Idle c₀ c) (type : BitVec 32) :
    Communication.createProto c type = Communication.createProto c₀ type := by
  unfold Communication.createProto
  rw [h.factory, h.protocolTable]

theorem complete_handed {c : Client Msg} {proto : Proto Msg} (h : c.message = some proto)
    (flag : StreamFlag) (s : Incoming) : complete program flag c s =
      ⟨some (handed program proto c.buffer), { c with message := none }, s⟩ := by
  unfold complete finishMessage handed
  cases hdata : program.fromData proto c.buffer <;> simp only [h, hdata]

theorem fill_resize {bytes buffer : Bytes} : fill (resize bytes.length buffer) bytes = bytes := by
  rw [fill, List.drop_eq_nil_of_le (length_resize _ _).le, List.append_nil]

theorem toNat_ofNat_of_lt {n : ℕ} (h : n < 2 ^ 32) : (BitVec.ofNat 32 n).toNat = n := by
  rw [BitVec.toNat_ofNat, Nat.mod_eq_of_lt h]

theorem recv_of_result {flag : StreamFlag} {c c' : Client Msg} {s s' : Incoming}
    {result : Result Msg} (h : recvTurn program flag c s = ⟨some result, c', s'⟩) :
    recv program flag c (some s) = (result, c', some s') := by
  rw [recv_of_some (congrArg Turn.result h), h]

theorem recv_of_noResult {flag : StreamFlag} {c c' : Client Msg} {s s' : Incoming}
    (h : recvTurn program flag c s = ⟨none, c', s'⟩) :
    recv program flag c (some s) = recv program flag c' (some s') := by
  rw [recv_of_none (congrArg Turn.result h), h]

/-- **A message in one piece** completes at once. -/
theorem recvTurn_complete (program : Program Msg) (flag : StreamFlag) (c : Client Msg)
    {type : BitVec 32} {payload : Bytes} (hsize : payload.length < 2 ^ 31) {s : Incoming}
    {ys : Bytes} (hs : Carries s (wire false type payload ++ ys)) : ∃ rest,
      recvTurn program flag c s = complete program flag { c with
        header := completeHeader type payload
        message := createProto c type
        buffer := payload } rest ∧ Carries rest ys := by
  have hs' : Carries s ((completeHeader type payload).bytes ++ (payload ++ ys)) := by
    simpa [wire] using hs
  obtain ⟨s₁, hmessage, hs₁⟩ := nextMessage_carries hs'
  obtain ⟨s₂, hread, hs₂⟩ := recvRaw_carries hsize hs₁
  have hlen : (completeHeader type payload).length.toNat = payload.length :=
    toNat_ofNat_of_lt (by omega)
  have htype : MessageType.ofCode (completeHeader type payload).messageType = some .complete :=
    MessageType.ofCode_code .complete
  refine ⟨s₂, ?_, hs₂⟩
  rw [recvTurn_of_message program flag c hmessage]
  simp only [recvMessage, htype, recvComplete, recvBuffer, hlen, hread, fill_resize]
  rfl

theorem recv_complete {c₀ c : Client Msg} (hidle : Idle c₀ c) {type : BitVec 32} {payload : Bytes}
    {proto : Proto Msg} (hclass : createProto c₀ type = some proto)
    (hsize : payload.length < 2 ^ 31) (flag : StreamFlag) {s : Incoming} {ys : Bytes}
    (hs : Carries s (wire false type payload ++ ys)) : ∃ c' rest,
      recv program flag c (some s) = (handed program proto payload, c', some rest) ∧
        Idle c₀ c' ∧ Carries rest ys := by
  obtain ⟨s', hturn, hs'⟩ := recvTurn_complete program flag c hsize hs
  have hclass' : createProto c type = some proto := (hidle.createProto type).trans hclass
  rw [complete_handed (by exact hclass')] at hturn
  exact ⟨_, s', recv_of_result hturn, ⟨hidle.factory, hidle.protocolTable, hidle.count⟩, hs'⟩

/-- A slice at the end of the filled part is filled in. -/
theorem store_filled {buffer payload data rest : Bytes} {offset : ℕ}
    (hsize : buffer.length = payload.length)
    (hfilled : buffer.take offset = payload.take offset)
    (hdata : payload.drop offset = data ++ rest)
    (hne : data ≠ []) : ∃ buffer', store buffer offset data = some buffer' ∧
      buffer'.take (offset + data.length) = payload.take (offset + data.length) := by
  have hlen := congrArg List.length hdata
  rw [List.length_drop, List.length_append] at hlen
  have hpos : 0 < data.length := List.length_pos_iff.mpr hne
  have hoffset : (buffer.take offset).length = offset := by
    rw [List.length_take]
    omega
  refine ⟨_, by rw [store, if_neg hne, if_pos ⟨by omega, by omega⟩], ?_⟩
  rw [Int.toNat_natCast, fill, ← List.append_assoc, List.take_left' (by
    rw [List.length_append, hoffset]), hfilled, List.take_add, hdata, List.take_left]

/-- **A slice at the end of the filled part.** The last one completes the message. -/
theorem recvTurn_slice (program : Program Msg) {c₀ c : Client Msg} {proto : Proto Msg}
    {payload data rest : Bytes}
    {offset : ℕ} (hc : Filled c₀ proto payload offset c) (hsize : payload.length < 2 ^ 30)
    (hdata : payload.drop offset = data ++ rest) (hne : data ≠ []) (flag : StreamFlag)
    {s : Incoming} {ys : Bytes} (hs : Carries s ((sliceBuffers (offset, data)).flatten ++ ys)) :
    ∃ c' s', Carries s' ys ∧
      (rest = [] ∧ recvTurn program flag c s = ⟨some (handed program proto payload), c', s'⟩ ∧
        Idle c₀ c' ∨
      rest ≠ [] ∧ recvTurn program flag c s = ⟨none, c', s'⟩ ∧
        Filled c₀ proto payload (offset + data.length) c') := by
  have hlen := congrArg List.length hdata
  rw [List.length_drop, List.length_append] at hlen
  have hpos : 0 < data.length := List.length_pos_iff.mpr hne
  have hs' : Carries s ((sliceHeader offset data).bytes ++ (data ++ ys)) := by
    simpa [sliceBuffers, serializeHeader_eq] using hs
  obtain ⟨s₁, hmessage, hs₁⟩ := nextMessage_carries hs'
  obtain ⟨s₂, hread, hs₂⟩ := recvRaw_carries (by omega) hs₁
  obtain ⟨buffer, hstore, hbuffer⟩ := store_filled hc.size hc.filled hdata hne
  have htype : MessageType.ofCode (sliceHeader offset data).messageType = some .slice :=
    MessageType.ofCode_code .slice
  have hlength : (sliceHeader offset data).length.toNat = data.length :=
    toNat_ofNat_of_lt (by omega)
  have hoffset : (sliceHeader offset data).data.toInt = offset := by
    rw [sliceHeader, BitVec.toInt_eq_toNat_of_lt (by rw [toNat_ofNat_of_lt] <;> omega),
      toNat_ofNat_of_lt (by omega)]
  have hfits : sliceFits { c with header := sliceHeader offset data } := by
    have hadd : ((sliceHeader offset data).data + (sliceHeader offset data).length).toNat =
        offset + data.length := by
      rw [sliceHeader, ← BitVec.ofNat_add, toNat_ofNat_of_lt (by omega)]
    rw [sliceFits, hadd, hc.size]
    omega
  have hcount : (c.sliceSizeCount + (sliceHeader offset data).length).toNat =
      offset + data.length := by
    rw [BitVec.toNat_add, hc.count, hlength, Nat.mod_eq_of_lt (by omega)]
  have hbufferSize : buffer.length = payload.length := (store_length hstore).trans hc.size
  have hturn := recvTurn_of_message program flag c hmessage
  simp only [recvMessage, htype, recvSlice, not_true_eq_false, and_false, if_false, hfits, hlength,
    hread, hoffset, hstore, hcount, hbufferSize] at hturn
  by_cases hrest : rest = []
  · have hend : offset + data.length = payload.length := by
      rw [hrest, List.length_nil] at hlen
      omega
    have hpayload : buffer = payload := by
      rw [hend, List.take_length, ← hbufferSize, List.take_length] at hbuffer
      exact hbuffer
    rw [if_pos hend, complete_handed (by exact hc.message), hpayload] at hturn
    exact ⟨_, s₂, hs₂, .inl ⟨hrest, hturn, hc.factory, hc.protocolTable, rfl⟩⟩
  · have hend : offset + data.length ≠ payload.length := by
      have : 0 < rest.length := List.length_pos_iff.mpr hrest
      omega
    rw [if_neg hend] at hturn
    exact ⟨_, s₂, hs₂, .inr ⟨hrest, hturn, hc.factory, hc.protocolTable, hc.message, hbufferSize,
      hbuffer, hcount⟩⟩

/-- **The slices up to the last.** -/
theorem recv_slices (program : Program Msg) {c₀ : Client Msg} {proto : Proto Msg} {payload : Bytes}
    (hsize : payload.length < 2 ^ 30) (flag : StreamFlag) {ys : Bytes} :
    ∀ (fuel offset : ℕ) (rest : Bytes) {c : Client Msg} {s : Incoming}, rest ≠ [] →
      rest.length ≤ fuel → payload.drop offset = rest → Filled c₀ proto payload offset c →
      Carries s (((slices fuel offset rest).flatMap sliceBuffers).flatten ++ ys) →
      ∃ c' s', recv program flag c (some s) = (handed program proto payload, c', some s') ∧
        Idle c₀ c' ∧ Carries s' ys := by
  intro fuel
  induction fuel with
  | zero => exact fun _ _ _ _ hne hle => absurd hle (by simpa using hne)
  | succ fuel ih =>
    intro offset rest c s hne hle hdrop hc hs
    by_cases hlast : rest.length ≤ sliceDataSize
    · rw [slices_last hlast, List.flatMap_singleton] at hs
      obtain ⟨c', s', hs', ⟨-, hturn, hidle⟩ | ⟨hrest, -, -⟩⟩ := recvTurn_slice
        program hc hsize (hdrop.trans (List.append_nil _).symm) hne flag hs
      · exact ⟨c', s', recv_of_result hturn, hidle, hs'⟩
      · exact absurd rfl hrest
    · rw [slices_more hlast, List.flatMap_cons, List.flatten_append, List.append_assoc] at hs
      have hpos : 0 < sliceDataSize := by decide
      have htake : (rest.take sliceDataSize).length = sliceDataSize := by
        rw [List.length_take]
        omega
      have htaken : rest.take sliceDataSize ≠ [] := by
        intro h
        rw [h, List.length_nil] at htake
        omega
      have hdropped : rest.drop sliceDataSize ≠ [] := by
        rw [ne_eq, List.drop_eq_nil_iff]
        exact hlast
      obtain ⟨c', s', hs', ⟨hrest, -, -⟩ | ⟨-, hturn, hc'⟩⟩ := recvTurn_slice
        program hc hsize (hdrop.trans (List.take_append_drop sliceDataSize rest).symm) htaken flag
        hs
      · exact absurd hrest hdropped
      · rw [htake] at hc'
        rw [recv_of_noResult hturn]
        refine ih _ _ hdropped ?_ ?_ hc' hs'
        · rw [List.length_drop]
          omega
        · rw [← List.drop_drop, hdrop]

/-- **A `Cancel`**, whatever came before it. -/
theorem recv_cancel (program : Program Msg) {c₀ c : Client Msg} (hfactory : c.factory = c₀.factory)
    (htable : c.protocolTable = c₀.protocolTable) (flag : StreamFlag) {type : BitVec 32}
    {s : Incoming} {ys : Bytes} (hs : Carries s ((cancelHeader type).bytes ++ ys)) :
    ∃ c' s', recv program flag c (some s) = (.error (.io .canceled), c', some s') ∧
      Idle c₀ c' ∧ Carries s' ys := by
  obtain ⟨s', hmessage, hs'⟩ := nextMessage_carries hs
  have htype : MessageType.ofCode (cancelHeader type).messageType = some .cancel :=
    MessageType.ofCode_code .cancel
  have hturn := recvTurn_of_message program flag c hmessage
  simp only [recvMessage, htype, recvCancel] at hturn
  exact ⟨_, s', recv_of_result hturn, ⟨hfactory, htable, rfl⟩, hs'⟩

/-- **The slices up to a cancellation.** -/
theorem recv_slices_cancelled (program : Program Msg) {c₀ : Client Msg} {proto : Proto Msg}
    {payload : Bytes} (hsize : payload.length < 2 ^ 30) (flag : StreamFlag) {type : BitVec 32}
    {ys : Bytes} : ∀ (fuel offset : ℕ) (rest : Bytes) (j : ℕ) {c : Client Msg} {s : Incoming},
      payload.drop offset = rest → j < (slices fuel offset rest).length →
      Filled c₀ proto payload offset c →
      Carries s ((((slices fuel offset rest).take j).flatMap sliceBuffers).flatten ++
        ((cancelHeader type).bytes ++ ys)) →
      ∃ c' s', recv program flag c (some s) = (.error (.io .canceled), c', some s') ∧
        Idle c₀ c' ∧ Carries s' ys := by
  intro fuel
  induction fuel with
  | zero => exact fun _ _ _ _ _ _ hlt => absurd hlt (Nat.not_lt_zero _)
  | succ fuel ih =>
    intro offset rest j c s hdrop hlt hc hs
    cases j with
    | zero => exact recv_cancel program hc.factory hc.protocolTable flag hs
    | succ j =>
      by_cases hlast : rest.length ≤ sliceDataSize
      · rw [slices_last hlast, List.length_singleton] at hlt
        omega
      rw [slices_more hlast] at hlt hs
      rw [List.take_succ_cons, List.flatMap_cons, List.flatten_append, List.append_assoc] at hs
      have hpos : 0 < sliceDataSize := by decide
      have htake : (rest.take sliceDataSize).length = sliceDataSize := by
        rw [List.length_take]
        omega
      have htaken : rest.take sliceDataSize ≠ [] := by
        intro h
        rw [h, List.length_nil] at htake
        omega
      obtain ⟨c', s', hs', ⟨hrest, -, -⟩ | ⟨-, hturn, hc'⟩⟩ := recvTurn_slice
        program hc hsize (hdrop.trans (List.take_append_drop sliceDataSize rest).symm) htaken flag
        hs
      · exact absurd (List.drop_eq_nil_iff.mp hrest) hlast
      · rw [htake] at hc'
        rw [recv_of_noResult hturn]
        refine ih _ _ j ?_ (Nat.lt_of_succ_lt_succ hlt) hc' hs'
        rw [← List.drop_drop, hdrop]

/-- **The header of a transfer** gives the buffer its size. -/
theorem recvTurn_transferHeader (program : Program Msg) {c₀ c : Client Msg} (hidle : Idle c₀ c)
    {type : BitVec 32} {payload : Bytes} {proto : Proto Msg}
    (hclass : createProto c₀ type = some proto) (hsize : payload.length < 2 ^ 30)
    (flag : StreamFlag) {s : Incoming} {ys : Bytes}
    (hs : Carries s ((transferHeader type payload).bytes ++ ys)) :
    ∃ c' s', recvTurn program flag c s = ⟨none, c', s'⟩ ∧ Filled c₀ proto payload 0 c' ∧
      Carries s' ys := by
  obtain ⟨s', hmessage, hs'⟩ := nextMessage_carries hs
  have htype : MessageType.ofCode (transferHeader type payload).messageType = some .sliceHeader :=
    MessageType.ofCode_code .sliceHeader
  have hlength : (transferHeader type payload).length.toNat = payload.length :=
    toNat_ofNat_of_lt (by omega)
  have hclass' : createProto { c with header := transferHeader type payload }
      (transferHeader type payload).data = some proto := (hidle.createProto type).trans hclass
  have hturn := recvTurn_of_message program flag c hmessage
  simp only [recvMessage, htype, recvSliceHeader, hclass', hlength] at hturn
  refine ⟨_, s', hturn, ⟨hidle.factory, hidle.protocolTable, rfl, length_resize _ _, ?_, ?_⟩, hs'⟩
  · rw [List.take_zero, List.take_zero]
  · exact (congrArg BitVec.toNat hidle.count).trans rfl

/-- What the receiver makes of a transmission. -/
def Transmission.received (t : Transmission program) (proto : Proto Msg) : Result Msg :=
  match t.mode with
  | .cancelled _ => .error (.io .canceled)
  | _ => handed program proto t.payload

/-- **A transmission is received**, and leaves the receiver idle. -/
theorem recv_transmission {c₀ c : Client Msg} (hidle : Idle c₀ c) {t : Transmission program}
    (hheard : t.Heard) {proto : Proto Msg} (hclass : createProto c₀ t.type = some proto)
    (flag : StreamFlag) {s : Incoming} {ys : Bytes}
    (hs : Carries s (t.mode.bytes t.type t.payload ++ ys)) :
    ∃ c' s', recv program flag c (some s) = (t.received proto, c', some s') ∧ Idle c₀ c' ∧
      Carries s' ys := by
  have hsize := t.size_lt
  unfold Transmission.received
  cases hmode : t.mode with
  | complete =>
    rw [hmode] at hs
    exact recv_complete hidle hclass (by omega) flag hs
  | sliced =>
    rw [hmode, Mode.bytes, wire, if_pos rfl, List.append_assoc] at hs
    obtain ⟨c', s', hturn, hfilled, hs'⟩ :=
      recvTurn_transferHeader program hidle hclass hsize flag hs
    rw [recv_of_noResult hturn]
    exact recv_slices program hsize flag _ 0 _ t.ne_nil le_rfl rfl hfilled hs'
  | cancelled unit =>
    have hlt := hheard unit hmode
    rw [hmode, Mode.bytes, List.append_assoc] at hs
    cases unit with
    | zero => exact recv_cancel program hidle.factory hidle.protocolTable flag hs
    | succ j =>
      have hunits : ((transferUnits t.type t.payload).take (j + 1)).flatten.flatten =
          (transferHeader t.type t.payload).bytes ++
            (((payloadSlices t.payload).take j).flatMap sliceBuffers).flatten := by
        simp [transferUnits, List.flatMap_def, List.map_take]
      rw [hunits, List.append_assoc] at hs
      obtain ⟨c', s', hturn, hfilled, hs'⟩ :=
        recvTurn_transferHeader program hidle hclass hsize flag hs
      rw [recv_of_noResult hturn]
      refine recv_slices_cancelled program hsize flag _ 0 _ j rfl ?_ hfilled hs'
      rw [transferUnits, List.length_cons, List.length_map] at hlt
      exact Nat.lt_of_succ_lt (Nat.lt_of_succ_lt_succ hlt)

/-! ## One transmission after the other -/

/-- The sends of transmissions one after the other. -/
def sendAll {σ : Type} (stream : Stream σ) (factory : Option (ProtoFactory Msg))
    (ts : List (Transmission program)) (k : Sink σ) : Sink σ :=
  ts.foldl (fun k t => t.send stream factory k) k

/-- What the stream does with them. -/
inductive CarriedAll {σ : Type} (stream : Stream σ) : List (Transmission program) → σ → σ → Prop
  | nil (s : σ) : CarriedAll stream [] s s
  | cons {s u v : σ} {t : Transmission program} {ts : List (Transmission program)} :
    Carried stream t.type t.payload t.mode s u → CarriedAll stream ts u v →
    CarriedAll stream (t :: ts) s v

/-- The results of calls of `recv`, one for each of the flags. -/
def recvAll (program : Program Msg) :
    List StreamFlag → Client Msg → Option Incoming → List (Result Msg)
  | [], _, _ => []
  | flag :: flags, c, s =>
    let received := recv program flag c s
    received.1 :: recvAll program flags received.2.1 received.2.2

/-- A transmission with what a receiver that knows the class is to return for it. -/
def Delivers (c : Client Msg) (t : Transmission program) (result : Result Msg) : Prop :=
  ∃ proto, createProto c t.type = some proto ∧ result = t.received proto

theorem sendAll_carried {σ : Type} {stream : Stream σ} {factory : Option (ProtoFactory Msg)} :
    ∀ {ts : List (Transmission program)} {k : Sink σ} {u : σ}, (∀ t ∈ ts, t.Heard) →
      CarriedAll stream ts k.state u → (sendAll stream factory ts k).taken =
        k.taken ++ ts.flatMap fun t => t.mode.bytes t.type t.payload := by
  intro ts
  induction ts with
  | nil => exact fun _ _ => (List.append_nil _).symm
  | cons t ts ih =>
    intro k u hheard hcarried
    cases hcarried with
    | cons hfirst hrest =>
      obtain ⟨hstate, htaken⟩ :=
        t.send_carried factory (hheard t (List.mem_cons_self ..)) hfirst
      rw [← hstate] at hrest
      have hall := ih (fun t ht => hheard t (List.mem_cons_of_mem _ ht)) hrest
      rw [htaken, List.append_assoc] at hall
      exact hall

theorem recvAll_carries {c₀ : Client Msg} : ∀ {ts : List (Transmission program)}
    {flags : List StreamFlag} {c : Client Msg} {s : Incoming}, flags.length = ts.length →
      (∀ t ∈ ts, t.Heard) → (∀ t ∈ ts, ∃ proto, createProto c₀ t.type = some proto) → Idle c₀ c →
      Carries s (ts.flatMap fun t => t.mode.bytes t.type t.payload) →
      List.Forall₂ (Delivers c₀) ts (recvAll program flags c (some s)) := by
  intro ts
  induction ts with
  | nil =>
    intro flags c s hflags _ _ _ _
    obtain rfl := List.length_eq_zero_iff.mp hflags
    exact .nil
  | cons t ts ih =>
    intro flags c s hflags hheard hclasses hidle hs
    cases flags with
    | nil => cases hflags
    | cons flag flags =>
      obtain ⟨proto, hclass⟩ := hclasses t (List.mem_cons_self ..)
      rw [List.flatMap_cons] at hs
      obtain ⟨c', s', hrecv, hidle', hs'⟩ :=
        recv_transmission hidle (hheard t (List.mem_cons_self ..)) hclass flag hs
      rw [recvAll, hrecv]
      exact .cons ⟨proto, hclass, rfl⟩ (ih (Nat.succ.inj hflags)
        (fun t ht => hheard t (List.mem_cons_of_mem _ ht))
        (fun t ht => hclasses t (List.mem_cons_of_mem _ ht)) hidle' hs')

/-- **Messages are received as they were sent**, one after the other, and each cancellation is
`Canceled` once, unless one is at a last slice. -/
theorem transmissions_received {σ : Type} (stream : Stream σ) {start last : σ}
    (factory : Option (ProtoFactory Msg)) (ts : List (Transmission program)) (c : Client Msg)
    (hcount : c.sliceSizeCount = 0)
    (hclasses : ∀ t ∈ ts, ∃ proto, createProto c t.type = some proto)
    (hheard : ∀ t ∈ ts, t.Heard) (hcarried : CarriedAll stream ts start last) (s : Incoming)
    (hs : Carries s (sendAll stream factory ts { state := start }).taken)
    (flags : List StreamFlag) (hflags : flags.length = ts.length) :
    List.Forall₂ (Delivers c) ts (recvAll program flags c (some s)) := by
  rw [sendAll_carried hheard hcarried, List.nil_append] at hs
  exact recvAll_carries hflags hheard hclasses ⟨rfl, rfl, hcount⟩ hs

/-- A stream that takes what it is given, but for the write behind so many. -/
def cancellingStream : Stream (Option ℕ) where
  write
    | none, bytes => (.ok bytes.length, none)
    | some 0, _ => (.error .canceled, none)
    | some (n + 1), bytes => (.ok bytes.length, some n)
  write_le := by
    intro s bytes n h
    obtain _ | _ | _ := s
    · exact (Except.ok.inj h).ge
    · cases h
    · exact (Except.ok.inj h).ge

/-- A byte to send. -/
def blobTransmission (mode : Mode) (byte : UInt8) : Transmission blobProgram where
  message := .declared [byte]
  payload := [byte]
  mode := mode
  toData := rfl
  ne_nil := List.cons_ne_nil _ _
  size_lt := by
    rw [List.length_singleton]
    decide

theorem takes_of_whole {σ : Type} {stream : Stream σ} {s t : σ} {bytes : Bytes} (hne : bytes ≠ [])
    (h : stream.write s bytes = (.ok bytes.length, t)) : Takes stream s bytes t := by
  obtain ⟨n, hn⟩ := Nat.exists_eq_succ_of_ne_zero (mt List.length_eq_zero_iff.mp hne)
  refine .write hne (hn ▸ h) ?_
  rw [List.drop_eq_nil_of_le hn.le]
  exact .nil t

/-- A byte that is cancelled at its `SliceHeader`, and one that is sent in a slice. -/
theorem transmissions_received_two : List.Forall₂ (Delivers { factory := some blobFactory })
    [blobTransmission (.cancelled 0) 7, blobTransmission .sliced 9]
    (recvAll blobProgram [{}, {}] { factory := some blobFactory }
      (some [.ok (sendAll cancellingStream none
        [blobTransmission (.cancelled 0) 7, blobTransmission .sliced 9]
        { state := some 0 }).taken])) := by
  have hfirst : Carried cancellingStream 65 [7] (.cancelled 0) (some 0) none :=
    .cancelled rfl (.nil _) rfl (takes_of_whole (serializeHeader_ne_nil _) rfl)
  have hsecond : Carried cancellingStream 65 [9] .sliced none none :=
    .sliced (.cons (takes_of_whole (serializeHeader_ne_nil _) rfl)
      (.cons (takes_of_whole (serializeHeader_ne_nil _) rfl)
        (.cons (takes_of_whole (List.cons_ne_nil _ _) rfl) (.nil none))))
  have hcarried : CarriedAll cancellingStream
      [blobTransmission (.cancelled 0) 7, blobTransmission .sliced 9] (some 0) none :=
    .cons hfirst (.cons hsecond (.nil none))
  refine transmissions_received cancellingStream none _ _ rfl ?_ ?_ hcarried _ ?_ _ rfl
  · intro t ht
    obtain rfl | rfl : t = blobTransmission (.cancelled 0) 7 ∨ t = blobTransmission .sliced 9 := by
      simpa using ht
    · exact ⟨_, blobFactory_create⟩
    · exact ⟨_, blobFactory_create⟩
  · intro t ht unit hmode
    obtain rfl | rfl : t = blobTransmission (.cancelled 0) 7 ∨ t = blobTransmission .sliced 9 := by
      simpa using ht
    · obtain rfl := Mode.cancelled.inj hmode
      decide
    · cases hmode
  · refine ⟨[_], rfl, ?_, List.flatten_singleton⟩
    decide +kernel

/-- **A byte that is cancelled at its only slice**: there is no `Cancel`, and the receiver comes to
the end of the stream. -/
theorem transmissions_received_fails :
    CarriedAll cancellingStream [blobTransmission (.cancelled 1) 7] (some 1) none ∧
    ¬List.Forall₂ (Delivers { factory := some blobFactory }) [blobTransmission (.cancelled 1) 7]
      (recvAll blobProgram [{}] { factory := some blobFactory }
        (some [.ok (sendAll cancellingStream none [blobTransmission (.cancelled 1) 7]
          { state := some 1 }).taken])) := by
  constructor
  · have hcarried : Carried cancellingStream 65 [7] (.cancelled 1) (some 1) none :=
      .cancelled rfl (.cons (takes_of_whole (serializeHeader_ne_nil _) rfl) (.nil _)) rfl
        (takes_of_whole (serializeHeader_ne_nil _) rfl)
    exact .cons hcarried (.nil none)
  · have hrecv : recvAll blobProgram [{}] { factory := some blobFactory }
        (some [.ok (sendAll cancellingStream none [blobTransmission (.cancelled 1) 7]
          { state := some 1 }).taken]) = [.error (.io .connectionReset)] := by
      decide +kernel
    rw [hrecv]
    rintro (_ | ⟨⟨proto, -, hresult⟩, -⟩)
    cases hresult

/-! ## Unknown types -/

/-- A call of `recv` that delivers a message of an unknown type with its type, its length and its
payload, and leaves nothing on the stream. -/
def DeliversUnknown (program : Program Msg) (flag : StreamFlag) (c : Client Msg) (type : BitVec 32)
    (payload : Bytes) (s : Incoming) : Prop :=
  ∃ raw c' rest, recv program flag c (some s) = (.message (.raw raw), c', some rest) ∧
    raw.type = type ∧ raw.length.toNat = payload.length ∧ raw.data = payload ∧ Carries rest []

/-- In one piece it is delivered, if there is a factory to make a message of. -/
theorem deliversUnknown_complete {flag : StreamFlag} (hflag : flag.recvUnknownTypeData = true)
    {c : Client Msg} {type : BitVec 32} (hclass : createProto c type = none) {payload : Bytes}
    (hsize : payload.length < 2 ^ 31) {s : Incoming} (hs : Carries s (wire false type payload)) :
    DeliversUnknown program flag c type payload s ↔ c.factory ≠ none := by
  obtain ⟨s', hturn, hs'⟩ :=
    recvTurn_complete program flag c hsize (by rwa [List.append_nil])
  unfold DeliversUnknown
  cases hfactory : c.factory with
  | none =>
    refine iff_of_false ?_ (fun h => h rfl)
    rintro ⟨raw, c', rest, hrecv, -⟩
    simp only [complete, finishMessage, hclass, hflag, if_true, unknownMessage, hfactory,
      Option.bind_none] at hturn
    rw [recv_of_result hturn] at hrecv
    cases (Prod.mk.inj hrecv).1
  | some factory =>
    refine iff_of_true ?_ (Option.some_ne_none factory)
    simp only [complete, finishMessage, hclass, hflag, if_true] at hturn
    rw [unknownMessage_eq (by exact hfactory)] at hturn
    exact ⟨_, _, s', recv_of_result hturn, rfl, toNat_ofNat_of_lt (by omega), rfl, hs'⟩

/-- In slices it is not: the call fails at the `SliceHeader`. -/
theorem not_deliversUnknown_sliced {flag : StreamFlag} {c : Client Msg} {type : BitVec 32}
    (hclass : createProto c type = none) {payload : Bytes} {s : Incoming} {ys : Bytes}
    (hs : Carries s ((transferHeader type payload).bytes ++ ys)) :
    ¬DeliversUnknown program flag c type payload s := by
  obtain ⟨s', hmessage, -⟩ := nextMessage_carries hs
  have htype : MessageType.ofCode (transferHeader type payload).messageType = some .sliceHeader :=
    MessageType.ofCode_code .sliceHeader
  have hclass' : createProto { c with header := transferHeader type payload }
      (transferHeader type payload).data = none := hclass
  have hturn := recvTurn_of_message program flag c hmessage
  simp only [recvMessage, htype, recvSliceHeader, hclass'] at hturn
  rintro ⟨raw, c', rest, hrecv, -⟩
  rw [recv_of_result hturn] at hrecv
  cases (Prod.mk.inj hrecv).1

/-- Nor if nothing was sent. -/
theorem not_deliversUnknown_nil {flag : StreamFlag} {c : Client Msg} {type : BitVec 32}
    {payload : Bytes} {s : Incoming} (hs : Carries s []) :
    ¬DeliversUnknown program flag c type payload s := by
  obtain ⟨chunks, rfl, hne, hflat⟩ := hs
  obtain rfl : chunks = [] := by
    cases chunks with
    | nil => rfl
    | cons chunk chunks =>
      obtain ⟨rfl, -⟩ := List.append_eq_nil_iff.mp hflat
      exact absurd (List.mem_cons_self ..) hne
  obtain ⟨⟨e, hresult⟩, -⟩ := recvTurn_of_none program flag c (rfl : nextMessage [] = none)
  rintro ⟨raw, c', rest, hrecv, -⟩
  rw [List.map_nil, recv_of_some hresult] at hrecv
  cases (Prod.mk.inj hrecv).1

theorem takesAll_of_takes {σ : Type} {stream : Stream σ}
    (hstream : ∀ s bytes, ∃ t, Takes stream s bytes t) (s : σ) (buffers : List Bytes) :
    ∃ t, TakesAll stream s buffers t := by
  induction buffers generalizing s with
  | nil => exact ⟨s, .nil s⟩
  | cons buffer buffers ih =>
    obtain ⟨t, htakes⟩ := hstream s buffer
    obtain ⟨u, hrest⟩ := ih t
    exact ⟨u, .cons htakes hrest⟩

/-- What is sent has data, which with its header has a size of 32 bits. -/
theorem sendMessage_ok {σ : Type} {stream : Stream σ} {sliced : Bool} {type : BitVec 32}
    {payload : Bytes} {k k' : Sink σ}
    (h : sendMessage stream { sliceData := sliced } type (some payload) k = (.ok (), k')) :
    payload ≠ [] ∧ payload.length + (if sliced then 0 else 10) < 2 ^ 32 := by
  have hlen : (serializeMessageData (some payload) !sliced).length =
      payload.length + (if sliced then 0 else 10) := by
    cases sliced with
    | true => rfl
    | false =>
      simp only [serializeMessageData, Bool.not_false, if_true, List.length_append,
        List.length_replicate]
      exact Nat.add_comm _ _
  unfold sendMessage at h
  by_cases hnone : serializeMessageData (some payload) (!sliced) = [] ∨ (!sliced) = true ∧
      narrow (serializeMessageData (some payload) !sliced).length = MessageHeader.size
  · rw [if_pos hnone] at h
    cases (Prod.mk.inj h).1
  by_cases hlarge : 2 ^ 32 ≤ (serializeMessageData (some payload) !sliced).length
  · rw [if_neg hnone, if_pos hlarge] at h
    cases (Prod.mk.inj h).1
  refine ⟨?_, hlen ▸ not_le.mp hlarge⟩
  rintro rfl
  apply hnone
  cases sliced with
  | false => exact .inr ⟨rfl, rfl⟩
  | true => exact .inl rfl

/-- **A message of an unknown type is delivered** exactly if it was sent in one piece, of which the
size is one of an `int`, and there is a factory. -/
theorem unknown_delivered_iff {σ : Type} (stream : Stream σ)
    (hstream : ∀ s bytes, ∃ t, Takes stream s bytes t) (program : Program Msg)
    (sender : Option (ProtoFactory Msg)) (sliced : Bool) (message : Proto Msg) (payload : Bytes)
    (hpayload : program.toData message = some payload) (start : σ) (k : Sink σ)
    (hsend : send stream program sender { sliceData := sliced } (some message)
      (some { state := start }) = (.ok (), some k))
    (c : Client Msg) (hclass : createProto c (program.type message) = none) (flag : StreamFlag)
    (hflag : flag.recvUnknownTypeData = true) (s : Incoming) (hs : Carries s k.taken) :
    DeliversUnknown program flag c (program.type message) payload s ↔
      sliced = false ∧ c.factory ≠ none ∧ payload.length + 10 < 2 ^ 31 := by
  have hsent : sendMessage stream { sliceData := sliced } (program.type message) (some payload)
      { state := start } = (.ok (), k) := by
    rw [send_of_ok rfl, Option.bind_some, hpayload] at hsend
    obtain ⟨hresult, hk⟩ := Prod.mk.inj hsend
    exact Prod.ext hresult (Option.some.inj hk)
  obtain ⟨hne, hsize⟩ := sendMessage_ok hsent
  cases sliced with
  | true =>
    refine iff_of_false ?_ (fun h => Bool.noConfusion h.1)
    obtain ⟨t, htakes⟩ := takesAll_of_takes hstream start
      (transferUnits (program.type message) payload).flatten
    rw [sendMessage_transfer stream _ hne hsize] at hsent
    have htaken : k.taken = wire true (program.type message) payload := by
      have hk := congrArg Prod.snd hsent
      rw [ioResult_snd, sendSliced_takes hne htakes] at hk
      exact (congrArg Sink.taken hk).symm
    rw [htaken, wire, if_pos rfl] at hs
    exact not_deliversUnknown_sliced hclass hs
  | false =>
    rw [sendMessage_whole stream _ hne hsize] at hsent
    have hlen : (wire false (program.type message) payload).length = payload.length + 10 :=
      length_complete _ _
    by_cases hsize' : payload.length + 10 < 2 ^ 31
    · obtain ⟨t, htakes⟩ := hstream start (wire false (program.type message) payload)
      have htaken : k.taken = wire false (program.type message) payload := by
        have hk := congrArg Prod.snd hsent
        rw [ioResult_snd, sendRaw_takes (hlen ▸ hsize') htakes] at hk
        exact (congrArg Sink.taken hk).symm
      rw [htaken] at hs
      rw [deliversUnknown_complete hflag hclass (by omega) hs]
      exact ⟨fun h => ⟨rfl, h, hsize'⟩, fun h => h.2.1⟩
    · refine iff_of_false ?_ (fun h => hsize' h.2.2)
      have htaken : k.taken = [] := by
        have hk := congrArg Prod.snd hsent
        rw [ioResult_snd, sendRaw_narrow (hlen ▸ not_lt.mp hsize') (hlen ▸ hsize)] at hk
        exact (congrArg Sink.taken hk).symm
      rw [htaken] at hs
      exact not_deliversUnknown_nil hs

/-- A stream that takes what it is given. -/
def wholeStream : Stream Unit where
  write _ bytes := (.ok bytes.length, ())
  write_le _ _ _ h := (Except.ok.inj h).ge

theorem takes_wholeStream (s : Unit) (bytes : Bytes) : ∃ t, Takes wholeStream s bytes t := by
  by_cases hne : bytes = []
  · exact ⟨s, hne ▸ .nil s⟩
  · exact ⟨(), takes_of_whole hne rfl⟩

/-- A factory with no class but `RawDataMessage`. -/
def rawFactory : ProtoFactory Bytes where
  createrList := (List.replicate 65 none).set 3 (some (.raw {}))
  createsRaw := rfl

/-- The bytes of a byte that is sent. -/
def blobSent (sliced : Bool) : Sink Unit where
  state := ()
  taken := wire sliced 65 [7]

/-- A byte in one piece. -/
theorem unknown_delivered_oneByte :
    DeliversUnknown blobProgram { recvUnknownTypeData := true } { factory := some rawFactory } 65
      [7] [.ok (wire false 65 [7])] := by
  refine (unknown_delivered_iff wholeStream takes_wholeStream blobProgram (some blobFactory) false
    (.declared [7]) [7] rfl () (blobSent false) ?_ { factory := some rawFactory } ?_ _ rfl _
    ⟨[_], rfl, ?_, List.flatten_singleton⟩).mpr ⟨rfl, nofun, ?_⟩
  · rfl
  · decide
  · decide
  · decide

/-- **A byte in slices**: the receiver fails at the `SliceHeader`. -/
theorem unknown_delivered_fails :
    send wholeStream blobProgram (some blobFactory) { sliceData := true } (some (.declared [7]))
      (some { state := () }) = (.ok (), some (blobSent true)) ∧
    ¬DeliversUnknown blobProgram { recvUnknownTypeData := true } { factory := some rawFactory } 65
      [7] [.ok (blobSent true).taken] := by
  refine ⟨rfl, not_deliversUnknown_sliced ?_ ⟨[_], rfl, ?_, List.flatten_singleton⟩⟩
  · decide
  · decide

end

end NekoProto.Communication
