import NekoProto.JsonRpc.Backend
import NekoProto.Rpc.StreamEndpoint

/-!
# Message endpoints

`transport/endpoint.hpp`, the transports of JSON-RPC. `LengthPrefixedStreamMessageEndpoint` writes
the size of a message in four bytes, least significant first, and then the message.
`ChunkedDatagramMessageEndpoint` makes a datagram of a message, and answers whoever sent the last
one. The write lock makes one `send` a step.

1. A message comes off a stream exactly where the stream starts with its frame, and off datagrams
   exactly at the first that does not fill a chunk (`recv_eq_ok_iff`).
2. Messages sent over a stream arrive in order (`messages_arrive`).
3. Messages sent as datagrams arrive whole, in whatever order the datagrams do
   (`datagrams_arrive`).
-/

namespace NekoProto.JsonRpc

open Rpc (MessageType EndpointError ByteStream ByteSink ErrorCode)

/-- The errors of the endpoints: a code they were made with, or an error of what is below. -/
inductive TransportError
  | code (error : ErrorCode)
  | io (error : EndpointError)
  deriving DecidableEq, Repr

/-- `std::vector::resize`. -/
def resize (buffer : MessageType) (size : ℕ) : MessageType :=
  buffer.take size ++ List.replicate (size - buffer.length) 0

@[simp] theorem length_resize (buffer : MessageType) (size : ℕ) :
    (resize buffer size).length = size := by
  simp only [resize, List.length_append, List.length_take, List.length_replicate]
  omega

theorem resize_zero (buffer : MessageType) : resize buffer 0 = [] :=
  List.length_eq_zero_iff.mp (length_resize buffer 0)

/-- Growing a buffer keeps it. -/
theorem resize_grow (buffer : MessageType) (n : ℕ) :
    resize buffer (buffer.length + n) = buffer ++ List.replicate n 0 := by
  unfold resize
  rw [List.take_of_length_le (Nat.le_add_right _ _), Nat.add_sub_cancel_left]

/-- Cutting a buffer keeps its start. -/
theorem resize_append (front back : MessageType) :
    resize (front ++ back) front.length = front := by
  unfold resize
  rw [List.take_left, List.length_append, Nat.sub_eq_zero_of_le (Nat.le_add_right _ _)]
  exact List.append_nil front

/-! ## Sizes -/

/-- The four bytes of a number, least significant first. -/
def u32Le (n : ℕ) : MessageType := (BigEndian.toBytes 4 n).reverse

/-- The number of such bytes. -/
def ofU32Le (bytes : MessageType) : ℕ := BigEndian.ofBytes bytes.reverse

@[simp] theorem length_u32Le (n : ℕ) : (u32Le n).length = 4 := by
  rw [u32Le, List.length_reverse, BigEndian.length_toBytes]

theorem ofU32Le_u32Le {n : ℕ} (h : n < 2 ^ 32) : ofU32Le (u32Le n) = n := by
  rw [ofU32Le, u32Le, List.reverse_reverse]
  exact BigEndian.ofBytes_toBytes_of_lt h

theorem u32Le_ofU32Le {bytes : MessageType} (h : bytes.length = 4) :
    u32Le (ofU32Le bytes) = bytes := by
  have hbytes := BigEndian.toBytes_ofBytes bytes.reverse
  rw [List.length_reverse, h] at hbytes
  rw [u32Le, ofU32Le, hbytes, List.reverse_reverse]

theorem ofU32Le_lt {bytes : MessageType} (h : bytes.length = 4) : ofU32Le bytes < 2 ^ 32 := by
  have hlt := BigEndian.ofBytes_lt bytes.reverse
  rw [List.length_reverse, h] at hlt
  exact hlt

/-! ## Streams -/

/-- The reading side of a stream with `readU32Le`, which takes the four bytes of a number, or fails
where the stream ends before. -/
structure SizeStream (σ : Type) extends ByteStream σ where
  readU32Le : σ → Except EndpointError (ℕ × σ)
  readU32Le_ok : ∀ {s : σ}, 4 ≤ (pending s).length → ∃ s',
    readU32Le s = .ok (ofU32Le ((pending s).take 4), s') ∧ pending s' = (pending s).drop 4
  readU32Le_eof : ∀ {s : σ}, (pending s).length < 4 → readU32Le s = .error .unexpectedEof

/-- The writing side with `writeU32Le`, which writes the four bytes of a number, or fails. -/
structure SizeSink (τ : Type) extends ByteSink τ where
  writeU32Le : ℕ → τ → Except EndpointError τ
  writeU32Le_ok : ∀ {value : ℕ} {t t' : τ}, value < 2 ^ 32 → writeU32Le value t = .ok t' →
    written t' = written t ++ u32Le value

namespace SizeStream

variable {σ : Type} (stream : SizeStream σ) {s s' : σ} {n : ℕ}

/-- A size that is pending first is read. -/
theorem readU32Le_append {rest : MessageType} (hn : n < 2 ^ 32)
    (hs : stream.pending s = u32Le n ++ rest) :
    ∃ s', stream.readU32Le s = .ok (n, s') ∧ stream.pending s' = rest := by
  have htake : (stream.pending s).take 4 = u32Le n := by
    rw [hs, List.take_left' (length_u32Le n)]
  have hdrop : (stream.pending s).drop 4 = rest := by
    rw [hs, List.drop_left' (length_u32Le n)]
  obtain ⟨s', hread, hs'⟩ := stream.readU32Le_ok (s := s)
    (by rw [hs, List.length_append, length_u32Le]; omega)
  rw [htake, ofU32Le_u32Le hn] at hread
  exact ⟨s', hread, hs'.trans hdrop⟩

/-- A size that was read was pending first. -/
theorem readU32Le_eq_ok (h : stream.readU32Le s = .ok (n, s')) :
    n < 2 ^ 32 ∧ stream.pending s = u32Le n ++ stream.pending s' := by
  by_cases hlen : 4 ≤ (stream.pending s).length
  · obtain ⟨s₁, hread, hs₁⟩ := stream.readU32Le_ok hlen
    rw [hread] at h
    obtain ⟨rfl, rfl⟩ := Prod.mk.inj (Except.ok.inj h)
    have hfour : ((stream.pending s).take 4).length = 4 := by
      rw [List.length_take, Nat.min_eq_left hlen]
    rw [u32Le_ofU32Le hfour, hs₁, List.take_append_drop]
    exact ⟨ofU32Le_lt hfour, rfl⟩
  · rw [stream.readU32Le_eof (by omega)] at h
    cases h

end SizeStream

/-- `LengthPrefixedStreamMessageEndpoint`, without its stream. -/
structure LengthPrefixedStreamMessageEndpoint where
  messageTooLarge : ErrorCode
  maxMessageBytes : ℕ := 16 * 1024 * 1024
  deriving DecidableEq, Repr

/-- `makeEndpoint`. -/
def makeEndpoint (options : Options) : LengthPrefixedStreamMessageEndpoint where
  messageTooLarge := JsonRpcError.invalidRequest.toErrorCode
  maxMessageBytes := options.maxMessageBytes

namespace LengthPrefixedStreamMessageEndpoint

section

variable {σ τ : Type} (stream : SizeStream σ) (sink : SizeSink τ)
  (endpoint : LengthPrefixedStreamMessageEndpoint)

/-- `recv`: the buffer, whose size is the value the task returns. -/
def recv (buffer : MessageType) (s : σ) : Except TransportError (MessageType × σ) := do
  let (size, s) ← (stream.readU32Le s).mapError .io
  if endpoint.maxMessageBytes < size then
    throw (.code endpoint.messageTooLarge)
  let buffer := resize buffer size
  if size = 0 then
    return (buffer, s)
  let (body, s) ← (stream.readAll buffer.length s).mapError .io
  if body.length ≠ buffer.length then
    throw (.io .unexpectedEof)
  -- the read fills the whole buffer
  return (body, s)

/-- `send`. -/
def send (buffer : MessageType) (t : τ) : Except TransportError (ℕ × τ) := do
  if 2 ^ 32 - 1 < buffer.length ∨ endpoint.maxMessageBytes < buffer.length then
    throw (.code endpoint.messageTooLarge)
  let t ← (sink.writeU32Le buffer.length t).mapError .io
  let (writtenSize, t) ← (sink.writeAll buffer t).mapError .io
  if writtenSize ≠ buffer.length then
    throw (.io .writeZero)
  let t ← (sink.flush t).mapError .io
  return (buffer.length, t)

/-- Sending messages one after the other. -/
def sendMany : List MessageType → τ → Except TransportError τ
  | [], t => .ok t
  | message :: messages, t => do
    let (_, t) ← endpoint.send sink message t
    sendMany messages t

/-- Receiving a number of messages one after the other, each into a new buffer. -/
def recvMany : ℕ → σ → Except TransportError (List MessageType × σ)
  | 0, s => .ok ([], s)
  | n + 1, s => do
    let (message, s) ← endpoint.recv stream [] s
    let (messages, s) ← recvMany n s
    return (message :: messages, s)

/-- The sizes that `send` lets pass. -/
structure Sendable (message : MessageType) : Prop where
  lt_word : message.length < 2 ^ 32
  le_max : message.length ≤ endpoint.maxMessageBytes

end

/-- What stands on a stream for a message. -/
def frame (message : MessageType) : MessageType := u32Le message.length ++ message

section

variable {σ τ : Type} {stream : SizeStream σ} {sink : SizeSink τ}
  {endpoint : LengthPrefixedStreamMessageEndpoint}

/-- A message that is too large is refused before anything is written. -/
theorem send_refused {message : MessageType} (h : ¬endpoint.Sendable message) (t : τ) :
    endpoint.send sink message t = .error (.code endpoint.messageTooLarge) := by
  have hlarge : 2 ^ 32 - 1 < message.length ∨ endpoint.maxMessageBytes < message.length := by
    by_contra hsmall
    exact h ⟨by omega, by omega⟩
  unfold send
  rw [if_pos hlarge]
  rfl

/-- Any other message is written, unless the stream fails. -/
theorem send_sendable (sink : SizeSink τ) {message : MessageType}
    (h : endpoint.Sendable message) (t : τ) :
    (∃ e, endpoint.send sink message t = .error (.io e)) ∨
      ∃ t', endpoint.send sink message t = .ok (message.length, t') ∧
        sink.written t' = sink.written t ++ frame message := by
  have hlt := h.lt_word
  have hle := h.le_max
  unfold send
  rw [if_neg (by omega)]
  cases hsize : sink.writeU32Le message.length t with
  | error e => exact .inl ⟨e, rfl⟩
  | ok t₁ =>
    have hwritten₁ := sink.writeU32Le_ok hlt hsize
    simp only [bind, Except.bind, Except.mapError]
    cases hwrite : sink.writeAll message t₁ with
    | error e => exact .inl ⟨e, rfl⟩
    | ok p =>
      obtain ⟨n, t₂⟩ := p
      obtain ⟨rfl, hwritten₂⟩ := sink.writeAll_ok hwrite
      simp only [ne_eq, not_true, if_false, pure, Except.pure]
      cases hflush : sink.flush t₂ with
      | error e => exact .inl ⟨e, rfl⟩
      | ok t₃ =>
        refine .inr ⟨t₃, rfl, ?_⟩
        rw [sink.flush_ok hflush, hwritten₂, hwritten₁, List.append_assoc, frame]

/-- A message that was sent. -/
theorem send_eq_ok {message : MessageType} {n : ℕ} {t t' : τ}
    (h : endpoint.send sink message t = .ok (n, t')) :
    endpoint.Sendable message ∧ n = message.length ∧
      sink.written t' = sink.written t ++ frame message := by
  by_cases hsendable : endpoint.Sendable message
  · rcases send_sendable sink hsendable t with ⟨e, herror⟩ | ⟨t₁, hok, hwritten⟩
    · rw [herror] at h
      exact absurd h (by simp)
    · rw [hok] at h
      obtain ⟨rfl, rfl⟩ := Prod.mk.inj (Except.ok.inj h)
      exact ⟨hsendable, rfl, hwritten⟩
  · rw [send_refused hsendable] at h
    exact absurd h (by simp)

/-- Messages that were sent stand on the wire one frame after the other. -/
theorem sendMany_eq_ok {messages : List MessageType} : ∀ {t t' : τ},
    endpoint.sendMany sink messages t = .ok t' →
      (∀ message ∈ messages, endpoint.Sendable message) ∧
        sink.written t' = sink.written t ++ messages.flatMap frame := by
  induction messages with
  | nil =>
    intro t t' h
    obtain rfl := Except.ok.inj h
    exact ⟨fun message hm => absurd hm List.not_mem_nil, by simp⟩
  | cons message messages ih =>
    intro t t' h
    unfold sendMany at h
    cases hsend : endpoint.send sink message t with
    | error error => rw [hsend] at h; exact absurd h (by simp [bind, Except.bind])
    | ok p =>
      rw [hsend] at h
      obtain ⟨hsendable, -, hwritten⟩ := send_eq_ok hsend
      obtain ⟨hrest, hwritten'⟩ := ih h
      refine ⟨List.forall_mem_cons.mpr ⟨hsendable, hrest⟩, ?_⟩
      rw [hwritten', hwritten, List.flatMap_cons, List.append_assoc]

/-- **Receiving a message.** -/
theorem recv_frame {message rest : MessageType} (h : endpoint.Sendable message)
    (buffer : MessageType) {s : σ} (hs : stream.pending s = frame message ++ rest) :
    ∃ s', endpoint.recv stream buffer s = .ok (message, s') ∧ stream.pending s' = rest := by
  rw [frame, List.append_assoc] at hs
  obtain ⟨s₁, hsize, hs₁⟩ := stream.readU32Le_append h.lt_word hs
  have hle := h.le_max
  unfold recv
  simp only [hsize, bind, Except.bind, Except.mapError]
  rw [if_neg (by omega)]
  by_cases hzero : message.length = 0
  · obtain rfl := List.length_eq_zero_iff.mp hzero
    rw [if_pos hzero, List.length_nil, resize_zero]
    exact ⟨s₁, rfl, hs₁⟩
  · obtain ⟨s₂, hread₂, hs₂⟩ := stream.readAll_append hs₁
    refine ⟨s₂, ?_, hs₂⟩
    simp only [if_neg hzero, length_resize, hread₂, pure, Except.pure, ne_eq, not_true, if_false]

/-- What was received stood on the stream. -/
theorem recv_eq_ok {buffer message : MessageType} {s s' : σ}
    (h : endpoint.recv stream buffer s = .ok (message, s')) :
    endpoint.Sendable message ∧ stream.pending s = frame message ++ stream.pending s' := by
  unfold recv at h
  cases hsize : stream.readU32Le s with
  | error error =>
    rw [hsize] at h
    exact absurd h (by simp [bind, Except.bind, Except.mapError])
  | ok p =>
    obtain ⟨size, s₁⟩ := p
    obtain ⟨hlt, hpending⟩ := stream.readU32Le_eq_ok hsize
    simp only [hsize, bind, Except.bind, Except.mapError, pure, Except.pure, length_resize] at h
    by_cases hlarge : endpoint.maxMessageBytes < size
    · rw [if_pos hlarge] at h
      exact absurd h (by simp [throw, throwThe, MonadExceptOf.throw])
    · rw [if_neg hlarge] at h
      by_cases hzero : size = 0
      · subst hzero
        rw [if_pos rfl] at h
        obtain ⟨hmessage, rfl⟩ := Prod.mk.inj (Except.ok.inj h)
        obtain rfl := hmessage.symm.trans (resize_zero buffer)
        refine ⟨⟨by simp, by simp⟩, ?_⟩
        rw [hpending, frame, List.length_nil, List.append_nil]
      · rw [if_neg hzero] at h
        cases hbody : stream.readAll size s₁ with
        | error error => rw [hbody] at h; exact absurd h (by simp)
        | ok p =>
          obtain ⟨body, s₂⟩ := p
          obtain ⟨hlen, hpending₁⟩ := stream.readAll_eq_ok hbody
          simp only [hbody, hlen, ne_eq, not_true, if_false] at h
          obtain ⟨rfl, rfl⟩ := Prod.mk.inj (Except.ok.inj h)
          refine ⟨⟨by omega, by omega⟩, ?_⟩
          rw [hpending, hpending₁, frame, hlen, List.append_assoc]

/-- **A message comes off a stream** exactly where the stream starts with its frame. -/
theorem recv_eq_ok_iff {buffer message rest : MessageType} {s : σ} :
    (∃ s', endpoint.recv stream buffer s = .ok (message, s') ∧ stream.pending s' = rest) ↔
      endpoint.Sendable message ∧ stream.pending s = frame message ++ rest := by
  constructor
  · rintro ⟨s', hrecv, rfl⟩
    exact recv_eq_ok hrecv
  · rintro ⟨hsendable, hs⟩
    exact recv_frame hsendable buffer hs

/-- At the end of the stream. -/
theorem recv_eof {buffer : MessageType} {s : σ} (hs : stream.pending s = []) :
    endpoint.recv stream buffer s = .error (.io .unexpectedEof) := by
  unfold recv
  rw [stream.readU32Le_eof (by rw [hs]; decide)]
  rfl

/-- **Receiving messages that stand one after the other.** -/
theorem recvMany_frames {messages : List MessageType} {rest : MessageType} : ∀ {s : σ},
    (∀ message ∈ messages, endpoint.Sendable message) →
      stream.pending s = messages.flatMap frame ++ rest →
      ∃ s', endpoint.recvMany stream messages.length s = .ok (messages, s') ∧
        stream.pending s' = rest := by
  induction messages with
  | nil => intro s _ hs; exact ⟨s, rfl, hs⟩
  | cons message messages ih =>
    intro s h hs
    obtain ⟨hmessage, hmessages⟩ := List.forall_mem_cons.mp h
    rw [List.flatMap_cons, List.append_assoc] at hs
    obtain ⟨s₁, hrecv, hs₁⟩ := recv_frame hmessage [] hs
    obtain ⟨s₂, hmany, hs₂⟩ := ih hmessages hs₁
    refine ⟨s₂, ?_, hs₂⟩
    rw [List.length_cons]
    unfold recvMany
    simp only [hrecv, bind, Except.bind, hmany]
    rfl

end

end LengthPrefixedStreamMessageEndpoint

/-! ## Datagrams -/

/-- A datagram and who is at its other end. -/
structure Datagram (E : Type) where
  payload : MessageType
  peer : E
  deriving DecidableEq, Repr

/-- What calls of a socket's `recvfrom` will report, one after the other. -/
abbrev Arrivals (E : Type) : Type := List (Except EndpointError (Datagram E))

/-- The writing side of a datagram socket: the datagrams sent so far, and `sendto`, which sends the
bytes it is given as one datagram, or fails. -/
structure DatagramSink (E τ : Type) where
  sent : τ → List (Datagram E)
  sendto : MessageType → E → τ → Except EndpointError (ℕ × τ)
  sendto_ok : ∀ {bytes : MessageType} {peer : E} {n : ℕ} {t t' : τ},
    sendto bytes peer t = .ok (n, t') → n = bytes.length ∧ sent t' = sent t ++ [⟨bytes, peer⟩]

/-- `ChunkedDatagramMessageEndpoint`, without its socket and its peer. -/
structure ChunkedDatagramMessageEndpoint where
  messageTooLarge : ErrorCode
  chunkSize : ℕ := 1500
  deriving DecidableEq, Repr

namespace ChunkedDatagramMessageEndpoint

section

variable {E τ : Type} (sink : DatagramSink E τ) (endpoint : ChunkedDatagramMessageEndpoint)

/-- The loop of `recv`. A call that still waits has no error. -/
def recvLoop (current : ℕ) (buffer : MessageType) :
    Arrivals E → Except (Option TransportError) (MessageType × E × Arrivals E)
  | [] => .error none
  | .error error :: _ => .error (some (.io error))
  | .ok datagram :: arrivals =>
    -- `recvfrom` drops what does not fit
    let read := datagram.payload.take (buffer.length - current)
    let buffer := buffer.take current ++ read ++ buffer.drop (current + read.length)
    if read.length + current = buffer.length then
      recvLoop buffer.length (resize buffer (buffer.length + endpoint.chunkSize)) arrivals
    else .ok (resize buffer (read.length + current), datagram.peer, arrivals)

/-- `recv`: the buffer, whose size is the value the task returns, and `mEndpoint`. -/
def recv (buffer : MessageType) (arrivals : Arrivals E) :
    Except (Option TransportError) (MessageType × E × Arrivals E) :=
  endpoint.recvLoop buffer.length (resize buffer (buffer.length + endpoint.chunkSize)) arrivals

/-- The loop of `send`. -/
def sendRest (buffer : MessageType) (peer : E) (sent : ℕ) (t : τ) :
    Except TransportError (ℕ × τ) :=
  if sent < buffer.length then
    match sink.sendto (buffer.drop sent) peer t with
    | .error error => .error (.io error)
    | .ok (n, t) => if 0 < n then sendRest buffer peer (sent + n) t else .ok (sent, t)
  else .ok (sent, t)
termination_by buffer.length - sent

/-- `send`. -/
def send (buffer : MessageType) (peer : E) (t : τ) : Except TransportError (ℕ × τ) :=
  if endpoint.chunkSize ≤ buffer.length then .error (.code endpoint.messageTooLarge)
  else
    match sink.sendto buffer peer t with
    | .error error => .error (.io error)
    | .ok (sent, t) => sendRest sink buffer peer sent t

/-- Sending messages one after the other. -/
def sendMany (peer : E) : List MessageType → τ → Except TransportError τ
  | [], t => .ok t
  | message :: messages, t => do
    let (_, t) ← endpoint.send sink message peer t
    sendMany peer messages t

/-- Receiving a number of messages one after the other, each into a new buffer. -/
def recvMany :
    ℕ → Arrivals E → Except (Option TransportError) (List MessageType × Arrivals E)
  | 0, arrivals => .ok ([], arrivals)
  | n + 1, arrivals => do
    let (message, _, arrivals) ← endpoint.recv [] arrivals
    let (messages, arrivals) ← recvMany n arrivals
    return (message :: messages, arrivals)

end

section

variable {E τ : Type} {sink : DatagramSink E τ} {endpoint : ChunkedDatagramMessageEndpoint}

/-- A step of the loop behind what was received. -/
theorem recvLoop_ok (front : MessageType) (datagram : Datagram E) (arrivals : Arrivals E) :
    endpoint.recvLoop front.length (resize front (front.length + endpoint.chunkSize))
        (.ok datagram :: arrivals) =
      if endpoint.chunkSize ≤ datagram.payload.length then
        endpoint.recv (front ++ datagram.payload.take endpoint.chunkSize) arrivals
      else .ok (front ++ datagram.payload, datagram.peer, arrivals) := by
  rw [resize_grow]
  unfold recvLoop recv
  simp only [List.length_append, List.length_replicate, Nat.add_sub_cancel_left, List.take_left,
    List.drop_append, List.length_take]
  by_cases hfull : endpoint.chunkSize ≤ datagram.payload.length
  · have hdrop : front.drop (front.length + endpoint.chunkSize) = [] :=
      List.drop_of_length_le (Nat.le_add_right _ _)
    have hpadding : (List.replicate endpoint.chunkSize (0 : UInt8)).drop endpoint.chunkSize = [] :=
      List.drop_of_length_le (List.length_replicate ▸ le_rfl)
    rw [Nat.min_eq_left hfull, hdrop, hpadding, if_pos hfull, List.nil_append, List.append_nil,
      List.length_nil, Nat.add_zero, if_pos (Nat.add_comm _ _)]
  · have hmin : min endpoint.chunkSize datagram.payload.length = datagram.payload.length := by
      omega
    have hdrop : front.drop (front.length + datagram.payload.length) = [] :=
      List.drop_of_length_le (Nat.le_add_right _ _)
    rw [hmin, if_neg hfull, List.take_of_length_le (by omega), hdrop, List.nil_append]
    rw [if_neg (by simp; omega), Nat.add_comm, ← List.length_append, resize_append]

/-- **A datagram** that is shorter than a chunk ends the message, and its sender is the peer. -/
theorem recv_short {datagram : Datagram E} (h : datagram.payload.length < endpoint.chunkSize)
    (buffer : MessageType) (arrivals : Arrivals E) :
    endpoint.recv buffer (.ok datagram :: arrivals) =
      .ok (buffer ++ datagram.payload, datagram.peer, arrivals) := by
  rw [recv, recvLoop_ok, if_neg (by omega)]

/-- **Longer datagrams** are cut to the chunk, and the message goes on behind them. -/
theorem recv_chunks {datagrams : List (Datagram E)} :
    ∀ {buffer : MessageType} {arrivals : Arrivals E},
      (∀ datagram ∈ datagrams, endpoint.chunkSize ≤ datagram.payload.length) →
      endpoint.recv buffer (datagrams.map .ok ++ arrivals) =
        endpoint.recv (buffer ++
          datagrams.flatMap fun datagram => datagram.payload.take endpoint.chunkSize) arrivals := by
  induction datagrams with
  | nil =>
    intro buffer arrivals _
    rw [List.map_nil, List.flatMap_nil, List.nil_append, List.append_nil]
  | cons datagram datagrams ih =>
    intro buffer arrivals h
    obtain ⟨hfirst, hrest⟩ := List.forall_mem_cons.mp h
    rw [List.map_cons, List.cons_append, recv, recvLoop_ok, if_pos hfirst, ih hrest,
      List.flatMap_cons, List.append_assoc]

/-- **What `recv` makes of the arrivals**: datagrams that fill the chunk up to one that does not,
which is where the message ends and who it is from. -/
theorem recv_eq_ok_iff {arrivals rest : Arrivals E} {message : MessageType} {peer : E} :
    ∀ {buffer : MessageType}, endpoint.recv buffer arrivals = .ok (message, peer, rest) ↔
      ∃ (full : List (Datagram E)) (last : Datagram E),
        arrivals = full.map .ok ++ .ok last :: rest ∧
        (∀ datagram ∈ full, endpoint.chunkSize ≤ datagram.payload.length) ∧
        last.payload.length < endpoint.chunkSize ∧ peer = last.peer ∧
        message = buffer ++
          full.flatMap (fun datagram => datagram.payload.take endpoint.chunkSize) ++
            last.payload := by
  intro buffer
  constructor
  · induction arrivals generalizing buffer with
    | nil => exact fun h => absurd h (by simp [recv, recvLoop])
    | cons arrival arrivals ih =>
      intro h
      cases arrival with
      | error error => exact absurd h (by simp [recv, recvLoop])
      | ok datagram =>
        by_cases hfull : endpoint.chunkSize ≤ datagram.payload.length
        · rw [recv, recvLoop_ok, if_pos hfull] at h
          obtain ⟨full, last, rfl, hall, hlast, hpeer, rfl⟩ := ih h
          refine ⟨datagram :: full, last, rfl, List.forall_mem_cons.mpr ⟨hfull, hall⟩, hlast,
            hpeer, ?_⟩
          rw [List.flatMap_cons]
          simp only [List.append_assoc]
        · rw [recv_short (by omega)] at h
          obtain ⟨rfl, hrest⟩ := Prod.mk.inj (Except.ok.inj h)
          obtain ⟨rfl, rfl⟩ := Prod.mk.inj hrest
          exact ⟨[], datagram, rfl, List.forall_mem_nil _, by omega, rfl, by simp⟩
  · rintro ⟨full, last, rfl, hall, hlast, rfl, rfl⟩
    rw [recv_chunks hall, recv_short hlast]

/-- Receiving short datagrams. -/
theorem recvMany_short {datagrams : List (Datagram E)} {arrivals : Arrivals E}
    (h : ∀ datagram ∈ datagrams, datagram.payload.length < endpoint.chunkSize) :
    endpoint.recvMany datagrams.length (datagrams.map .ok ++ arrivals) =
      .ok (datagrams.map Datagram.payload, arrivals) := by
  induction datagrams with
  | nil => rfl
  | cons datagram datagrams ih =>
    obtain ⟨hfirst, hrest⟩ := List.forall_mem_cons.mp h
    rw [List.length_cons]
    unfold recvMany
    simp only [List.map_cons, List.cons_append, recv_short hfirst, bind, Except.bind, ih hrest]
    rfl

/-- A message that was sent is one datagram. -/
theorem send_eq_ok {message : MessageType} {peer : E} {n : ℕ} {t t' : τ}
    (h : endpoint.send sink message peer t = .ok (n, t')) :
    message.length < endpoint.chunkSize ∧ n = message.length ∧
      sink.sent t' = sink.sent t ++ [⟨message, peer⟩] := by
  unfold send at h
  split_ifs at h with hlarge
  cases hsend : sink.sendto message peer t with
  | error error => rw [hsend] at h; exact absurd h (by simp)
  | ok p =>
    obtain ⟨m, t₁⟩ := p
    obtain ⟨rfl, hsent⟩ := sink.sendto_ok hsend
    rw [hsend] at h
    simp only at h
    -- the socket took the whole message
    unfold sendRest at h
    rw [if_neg (lt_irrefl _)] at h
    obtain ⟨rfl, rfl⟩ := Prod.mk.inj (Except.ok.inj h)
    exact ⟨by omega, rfl, hsent⟩

/-- Messages that were sent are datagrams. -/
theorem sendMany_eq_ok {peer : E} {messages : List MessageType} : ∀ {t t' : τ},
    endpoint.sendMany sink peer messages t = .ok t' →
      (∀ message ∈ messages, message.length < endpoint.chunkSize) ∧
        sink.sent t' = sink.sent t ++ messages.map (⟨·, peer⟩) := by
  induction messages with
  | nil =>
    intro t t' h
    obtain rfl := Except.ok.inj h
    exact ⟨fun message hm => absurd hm List.not_mem_nil, by simp⟩
  | cons message messages ih =>
    intro t t' h
    unfold sendMany at h
    cases hsend : endpoint.send sink message peer t with
    | error error => rw [hsend] at h; exact absurd h (by simp [bind, Except.bind])
    | ok p =>
      rw [hsend] at h
      obtain ⟨hlt, -, hsent⟩ := send_eq_ok hsend
      obtain ⟨hrest, hsent'⟩ := ih h
      refine ⟨List.forall_mem_cons.mpr ⟨hlt, hrest⟩, ?_⟩
      rw [hsent', hsent, List.append_assoc, List.map_cons, List.singleton_append]

end

end ChunkedDatagramMessageEndpoint

/-! ## Arrival -/

/-- An encoded response is never too large for the endpoint of the same options. -/
theorem encodeResponses_sendable (text : Json.JsonText) {options : Options}
    (hmax : options.maxMessageBytes < 2 ^ 32) (responses : List Json.JsonValue) (batch : Bool) :
    (makeEndpoint options).Sendable (encodeResponses text options responses batch) := by
  have hle : (encodeResponses text options responses batch).length ≤ options.maxMessageBytes := by
    unfold encodeResponses
    simp only
    split_ifs with hlarge
    · exact Nat.zero_le _
    · exact not_lt.mp hlarge
  exact ⟨by omega, hle⟩

/-- **Messages over a stream.** Messages that were sent and that the receiver's options admit are
received whole and in order, however the stream is cut, and then its end is reported. On any
stream, what is received is valid for the options and stood there with its size. And a message is
refused for its size exactly when it is larger than the sender's maximum or than four bytes tell. -/
theorem messages_arrive {σ τ : Type} (stream : SizeStream σ) (sink : SizeSink τ)
    (sender : LengthPrefixedStreamMessageEndpoint) (options : Options) :
    (∀ (messages : List MessageType) (t t' : τ) (s : σ), sink.written t = [] →
      sender.sendMany sink messages t = .ok t' → stream.pending s = sink.written t' →
      (∀ message ∈ messages, validateMessage options message = true) →
      ∃ s', (makeEndpoint options).recvMany stream messages.length s = .ok (messages, s') ∧
        (makeEndpoint options).recv stream [] s' = .error (.io .unexpectedEof)) ∧
    (∀ (buffer message : MessageType) (s s' : σ),
      (makeEndpoint options).recv stream buffer s = .ok (message, s') →
      validateMessage options message = true ∧
        stream.pending s =
          LengthPrefixedStreamMessageEndpoint.frame message ++ stream.pending s') ∧
    ∀ (message : MessageType) (t : τ),
      sender.send sink message t = .error (.code sender.messageTooLarge) ↔
        2 ^ 32 ≤ message.length ∨ sender.maxMessageBytes < message.length := by
  refine ⟨fun messages t t' s hempty hsent hs hvalid => ?_, fun buffer message s s' hrecv => ?_,
    fun message t => ?_⟩
  · obtain ⟨hsendable, hwritten⟩ := LengthPrefixedStreamMessageEndpoint.sendMany_eq_ok hsent
    rw [hwritten, hempty, List.nil_append, ← List.append_nil (messages.flatMap _)] at hs
    have hreceivable : ∀ message ∈ messages, (makeEndpoint options).Sendable message :=
      fun message hm => ⟨(hsendable message hm).lt_word, of_decide_eq_true (hvalid message hm)⟩
    obtain ⟨s', hmany, hs'⟩ :=
      LengthPrefixedStreamMessageEndpoint.recvMany_frames hreceivable hs
    exact ⟨s', hmany, LengthPrefixedStreamMessageEndpoint.recv_eof hs'⟩
  · obtain ⟨hsendable, hpending⟩ := LengthPrefixedStreamMessageEndpoint.recv_eq_ok hrecv
    exact ⟨decide_eq_true hsendable.le_max, hpending⟩
  · constructor
    · intro hrefused
      by_contra hsmall
      have hsendable : sender.Sendable message := ⟨by omega, by omega⟩
      rcases LengthPrefixedStreamMessageEndpoint.send_sendable sink hsendable t with
        ⟨e, herror⟩ | ⟨t', hok, -⟩
      · rw [herror] at hrefused
        exact absurd hrefused (by simp)
      · rw [hok] at hrefused
        exact absurd hrefused (by simp)
    · intro hlarge
      refine LengthPrefixedStreamMessageEndpoint.send_refused (fun hsendable => ?_) t
      have hlt := hsendable.lt_word
      have hle := hsendable.le_max
      omega

/-- Chunks, of which a size is read like other bytes. -/
def sizeStream : SizeStream (List MessageType) where
  toByteStream := Rpc.chunkStream
  readU32Le s := (Rpc.chunkStream.readAll 4 s).map fun p => (ofU32Le p.1, p.2)
  readU32Le_ok h := by
    obtain ⟨s', hread, hs'⟩ := Rpc.chunkStream.readAll_ok h
    exact ⟨s', by rw [hread]; rfl, hs'⟩
  readU32Le_eof h := by rw [Rpc.chunkStream.readAll_eof h]; rfl

/-- A sink that keeps what is written. -/
def sizeSink : SizeSink MessageType where
  toByteSink := Rpc.byteSink
  writeU32Le value t := .ok (t ++ u32Le value)
  writeU32Le_ok _ h := congrArg id (Except.ok.inj h).symm

/-- Two messages on a stream that is cut within their sizes. -/
theorem messages_arrive_cut :
    ∃ s', (makeEndpoint {}).recvMany sizeStream 2
        [[2, 0], [0, 0, 0x7b], [0x7d, 1, 0, 0], [0, 0x31]] = .ok ([[0x7b, 0x7d], [0x31]], s') ∧
      (makeEndpoint {}).recv sizeStream [] s' = .error (.io .unexpectedEof) :=
  (messages_arrive sizeStream sizeSink (makeEndpoint {}) {}).1 [[0x7b, 0x7d], [0x31]] []
    [2, 0, 0, 0, 0x7b, 0x7d, 1, 0, 0, 0, 0x31] _ rfl rfl rfl (by decide)

/-- **Messages over datagrams.** A call of `recv` joins what fills the chunk to what follows, up to
a datagram that does not fill it, and takes its sender for the peer. Messages that were sent are
single datagrams which do not fill the chunk, so that datagrams lost, repeated and reordered on
the way are received each as one of the messages, in the order of their arrival. -/
theorem datagrams_arrive {E τ : Type} (sink : DatagramSink E τ)
    (sender receiver : ChunkedDatagramMessageEndpoint)
    (hchunk : sender.chunkSize ≤ receiver.chunkSize) :
    (∀ (buffer message : MessageType) (peer : E) (arrivals rest : Arrivals E),
      receiver.recv buffer arrivals = .ok (message, peer, rest) ↔
        ∃ (full : List (Datagram E)) (last : Datagram E),
          arrivals = full.map .ok ++ .ok last :: rest ∧
          (∀ datagram ∈ full, receiver.chunkSize ≤ datagram.payload.length) ∧
          last.payload.length < receiver.chunkSize ∧ peer = last.peer ∧
          message = buffer ++
            full.flatMap (fun datagram => datagram.payload.take receiver.chunkSize) ++
              last.payload) ∧
    ∀ (peer : E) (messages : List MessageType) (t t' : τ), sink.sent t = [] →
      sender.sendMany sink peer messages t = .ok t' →
      sink.sent t' = messages.map (⟨·, peer⟩) ∧
      ∀ (datagrams : List (Datagram E)) (arrivals : Arrivals E),
        (∀ datagram ∈ datagrams, ∃ sent ∈ sink.sent t', datagram.payload = sent.payload) →
        receiver.recvMany datagrams.length (datagrams.map .ok ++ arrivals) =
            .ok (datagrams.map Datagram.payload, arrivals) ∧
          ∀ message ∈ datagrams.map Datagram.payload, message ∈ messages := by
  refine ⟨fun buffer message peer arrivals rest =>
    ChunkedDatagramMessageEndpoint.recv_eq_ok_iff, fun peer messages t t' hempty hsent => ?_⟩
  obtain ⟨hshort, hsent'⟩ := ChunkedDatagramMessageEndpoint.sendMany_eq_ok hsent
  rw [hempty, List.nil_append] at hsent'
  refine ⟨hsent', fun datagrams arrivals harrived => ?_⟩
  have hmessage : ∀ datagram ∈ datagrams, datagram.payload ∈ messages := by
    intro datagram hd
    obtain ⟨sent, hmem, hpayload⟩ := harrived datagram hd
    rw [hsent'] at hmem
    obtain ⟨message, hm, rfl⟩ := List.mem_map.mp hmem
    rw [hpayload]
    exact hm
  refine ⟨ChunkedDatagramMessageEndpoint.recvMany_short fun datagram hd =>
    lt_of_lt_of_le (hshort _ (hmessage datagram hd)) hchunk, fun message hm => ?_⟩
  obtain ⟨datagram, hd, rfl⟩ := List.mem_map.mp hm
  exact hmessage datagram hd

/-- A sink that keeps the datagrams. -/
def datagramSink : DatagramSink ℕ (List (Datagram ℕ)) where
  sent := id
  sendto bytes peer t := .ok (bytes.length, t ++ [⟨bytes, peer⟩])
  sendto_ok h := by
    obtain ⟨rfl, rfl⟩ := Prod.mk.inj (Except.ok.inj h)
    exact ⟨rfl, rfl⟩

/-- An endpoint as `make_udp_stream_client` makes it. -/
def udpEndpoint : ChunkedDatagramMessageEndpoint where
  messageTooLarge := JsonRpcError.messageToolLarge.toErrorCode

/-- Two messages that arrive in the other order, one of them twice. -/
theorem datagrams_arrive_reordered :
    udpEndpoint.recvMany 3 [.ok ⟨[2], 7⟩, .ok ⟨[1], 7⟩, .ok (⟨[2], 7⟩ : Datagram ℕ)] =
        .ok ([[2], [1], [2]], []) ∧
      ∀ message ∈ [[2], [1], [2]], message ∈ ([[1], [2]] : List MessageType) :=
  ((datagrams_arrive datagramSink udpEndpoint udpEndpoint le_rfl).2 9 [[1], [2]] []
    [⟨[1], 9⟩, ⟨[2], 9⟩] rfl
    (by
      unfold ChunkedDatagramMessageEndpoint.sendMany ChunkedDatagramMessageEndpoint.sendMany
      simp [ChunkedDatagramMessageEndpoint.send, ChunkedDatagramMessageEndpoint.sendMany,
        ChunkedDatagramMessageEndpoint.sendRest, udpEndpoint, datagramSink, bind, Except.bind])).2
    [⟨[2], 7⟩, ⟨[1], 7⟩, ⟨[2], 7⟩] [] (by simp [datagramSink])

end NekoProto.JsonRpc
