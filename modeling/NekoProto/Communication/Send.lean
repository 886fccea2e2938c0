import NekoProto.Communication.Receive

/-!
# Sending messages

The sending half of `ProtoStreamClient`, over a stream of which each write takes some of the bytes
it is given, or fails.

1. `_sendRaw` writes until the stream has taken everything or a write fails (`sendRaw_cases`), but
   nothing at all if the size is not one of an `int` (`sendRaw_narrow`).
2. The loop of a sliced send looks at the result of a slice when it is about to send the next. So
   that of the last slice is not looked at (`sendSlices_cases`).
3. When a successful send has handed over all of the message is `send_whole_iff`.
-/

namespace NekoProto.Communication

open Binary

/-! ## The stream -/

/-- The writing side of a stream: what a write of some bytes returns, the number of them that were
taken or an error, and the state that it leaves. -/
structure Stream (σ : Type) where
  write : σ → Bytes → Except IoError ℕ × σ
  write_le : ∀ s bytes n, (write s bytes).1 = .ok n → n ≤ bytes.length

/-- A stream with all the bytes that it took, and whether a write to it failed. -/
structure Sink (σ : Type) where
  state : σ
  taken : Bytes := []
  failed : Bool := false

section

variable {σ : Type} (stream : Stream σ)

/-- A write. One that takes nothing has failed as well. -/
def Sink.write (k : Sink σ) (bytes : Bytes) : Except IoError ℕ × Sink σ :=
  match stream.write k.state bytes with
  | (.error e, s) => (.error e, { k with state := s, failed := true })
  | (.ok 0, s) => (.error .connectionReset, { k with state := s, failed := true })
  | (.ok (n + 1), s) => (.ok (n + 1), { k with state := s, taken := k.taken ++ bytes.take (n + 1) })

/-- The loop of `_sendRaw`, in which each write takes at least a byte. -/
def sendLoop (data : Bytes) : ℕ → ℕ → Sink σ → Except IoError Unit × Sink σ
  | 0, _, k => (.ok (), k)
  | fuel + 1, sended, k =>
    if sended < narrow data.length then
      match k.write stream (data.drop sended) with
      | (.error e, k) => (.error e, k)
      | (.ok n, k) => sendLoop data fuel (sended + n) k
    else (.ok (), k)

/-- `_sendRaw`. -/
def sendRaw (data : Bytes) (k : Sink σ) : Except IoError Unit × Sink σ :=
  sendLoop stream data data.length 0 k

/-- What is sent after something else, unless this failed. -/
def thenSend (sent : Except IoError Unit × Sink σ) (next : Sink σ → Except IoError Unit × Sink σ) :
    Except IoError Unit × Sink σ :=
  match sent with
  | (.error e, k) => (.error e, k)
  | (.ok (), k) => next k

/-! ## Messages -/

/-- The most data of a slice: `gSliceSize` less a header. -/
def sliceDataSize : ℕ := 1190

/-- The header of a slice. -/
def sliceHeader (offset : ℕ) (data : Bytes) : MessageHeader :=
  ⟨BitVec.ofNat 32 data.length, BitVec.ofNat 32 offset, MessageType.slice.code⟩

/-- `_sendSlice`. -/
def sendSlice (data : Bytes) (offset : ℕ) (k : Sink σ) : Except IoError Unit × Sink σ :=
  thenSend (sendRaw stream (serializeHeader (sliceHeader offset data)) k) (sendRaw stream data)

/-- `_sendCancel`. -/
def sendCancel (data : BitVec 32) (k : Sink σ) : Except IoError Unit × Sink σ :=
  sendRaw stream (serializeHeader ⟨0, data, MessageType.cancel.code⟩) k

/-- The loop of a sliced send, with the result of the last write and the data behind the offset.
The next slice has data, as the assertion in it says. -/
def sendSlices (type : BitVec 32) : ℕ → Except IoError Unit → ℕ → Bytes → Sink σ →
    Except IoError Unit × Sink σ
  | 0, _, _, _, k => (.ok (), k)
  | _ + 1, .error e, _, _, k =>
    (.error e, if e = .canceled then (sendCancel stream type k).2 else k)
  | fuel + 1, .ok (), offset, rest, k =>
    let sliceSize := min rest.length sliceDataSize
    let sent := sendSlice stream (rest.take sliceSize) offset k
    if rest.length ≤ sliceSize then (.ok (), sent.2)
    else sendSlices type fuel sent.1 (offset + sliceSize) (rest.drop sliceSize) sent.2

/-- A sliced send of data that is not empty. -/
def sendSliced (type : BitVec 32) (data : Bytes) (k : Sink σ) : Except IoError Unit × Sink σ :=
  let header : MessageHeader :=
    ⟨BitVec.ofNat 32 data.length, type, MessageType.sliceHeader.code⟩
  let sent := sendRaw stream (serializeHeader header) k
  sendSlices stream type data.length sent.1 0 data sent.2

/-- A send of data behind the room for a header. -/
def sendComplete (type : BitVec 32) (data : Bytes) (k : Sink σ) : Except IoError Unit × Sink σ :=
  let header : MessageHeader :=
    ⟨BitVec.ofNat 32 (data.length - MessageHeader.size), type, MessageType.complete.code⟩
  sendRaw stream (serializeHeader header ++ data.drop MessageHeader.size) k

/-- `_serializeMessageData`, with the result of the message's `toData`. -/
def serializeMessageData (payload : Option Bytes) (reserveHeader : Bool) : Bytes :=
  match payload with
  | some payload => (if reserveHeader then List.replicate MessageHeader.size 0 else []) ++ payload
  | none => []

/-- The table in a version packet: the types that are not reserved. -/
def versionTable {Msg : Type} (factory : Option (ProtoFactory Msg)) : ProtocolTable :=
  match factory with
  | none => {}
  | some factory =>
    { protocolFactoryVersion := factory.version
      protoTable := factory.protoTypeMap.foldl (fun table entry =>
        if (reservedProtoTypeSize : ℤ) < entry.2.toInt then assign entry.2 entry.1 table
        else table) [] }

/-- `_serializeVersionPacket`. -/
def serializeVersionPacket {Msg : Type} (factory : Option (ProtoFactory Msg)) : Bytes :=
  let data := serializeMessageData (versionTable factory).toData true
  if data = [] ∨ narrow data.length = MessageHeader.size then []
  else
    serializeHeader ⟨BitVec.ofNat 32 (data.length - MessageHeader.size), ProtocolTable.specifyType,
      MessageType.versionVerification.code⟩ ++ data.drop MessageHeader.size

/-- The errors of the stream among those of the client. -/
def ioResult : Except IoError Unit × Sink σ → Except Error Unit × Sink σ
  | (.error e, k) => (.error (.io e), k)
  | (.ok (), k) => (.ok (), k)

/-- `_sendVersion`. -/
def sendVersion {Msg : Type} (factory : Option (ProtoFactory Msg)) (k : Sink σ) :
    Except Error Unit × Sink σ :=
  let data := serializeVersionPacket factory
  if data = [] then (.error .serializationError, k) else ioResult (sendRaw stream data k)

/-- The part of `send` before the message. -/
def sendFirst {Msg : Type} (factory : Option (ProtoFactory Msg)) (flag : StreamFlag) (k : Sink σ) :
    Except Error Unit × Sink σ :=
  if flag.versionVerification then sendVersion stream factory k else (.ok (), k)

/-- The part of `send` with the message, of which these are the type and the data. -/
def sendMessage (flag : StreamFlag) (type : BitVec 32) (payload : Option Bytes) (k : Sink σ) :
    Except Error Unit × Sink σ :=
  let data := serializeMessageData payload (!flag.sliceData)
  if data = [] ∨ (!flag.sliceData) = true ∧ narrow data.length = MessageHeader.size then
    (.error .noData, k)
  else if 2 ^ 32 ≤ data.length then (.error (.io .messageTooLarge), k)
  else if flag.sliceData then ioResult (sendSliced stream type data k)
  else ioResult (sendComplete stream type data k)

/-- `send`. A null message has the type -1 and no data. -/
def send {Msg : Type} (program : Program Msg) (factory : Option (ProtoFactory Msg))
    (flag : StreamFlag) (message : Option (Proto Msg)) :
    Option (Sink σ) → Except Error Unit × Option (Sink σ)
  | none => (.error .unsupportOperator, none)
  | some k =>
    match sendFirst stream factory flag k with
    | (.error e, k) => (.error e, some k)
    | (.ok (), k) =>
      let sent := sendMessage stream flag (message.elim (-1) program.type)
        (message.bind program.toData) k
      (sent.1, some sent.2)

end

/-! ## Writing all of it -/

section

variable {σ : Type} {stream : Stream σ}

/-- The stream takes these bytes, in one write or in several. -/
inductive Takes (stream : Stream σ) : σ → Bytes → σ → Prop
  | nil (s : σ) : Takes stream s [] s
  | write {s t u : σ} {bytes : Bytes} {n : ℕ} : bytes ≠ [] →
    stream.write s bytes = (.ok (n + 1), t) → Takes stream t (bytes.drop (n + 1)) u →
    Takes stream s bytes u

/-- The stream takes these buffers one after the other. -/
inductive TakesAll (stream : Stream σ) : σ → List Bytes → σ → Prop
  | nil (s : σ) : TakesAll stream s [] s
  | cons {s t u : σ} {buffer : Bytes} {buffers : List Bytes} : Takes stream s buffer t →
    TakesAll stream t buffers u → TakesAll stream s (buffer :: buffers) u

/-- A send of buffers: the stream takes all of them, or a write fails. -/
def Sends (stream : Stream σ) (buffers : List Bytes) (k : Sink σ)
    (sent : Except IoError Unit × Sink σ) : Prop :=
  (∃ t, TakesAll stream k.state buffers t ∧
    sent = (.ok (), { k with state := t, taken := k.taken ++ buffers.flatten })) ∨
  (∀ t, ¬TakesAll stream k.state buffers t) ∧ (∃ e, sent.1 = .error e) ∧ sent.2.failed = true

theorem takes_nil {s t : σ} : Takes stream s [] t ↔ t = s := by
  constructor
  · intro h
    cases h with
    | nil => rfl
    | write hne => exact absurd rfl hne
  · rintro rfl
    exact .nil _

/-- The first write decides. -/
theorem takes_iff {s t u : σ} {bytes : Bytes} {n : ℕ} (hne : bytes ≠ [])
    (hwrite : stream.write s bytes = (.ok (n + 1), t)) :
    Takes stream s bytes u ↔ Takes stream t (bytes.drop (n + 1)) u := by
  constructor
  · intro h
    cases h with
    | nil => exact absurd rfl hne
    | write _ hwrite' hrest =>
      obtain ⟨hn, rfl⟩ := Prod.mk.inj (hwrite.symm.trans hwrite')
      obtain rfl := Nat.succ.inj (Except.ok.inj hn)
      exact hrest
  · exact .write hne hwrite

theorem not_takes {s u : σ} {bytes : Bytes} (hne : bytes ≠ [])
    (hwrite : ∀ n t, stream.write s bytes ≠ (.ok (n + 1), t)) : ¬Takes stream s bytes u := by
  intro h
  cases h with
  | nil => exact hne rfl
  | write _ hwrite' => exact hwrite _ _ hwrite'

theorem takesAll_singleton {s t : σ} {buffer : Bytes} :
    TakesAll stream s [buffer] t ↔ Takes stream s buffer t := by
  constructor
  · intro h
    cases h with
    | cons htakes hrest =>
      cases hrest
      exact htakes
  · exact fun h => .cons h (.nil t)

/-- Nothing is left to write. -/
theorem sends_nil (k : Sink σ) : Sends stream [[]] k (.ok (), k) := by
  refine .inl ⟨k.state, takesAll_singleton.mpr (.nil _), ?_⟩
  simp

theorem sendLoop_done {data : Bytes} {sended : ℕ} (h : narrow data.length ≤ sended) (fuel : ℕ)
    (k : Sink σ) : sendLoop stream data fuel sended k = (.ok (), k) := by
  cases fuel with
  | zero => rfl
  | succ fuel =>
    unfold sendLoop
    exact if_neg (not_lt.mpr h)

/-- The loop of `_sendRaw` with what is left of the data. -/
theorem sendLoop_sends {data : Bytes} (hdata : data.length < 2 ^ 31) :
    ∀ (fuel sended : ℕ) (k : Sink σ), data.length ≤ sended + fuel →
      Sends stream [data.drop sended] k (sendLoop stream data fuel sended k) := by
  intro fuel
  induction fuel with
  | zero =>
    intro sended k hle
    rw [List.drop_eq_nil_of_le (show data.length ≤ sended by omega)]
    exact sends_nil k
  | succ fuel ih =>
    intro sended k hle
    unfold sendLoop
    rw [narrow_of_lt hdata]
    by_cases hlt : sended < data.length
    · have hne : data.drop sended ≠ [] := by
        rw [ne_eq, List.drop_eq_nil_iff]
        omega
      rw [if_pos (Int.ofNat_lt.mpr hlt)]
      unfold Sink.write
      cases hwrite : stream.write k.state (data.drop sended) with
      | mk result s =>
        cases result with
        | error e =>
          refine .inr ⟨fun t h => ?_, ⟨e, rfl⟩, rfl⟩
          refine not_takes hne (fun n t hok => ?_) (takesAll_singleton.mp h)
          rw [hwrite] at hok
          cases hok
        | ok n =>
          cases n with
          | zero =>
            refine .inr ⟨fun t h => ?_, ⟨.connectionReset, rfl⟩, rfl⟩
            refine not_takes hne (fun n t hok => ?_) (takesAll_singleton.mp h)
            rw [hwrite] at hok
            cases hok
          | succ n =>
            have hrest := ih (sended + (n + 1)) { k with
              state := s
              taken := k.taken ++ (data.drop sended).take (n + 1) } (by omega)
            rw [← List.drop_drop] at hrest
            obtain ⟨t, htakes, hsent⟩ | ⟨hnot, hsent⟩ := hrest
            · refine .inl ⟨t, ?_, ?_⟩
              · exact takesAll_singleton.mpr (.write hne hwrite (takesAll_singleton.mp htakes))
              · refine hsent.trans ?_
                simp only [List.flatten_singleton, List.append_assoc, List.take_append_drop]
            · refine .inr ⟨fun t h => hnot t ?_, hsent⟩
              exact takesAll_singleton.mpr ((takes_iff hne hwrite).mp (takesAll_singleton.mp h))
    · rw [if_neg (by omega), List.drop_eq_nil_of_le (not_lt.mp hlt)]
      exact sends_nil k

theorem Takes.unique {s t u : σ} {bytes : Bytes} (h : Takes stream s bytes t) :
    Takes stream s bytes u → u = t := by
  induction h with
  | nil s => exact takes_nil.mp
  | write hne hwrite _ ih => exact fun h => ih ((takes_iff hne hwrite).mp h)

theorem TakesAll.unique {s t u : σ} {buffers : List Bytes} (h : TakesAll stream s buffers t) :
    TakesAll stream s buffers u → u = t := by
  induction h with
  | nil s =>
    intro h
    cases h
    rfl
  | cons htakes _ ih =>
    intro h
    cases h with
    | cons htakes' hrest => exact ih (htakes.unique htakes' ▸ hrest)

theorem takesAll_append {s u : σ} {first second : List Bytes} :
    TakesAll stream s (first ++ second) u ↔
      ∃ t, TakesAll stream s first t ∧ TakesAll stream t second u := by
  induction first generalizing s with
  | nil =>
    constructor
    · exact fun h => ⟨s, .nil s, h⟩
    · rintro ⟨t, hfirst, hsecond⟩
      cases hfirst
      exact hsecond
  | cons buffer first ih =>
    constructor
    · intro h
      cases h with
      | cons htakes hrest =>
        obtain ⟨t, hfirst, hsecond⟩ := ih.mp hrest
        exact ⟨t, .cons htakes hfirst, hsecond⟩
    · rintro ⟨t, hfirst, hsecond⟩
      cases hfirst with
      | cons htakes hrest => exact .cons htakes (ih.mpr ⟨t, hrest, hsecond⟩)

/-- Two sends, the second after the first. -/
theorem Sends.append {first second : List Bytes} {k : Sink σ} {sent : Except IoError Unit × Sink σ}
    {next : Sink σ → Except IoError Unit × Sink σ} (hfirst : Sends stream first k sent)
    (hnext : ∀ k, Sends stream second k (next k)) :
    Sends stream (first ++ second) k (thenSend sent next) := by
  obtain ⟨t, htakes, rfl⟩ | ⟨hnot, ⟨e, he⟩, hfailed⟩ := hfirst
  · obtain ⟨u, htakes', hsent⟩ | ⟨hnot, hsent⟩ :=
      hnext { k with state := t, taken := k.taken ++ first.flatten }
    · refine .inl ⟨u, takesAll_append.mpr ⟨t, htakes, htakes'⟩, hsent.trans ?_⟩
      simp only [List.flatten_append, List.append_assoc]
    · refine .inr ⟨fun u h => ?_, hsent⟩
      obtain ⟨t', htakes', hrest⟩ := takesAll_append.mp h
      exact hnot u (htakes.unique htakes' ▸ hrest)
  · obtain ⟨result, k'⟩ := sent
    obtain rfl : result = .error e := he
    refine .inr ⟨fun u h => ?_, ⟨e, rfl⟩, hfailed⟩
    obtain ⟨t, htakes, -⟩ := takesAll_append.mp h
    exact hnot t htakes

/-- **`_sendRaw`** of data whose size is one of an `int`. -/
theorem sendRaw_sends {data : Bytes} (hdata : data.length < 2 ^ 31) (k : Sink σ) :
    Sends stream [data] k (sendRaw stream data k) :=
  sendLoop_sends hdata data.length 0 k (by omega)

/-- **`_sendRaw`** of more data writes nothing, and succeeds. -/
theorem sendRaw_narrow {data : Bytes} (hdata : 2 ^ 31 ≤ data.length) (hdata' : data.length < 2 ^ 32)
    (k : Sink σ) : sendRaw stream data k = (.ok (), k) := by
  have hneg := narrow_neg hdata hdata'
  exact sendLoop_done (by omega) _ k

/-! ## The loop over the slices -/

/-- The slices of the data behind an offset. -/
def slices : ℕ → ℕ → Bytes → List (ℕ × Bytes)
  | 0, _, _ => []
  | fuel + 1, offset, rest =>
    if rest.length ≤ sliceDataSize then [(offset, rest)]
    else (offset, rest.take sliceDataSize) ::
      slices fuel (offset + sliceDataSize) (rest.drop sliceDataSize)

theorem slices_last {fuel offset : ℕ} {rest : Bytes} (h : rest.length ≤ sliceDataSize) :
    slices (fuel + 1) offset rest = [(offset, rest)] := if_pos h

theorem slices_more {fuel offset : ℕ} {rest : Bytes} (h : ¬rest.length ≤ sliceDataSize) :
    slices (fuel + 1) offset rest = (offset, rest.take sliceDataSize) ::
      slices fuel (offset + sliceDataSize) (rest.drop sliceDataSize) := if_neg h

/-- The buffers of a slice. -/
def sliceBuffers (slice : ℕ × Bytes) : List Bytes :=
  [serializeHeader (sliceHeader slice.1 slice.2), slice.2]

theorem length_serializeHeader (header : MessageHeader) : (serializeHeader header).length = 10 := by
  rw [serializeHeader_eq]
  exact header.length_bytes

/-- **A slice** is its header and its data. -/
theorem sendSlice_sends {data : Bytes} (hdata : data.length < 2 ^ 31) (offset : ℕ) (k : Sink σ) :
    Sends stream (sliceBuffers (offset, data)) k (sendSlice stream data offset k) := by
  have hheader : Sends stream [serializeHeader (sliceHeader offset data)] k
      (sendRaw stream (serializeHeader (sliceHeader offset data)) k) :=
    sendRaw_sends (by rw [length_serializeHeader]; decide) k
  exact hheader.append (sendRaw_sends hdata)

/-- A sink to which a write has failed stays one. -/
theorem Sends.failed {buffers : List Bytes} {k : Sink σ} {sent : Except IoError Unit × Sink σ}
    (h : Sends stream buffers k sent) (hk : k.failed = true) : sent.2.failed = true := by
  obtain ⟨t, -, rfl⟩ | ⟨-, -, hfailed⟩ := h
  · exact hk
  · exact hfailed

theorem sendCancel_failed (type : BitVec 32) {k : Sink σ} (hk : k.failed = true) :
    (sendCancel stream type k).2.failed = true := by
  have hsends : Sends stream [serializeHeader ⟨0, type, MessageType.cancel.code⟩] k
      (sendCancel stream type k) :=
    sendRaw_sends (by rw [length_serializeHeader]; decide) k
  exact hsends.failed hk

/-- The loop ends with an error, if there is one before the last slice. -/
theorem sendSlices_error (type : BitVec 32) (fuel offset : ℕ) (rest : Bytes) (e : IoError)
    {k : Sink σ} (hk : k.failed = true) :
    (sendSlices stream type (fuel + 1) (.error e) offset rest k).1 = .error e ∧
      (sendSlices stream type (fuel + 1) (.error e) offset rest k).2.failed = true := by
  unfold sendSlices
  refine ⟨rfl, ?_⟩
  simp only
  split_ifs
  · exact sendCancel_failed type hk
  · exact hk

/-- The last slice. -/
theorem sendSlices_last {type : BitVec 32} {fuel offset : ℕ} {rest : Bytes} {k : Sink σ}
    (h : rest.length ≤ sliceDataSize) : sendSlices stream type (fuel + 1) (.ok ()) offset rest k =
      (.ok (), (sendSlice stream rest offset k).2) := by
  rw [sendSlices]
  simp only [Nat.min_eq_left h, List.take_length, le_refl, if_true]

/-- A slice before the last. -/
theorem sendSlices_more {type : BitVec 32} {fuel offset : ℕ} {rest : Bytes} {k : Sink σ}
    (h : ¬rest.length ≤ sliceDataSize) : sendSlices stream type (fuel + 1) (.ok ()) offset rest k =
      sendSlices stream type fuel (sendSlice stream (rest.take sliceDataSize) offset k).1
        (offset + sliceDataSize) (rest.drop sliceDataSize)
        (sendSlice stream (rest.take sliceDataSize) offset k).2 := by
  rw [sendSlices]
  simp only [Nat.min_eq_right (not_le.mp h).le, if_neg h]

/-- Everything but the last slice. -/
def beforeLast (slices : List (ℕ × Bytes)) : List Bytes := slices.dropLast.flatMap sliceBuffers

/-- The last slice. -/
def lastSlice (slices : List (ℕ × Bytes)) : List Bytes :=
  slices.getLast?.toList.flatMap sliceBuffers

theorem slices_ne_nil {fuel offset : ℕ} {rest : Bytes} (h : fuel ≠ 0) :
    slices fuel offset rest ≠ [] := by
  cases fuel with
  | zero => exact absurd rfl h
  | succ fuel =>
    unfold slices
    split_ifs <;> exact List.cons_ne_nil _ _

theorem beforeLast_cons {slice : ℕ × Bytes} {slices : List (ℕ × Bytes)} (h : slices ≠ []) :
    beforeLast (slice :: slices) = sliceBuffers slice ++ beforeLast slices := by
  simp only [beforeLast, List.dropLast_cons_of_ne_nil h, List.flatMap_cons]

theorem lastSlice_cons {slice : ℕ × Bytes} {slices : List (ℕ × Bytes)} (h : slices ≠ []) :
    lastSlice (slice :: slices) = lastSlice slices := by
  simp only [lastSlice, List.getLast?_cons_of_ne_nil h]

theorem beforeLast_append_lastSlice (slices : List (ℕ × Bytes)) :
    beforeLast slices ++ lastSlice slices = slices.flatMap sliceBuffers := by
  rw [beforeLast, lastSlice, ← List.flatMap_append]
  cases h : slices.getLast? with
  | none =>
    obtain rfl := List.getLast?_eq_none_iff.mp h
    rfl
  | some last => rw [Option.toList_some, List.dropLast_append_getLast? last h]

/-- **The slices of a transfer.** An error before the last slice is reported; that of the last one
is not. -/
theorem sendSlices_cases (type : BitVec 32) : ∀ (fuel offset : ℕ) (rest : Bytes) (k : Sink σ),
    rest ≠ [] → rest.length ≤ fuel →
      (∃ t sent, TakesAll stream k.state (beforeLast (slices fuel offset rest)) t ∧
        Sends stream (lastSlice (slices fuel offset rest)) { k with
          state := t
          taken := k.taken ++ (beforeLast (slices fuel offset rest)).flatten } sent ∧
        sendSlices stream type fuel (.ok ()) offset rest k = (.ok (), sent.2)) ∨
      (∀ t, ¬TakesAll stream k.state (beforeLast (slices fuel offset rest)) t) ∧
        (∃ e, (sendSlices stream type fuel (.ok ()) offset rest k).1 = .error e) ∧
        (sendSlices stream type fuel (.ok ()) offset rest k).2.failed = true := by
  intro fuel
  induction fuel with
  | zero =>
    intro offset rest k hne hlen
    exact absurd (List.length_eq_zero_iff.mp (Nat.le_zero.mp hlen)) hne
  | succ fuel ih =>
    intro offset rest k hne hlen
    by_cases hlast : rest.length ≤ sliceDataSize
    · have hsize : rest.length < 2 ^ 31 := lt_of_le_of_lt hlast (by decide)
      rw [slices_last hlast, sendSlices_last hlast]
      refine .inl ⟨k.state, sendSlice stream rest offset k, .nil _, ?_, rfl⟩
      simpa [beforeLast, lastSlice] using sendSlice_sends hsize offset k
    · have hsize : (rest.take sliceDataSize).length < 2 ^ 31 :=
        lt_of_le_of_lt (List.length_take_le _ _) (by decide)
      have hpos : 0 < sliceDataSize := by decide
      have hfuel : fuel ≠ 0 := by omega
      have hrest : rest.drop sliceDataSize ≠ [] := by
        rw [ne_eq, List.drop_eq_nil_iff]
        exact hlast
      have hlen' : (rest.drop sliceDataSize).length ≤ fuel := by
        rw [List.length_drop]
        omega
      have hslices : slices fuel (offset + sliceDataSize) (rest.drop sliceDataSize) ≠ [] :=
        slices_ne_nil hfuel
      rw [slices_more hlast, beforeLast_cons hslices, lastSlice_cons hslices,
        sendSlices_more hlast]
      obtain ⟨t, htakes, hsent⟩ | ⟨hnot, ⟨e, he⟩, hfailed⟩ := sendSlice_sends hsize offset k
      · rw [hsent]
        obtain ⟨u, sent, htakes', hsends, hloop⟩ | ⟨hnot, hloop⟩ :=
          ih (offset + sliceDataSize) (rest.drop sliceDataSize) { k with
            state := t
            taken := k.taken ++ (sliceBuffers (offset, rest.take sliceDataSize)).flatten }
            hrest hlen'
        · refine .inl ⟨u, sent, takesAll_append.mpr ⟨t, htakes, htakes'⟩, ?_, hloop⟩
          simpa only [List.flatten_append, List.append_assoc] using hsends
        · refine .inr ⟨fun u h => ?_, hloop⟩
          obtain ⟨t', htakes', hrest'⟩ := takesAll_append.mp h
          exact hnot u (htakes.unique htakes' ▸ hrest')
      · obtain ⟨fuel, rfl⟩ := Nat.exists_eq_succ_of_ne_zero hfuel
        rw [he]
        obtain ⟨herror, hfailed'⟩ := sendSlices_error type fuel (offset + sliceDataSize)
          (rest.drop sliceDataSize) e hfailed
        refine .inr ⟨fun u h => ?_, ⟨e, herror⟩, hfailed'⟩
        obtain ⟨t, htakes, -⟩ := takesAll_append.mp h
        exact hnot t htakes

/-! ## Successful sends -/

/-- The slices of a payload. -/
def payloadSlices (payload : Bytes) : List (ℕ × Bytes) := slices payload.length 0 payload

/-- The header of a message that is sent in slices. -/
def transferHeader (type : BitVec 32) (payload : Bytes) : MessageHeader :=
  ⟨BitVec.ofNat 32 payload.length, type, MessageType.sliceHeader.code⟩

/-- The header of a message that is sent as one. -/
def completeHeader (type : BitVec 32) (payload : Bytes) : MessageHeader :=
  ⟨BitVec.ofNat 32 payload.length, type, MessageType.complete.code⟩

/-- The bytes of a message: its header and its payload, each slice of it behind its own header. -/
def wire (sliced : Bool) (type : BitVec 32) (payload : Bytes) : Bytes :=
  if sliced then (transferHeader type payload).bytes ++
    ((payloadSlices payload).flatMap sliceBuffers).flatten
  else (completeHeader type payload).bytes ++ payload

/-- The buffers of a transfer before its last slice. -/
def transferStart (type : BitVec 32) (payload : Bytes) : List Bytes :=
  (transferHeader type payload).bytes :: beforeLast (payloadSlices payload)

theorem wire_sliced (type : BitVec 32) (payload : Bytes) : wire true type payload =
    (transferStart type payload).flatten ++ (lastSlice (payloadSlices payload)).flatten := by
  rw [transferStart, List.flatten_cons, List.append_assoc, ← List.flatten_append,
    beforeLast_append_lastSlice]
  rfl

/-- A stream that takes the last slice, if it has taken all before it. -/
def TakesLastSlice (stream : Stream σ) (type : BitVec 32) (payload : Bytes) (s : σ) : Prop :=
  ∀ t, TakesAll stream s (transferStart type payload) t →
    ∃ u, TakesAll stream t (lastSlice (payloadSlices payload)) u

/-- **A sliced send.** -/
theorem sendSliced_cases (type : BitVec 32) {payload : Bytes} (hne : payload ≠ []) (k : Sink σ) :
    (∃ t sent, TakesAll stream k.state (transferStart type payload) t ∧
      Sends stream (lastSlice (payloadSlices payload)) { k with
        state := t
        taken := k.taken ++ (transferStart type payload).flatten } sent ∧
      sendSliced stream type payload k = (.ok (), sent.2)) ∨
    (∀ t, ¬TakesAll stream k.state (transferStart type payload) t) ∧
      (∃ e, (sendSliced stream type payload k).1 = .error e) ∧
      (sendSliced stream type payload k).2.failed = true := by
  have hheader : Sends stream [(transferHeader type payload).bytes] k
      (sendRaw stream (transferHeader type payload).bytes k) :=
    sendRaw_sends (by rw [MessageHeader.length_bytes]; decide) k
  have hstep : sendSliced stream type payload k = sendSlices stream type payload.length
      (sendRaw stream (transferHeader type payload).bytes k).1 0 payload
      (sendRaw stream (transferHeader type payload).bytes k).2 := rfl
  rw [hstep]
  obtain ⟨t, htakes, hsent⟩ | ⟨hnot, ⟨e, he⟩, hfailed⟩ := hheader
  · rw [hsent]
    obtain ⟨u, sent, htakes', hsends, hloop⟩ | ⟨hnot, hloop⟩ :=
      sendSlices_cases type payload.length 0 payload { k with
        state := t
        taken := k.taken ++ [(transferHeader type payload).bytes].flatten } hne le_rfl
    · refine .inl ⟨u, sent, .cons (takesAll_singleton.mp htakes) htakes', ?_, hloop⟩
      simpa only [transferStart, payloadSlices, List.flatten_cons, List.flatten_nil,
        List.append_nil, List.append_assoc] using hsends
    · refine .inr ⟨fun u h => ?_, hloop⟩
      cases h with
      | cons htakes' hrest => exact hnot u ((takesAll_singleton.mp htakes).unique htakes' ▸ hrest)
  · obtain ⟨n, hn⟩ := Nat.exists_eq_succ_of_ne_zero (mt List.length_eq_zero_iff.mp hne)
    rw [he, hn]
    obtain ⟨herror, hfailed'⟩ := sendSlices_error type n 0 payload e hfailed
    refine .inr ⟨fun u h => ?_, ⟨e, herror⟩, hfailed'⟩
    cases h with
    | cons htakes _ => exact hnot _ (takesAll_singleton.mpr htakes)

/-- A successful send of this message has handed over all of it, and is not reported where a write
failed. -/
def SentWhole (sliced : Bool) (type : BitVec 32) (payload : Option Bytes) (k : Sink σ)
    (result : Except Error Unit) (k' : Sink σ) : Prop :=
  (result = .ok () → ∃ data, payload = some data ∧ k'.taken = k.taken ++ wire sliced type data) ∧
    (k'.failed = true → result ≠ .ok ())

/-- What a send asks of its message and of the stream: in one piece that the size with the header
is one of an `int`, and in slices that the stream takes the last one too. -/
def Sendable (stream : Stream σ) (sliced : Bool) (type : BitVec 32) (payload : Bytes) (s : σ) :
    Prop :=
  if sliced then payload.length < 2 ^ 32 → TakesLastSlice stream type payload s
  else ¬(2 ^ 31 ≤ payload.length + 10 ∧ payload.length + 10 < 2 ^ 32)

/-- A send that fails. -/
theorem sentWhole_error {sliced : Bool} {type : BitVec 32} {payload : Option Bytes} {k k' : Sink σ}
    {e : Error} : SentWhole sliced type payload k (.error e) k' :=
  ⟨nofun, fun _ => nofun⟩

/-- What one send leaves: all of the bytes, or an error where a write failed. -/
theorem ioResult_sentWhole {sliced : Bool} {type : BitVec 32} {payload : Bytes} {k : Sink σ}
    {buffers : List Bytes} {sent : Except IoError Unit × Sink σ} (hk : k.failed = false)
    (hsends : Sends stream buffers k sent) (hwire : buffers.flatten = wire sliced type payload) :
    SentWhole sliced type (some payload) k (ioResult sent).1 (ioResult sent).2 := by
  obtain ⟨t, -, rfl⟩ | ⟨-, ⟨e, he⟩, -⟩ := hsends
  · refine ⟨fun _ => ⟨payload, rfl, by rw [← hwire]; rfl⟩, fun hfailed => ?_⟩
    exact absurd (hk.symm.trans hfailed) Bool.false_ne_true
  · obtain ⟨result, k'⟩ := sent
    obtain rfl : result = .error e := he
    exact sentWhole_error

theorem sendComplete_eq (type : BitVec 32) (payload : Bytes) (k : Sink σ) :
    sendComplete stream type (List.replicate MessageHeader.size 0 ++ payload) k =
      sendRaw stream ((completeHeader type payload).bytes ++ payload) k := by
  have hlen : (List.replicate MessageHeader.size (0 : UInt8) ++ payload).length -
      MessageHeader.size = payload.length := by
    rw [List.length_append, List.length_replicate, Nat.add_sub_cancel_left]
  have hdrop : (List.replicate MessageHeader.size (0 : UInt8) ++ payload).drop
      MessageHeader.size = payload :=
    List.drop_left' (List.length_replicate ..)
  simp only [sendComplete, hlen, hdrop, serializeHeader_eq]
  rfl

theorem length_complete (type : BitVec 32) (payload : Bytes) :
    ((completeHeader type payload).bytes ++ payload).length = payload.length + 10 := by
  rw [List.length_append, MessageHeader.length_bytes, Nat.add_comm]
  rfl

/-- The room that is left for a header is not all of the data. -/
theorem narrow_eq_size {n : ℕ} (h : n < 2 ^ 32) : narrow n = MessageHeader.size ↔ n = 10 := by
  by_cases hlt : n < 2 ^ 31
  · rw [narrow_of_lt hlt]
    exact Int.ofNat_inj
  · have hneg := narrow_neg (not_lt.mp hlt) h
    have hsize : (MessageHeader.size : ℤ) = 10 := rfl
    omega

/-- **A message in one piece.** -/
theorem sendMessage_complete {flag : StreamFlag} (hflag : flag.sliceData = false)
    (type : BitVec 32) {payload : Bytes} (hne : payload ≠ []) {k : Sink σ}
    (hk : k.failed = false) :
    SentWhole flag.sliceData type (some payload) k
        (sendMessage stream flag type (some payload) k).1
        (sendMessage stream flag type (some payload) k).2 ↔
      Sendable stream flag.sliceData type payload k.state := by
  have hlen : (List.replicate MessageHeader.size (0 : UInt8) ++ payload).length =
      payload.length + 10 := by
    rw [List.length_append, List.length_replicate, Nat.add_comm]
    rfl
  have hpos : 0 < payload.length := List.length_pos_iff.mpr hne
  have hdata : List.replicate MessageHeader.size (0 : UInt8) ++ payload ≠ [] :=
    List.append_ne_nil_of_right_ne_nil _ hne
  unfold sendMessage Sendable
  simp only [hflag, serializeMessageData, Bool.not_false, if_true, hlen, true_and, hdata, false_or,
    Bool.false_eq_true, if_false]
  by_cases hlarge : 2 ^ 32 ≤ payload.length + 10
  · rw [if_pos hlarge]
    refine iff_of_true ?_ (by omega)
    split_ifs <;> exact sentWhole_error
  · rw [if_neg (by rw [narrow_eq_size (not_le.mp hlarge)]; omega), if_neg hlarge, sendComplete_eq]
    by_cases hnarrow : 2 ^ 31 ≤ payload.length + 10
    · rw [sendRaw_narrow (by rw [length_complete]; exact hnarrow)
        (by rw [length_complete]; exact not_le.mp hlarge)]
      refine iff_of_false (fun hwhole => ?_) (by omega)
      obtain ⟨data, hdata, htaken⟩ := hwhole.1 rfl
      have hlength := congrArg List.length htaken
      obtain rfl := Option.some.inj hdata
      simp only [ioResult, List.length_append, wire, Bool.false_eq_true, if_false,
        MessageHeader.length_bytes] at hlength
      omega
    · refine iff_of_true ?_ (by omega)
      exact ioResult_sentWhole hk
        (sendRaw_sends (by rw [length_complete]; omega) k) (by simp [wire])

/-- **A message in slices.** -/
theorem sendMessage_sliced {flag : StreamFlag} (hflag : flag.sliceData = true)
    (type : BitVec 32) {payload : Bytes} (hne : payload ≠ []) {k : Sink σ}
    (hk : k.failed = false) :
    SentWhole flag.sliceData type (some payload) k
        (sendMessage stream flag type (some payload) k).1
        (sendMessage stream flag type (some payload) k).2 ↔
      Sendable stream flag.sliceData type payload k.state := by
  unfold sendMessage Sendable
  simp only [hflag, serializeMessageData, Bool.not_true, Bool.false_eq_true, if_false,
    List.nil_append, hne, false_and, or_false, if_true]
  by_cases hlarge : 2 ^ 32 ≤ payload.length
  · rw [if_pos hlarge]
    exact iff_of_true sentWhole_error (by omega)
  rw [if_neg hlarge]
  have hlt : payload.length < 2 ^ 32 := not_le.mp hlarge
  simp only [hlt, forall_const]
  obtain ⟨t, sent, htakes, hsends, hsent⟩ | ⟨hnot, ⟨e, he⟩, hfailed⟩ :=
    sendSliced_cases type hne k
  · rw [hsent]
    obtain ⟨u, hlast, rfl⟩ | ⟨hnot, -, hfailed⟩ := hsends
    · refine iff_of_true ⟨fun _ => ⟨payload, rfl, ?_⟩, fun h => ?_⟩ fun t' htakes' => ⟨u, ?_⟩
      · simp only [ioResult, wire_sliced, List.append_assoc]
      · exact absurd (hk.symm.trans h) Bool.false_ne_true
      · exact htakes.unique htakes' ▸ hlast
    · refine iff_of_false (fun hwhole => hwhole.2 hfailed rfl) fun htakes' => ?_
      obtain ⟨u, hlast⟩ := htakes' t htakes
      exact hnot u hlast
  · refine iff_of_true ?_ fun t htakes => absurd htakes (hnot t)
    generalize sendSliced stream type payload k = sent at he
    obtain ⟨result, k'⟩ := sent
    obtain rfl : result = .error e := he
    exact sentWhole_error

/-- **The message of a send.** -/
theorem sendMessage_iff (stream : Stream σ) (flag : StreamFlag) (type : BitVec 32)
    (payload : Option Bytes) {k : Sink σ} (hk : k.failed = false) :
    SentWhole flag.sliceData type payload k (sendMessage stream flag type payload k).1
        (sendMessage stream flag type payload k).2 ↔
      ∀ data, payload = some data → data ≠ [] →
        Sendable stream flag.sliceData type data k.state := by
  cases payload with
  | none => exact iff_of_true sentWhole_error nofun
  | some data =>
    by_cases hne : data = []
    · subst hne
      refine iff_of_true ?_ fun data hdata hne => absurd (Option.some.inj hdata).symm hne
      cases hflag : flag.sliceData with
      | true =>
        unfold sendMessage
        simp only [hflag]
        exact sentWhole_error
      | false =>
        unfold sendMessage
        simp only [hflag]
        exact sentWhole_error
    · have hmessage : SentWhole flag.sliceData type (some data) k
          (sendMessage stream flag type (some data) k).1
          (sendMessage stream flag type (some data) k).2 ↔
            Sendable stream flag.sliceData type data k.state := by
        cases hflag : flag.sliceData with
        | true => exact hflag ▸ sendMessage_sliced hflag type hne hk
        | false => exact hflag ▸ sendMessage_complete hflag type hne hk
      rw [hmessage]
      constructor
      · rintro h _ hdata -
        exact Option.some.inj hdata ▸ h
      · exact fun h => h data rfl hne

/-- The loop of `_sendRaw` adds to what was taken, and fails where a write fails. -/
theorem sendLoop_grows (data : Bytes) : ∀ (fuel sended : ℕ) (k : Sink σ),
    k.taken <+: (sendLoop stream data fuel sended k).2.taken ∧
      ((sendLoop stream data fuel sended k).1 = .ok () →
        (sendLoop stream data fuel sended k).2.failed = k.failed) := by
  intro fuel
  induction fuel with
  | zero => exact fun _ k => ⟨List.prefix_rfl, fun _ => rfl⟩
  | succ fuel ih =>
    intro sended k
    unfold sendLoop Sink.write
    split_ifs
    · cases stream.write k.state (data.drop sended) with
      | mk result s =>
        cases result with
        | error e => exact ⟨List.prefix_rfl, nofun⟩
        | ok n =>
          cases n with
          | zero => exact ⟨List.prefix_rfl, nofun⟩
          | succ n =>
            obtain ⟨hmore, hfailed⟩ := ih (sended + (n + 1)) { k with
              state := s
              taken := k.taken ++ (data.drop sended).take (n + 1) }
            exact ⟨(List.prefix_append _ _).trans hmore, hfailed⟩
    · exact ⟨List.prefix_rfl, fun _ => rfl⟩

theorem sendRaw_grows (stream : Stream σ) (data : Bytes) (k : Sink σ) :
    k.taken <+: (sendRaw stream data k).2.taken ∧
      ((sendRaw stream data k).1 = .ok () → (sendRaw stream data k).2.failed = k.failed) :=
  sendLoop_grows data _ 0 k

variable {Msg : Type}

/-- The version packet comes before the message. -/
theorem sendFirst_grows (stream : Stream σ) (factory : Option (ProtoFactory Msg))
    (flag : StreamFlag) (k : Sink σ) :
    k.taken <+: (sendFirst stream factory flag k).2.taken ∧
      ((sendFirst stream factory flag k).1 = .ok () →
        (sendFirst stream factory flag k).2.failed = k.failed) := by
  unfold sendFirst sendVersion
  split_ifs
  · simp only
    split_ifs
    · exact ⟨List.prefix_rfl, nofun⟩
    · have hgrows := sendRaw_grows stream (serializeVersionPacket factory) k
      generalize sendRaw stream (serializeVersionPacket factory) k = sent at hgrows ⊢
      obtain ⟨hmore, hfailed⟩ := hgrows
      obtain ⟨result, k'⟩ := sent
      cases result with
      | error e => exact ⟨hmore, nofun⟩
      | ok _ => exact ⟨hmore, fun _ => hfailed rfl⟩
  · exact ⟨List.prefix_rfl, fun _ => rfl⟩

theorem send_of_error {program : Program Msg} {factory : Option (ProtoFactory Msg)}
    {flag : StreamFlag} {message : Option (Proto Msg)} {k k' : Sink σ} {e : Error}
    (h : sendFirst stream factory flag k = (.error e, k')) :
    send stream program factory flag message (some k) = (.error e, some k') := by
  simp only [send, h]

theorem send_of_ok {program : Program Msg} {factory : Option (ProtoFactory Msg)}
    {flag : StreamFlag} {message : Option (Proto Msg)} {k k' : Sink σ}
    (h : sendFirst stream factory flag k = (.ok (), k')) :
    send stream program factory flag message (some k) =
      ((sendMessage stream flag (message.elim (-1) program.type)
        (message.bind program.toData) k').1,
        some (sendMessage stream flag (message.elim (-1) program.type)
          (message.bind program.toData) k').2) := by
  simp only [send, h]

/-- A successful send of a message has handed over, behind the version packet that may come first,
its header and every byte of its payload, and is not reported where a write failed. -/
def HandsOver (stream : Stream σ) (program : Program Msg) (factory : Option (ProtoFactory Msg))
    (flag : StreamFlag) (message : Option (Proto Msg)) (k : Sink σ) : Prop :=
  ∃ k', (send stream program factory flag message (some k)).2 = some k' ∧
    SentWhole flag.sliceData (message.elim (-1) program.type) (message.bind program.toData)
      (sendFirst stream factory flag k).2
      (send stream program factory flag message (some k)).1 k'

/-- **When a successful send is one of the whole message.** -/
theorem send_whole_iff (stream : Stream σ) (program : Program Msg)
    (factory : Option (ProtoFactory Msg)) (flag : StreamFlag) (message : Option (Proto Msg))
    (k : Sink σ) (hk : k.failed = false) :
    HandsOver stream program factory flag message k ↔
      ∀ k', sendFirst stream factory flag k = (.ok (), k') →
        ∀ payload, message.bind program.toData = some payload → payload ≠ [] →
          Sendable stream flag.sliceData (message.elim (-1) program.type) payload k'.state := by
  unfold HandsOver
  obtain ⟨-, hfailed⟩ := sendFirst_grows stream factory flag k
  cases hfirst : sendFirst stream factory flag k with
  | mk result k' =>
    cases result with
    | error e =>
      rw [send_of_error hfirst]
      exact iff_of_true ⟨k', rfl, sentWhole_error⟩ nofun
    | ok _ =>
      rw [hfirst] at hfailed
      have hmessage := sendMessage_iff stream flag (message.elim (-1) program.type)
        (message.bind program.toData) ((hfailed rfl).trans hk : k'.failed = false)
      rw [send_of_ok hfirst]
      constructor
      · rintro ⟨_, hsome, hwhole⟩ _ hsame
        obtain ⟨-, rfl⟩ := Prod.mk.inj hsame
        obtain rfl := Option.some.inj hsome
        exact hmessage.mp hwhole
      · exact fun h => ⟨_, rfl, hmessage.mpr (h k' rfl)⟩

end

/-! ## Counted writes -/

/-- A stream that takes what it is given for so many writes, and fails then. -/
def countedStream : Stream ℕ where
  write
    | 0, _ => (.error (.other 0), 0)
    | n + 1, bytes => (.ok bytes.length, n)
  write_le := by
    intro s bytes n h
    cases s with
    | zero => cases h
    | succ s => exact (Except.ok.inj h).ge

theorem countedStream_takes {bytes : Bytes} (hne : bytes ≠ []) (n : ℕ) :
    Takes countedStream (n + 1) bytes n := by
  obtain ⟨size, hsize⟩ := Nat.exists_eq_succ_of_ne_zero (mt List.length_eq_zero_iff.mp hne)
  have hwrite : countedStream.write (n + 1) bytes = (.ok (size + 1), n) :=
    Prod.ext (congrArg Except.ok hsize) rfl
  refine .write hne hwrite ?_
  rw [show size + 1 = bytes.length from hsize.symm, List.drop_length]
  exact .nil n

/-- It takes as many buffers as it takes writes. -/
theorem countedStream_takesAll : ∀ {buffers : List Bytes}, (∀ buffer ∈ buffers, buffer ≠ []) →
    ∀ n, TakesAll countedStream (n + buffers.length) buffers n := by
  intro buffers
  induction buffers with
  | nil => exact fun _ n => .nil n
  | cons buffer buffers ih =>
    intro hne n
    obtain ⟨hbuffer, hbuffers⟩ := List.forall_mem_cons.mp hne
    exact .cons (countedStream_takes hbuffer _) (ih hbuffers n)

theorem blobProgram_toData (bytes : Bytes) : blobProgram.toData (.declared bytes) = some bytes :=
  rfl

/-- More than one slice takes. -/
def longPayload : Bytes := List.replicate 2000 7

/-- Its two slices. -/
theorem payloadSlices_long : payloadSlices longPayload =
    [(0, List.replicate 1190 7), (1190, List.replicate 810 7)] := by
  have hlong : longPayload.length = 1999 + 1 := List.length_replicate ..
  have hmore : ¬longPayload.length ≤ sliceDataSize := by rw [hlong]; decide
  have hlast : (longPayload.drop sliceDataSize).length ≤ sliceDataSize := by
    rw [List.length_drop, hlong]
    decide
  have hslices : slices (1999 + 1) 0 longPayload = _ := slices_more hmore
  rw [slices_last hlast] at hslices
  rw [payloadSlices, hlong, hslices, longPayload, List.take_replicate, List.drop_replicate]
  rfl

/-- Two slices, to a stream that takes the five writes. -/
theorem send_whole_twoSlices :
    (send countedStream blobProgram (some blobFactory) { sliceData := true }
      (some (.declared longPayload)) (some { state := 5 })).1 = .ok () ∧
    HandsOver countedStream blobProgram (some blobFactory) { sliceData := true }
      (some (.declared longPayload)) { state := 5 } := by
  have hlengths : (transferStart 65 longPayload ++ lastSlice (payloadSlices longPayload)).map
      List.length = [10, 10, 1190, 10, 810] := by
    rw [transferStart, List.cons_append, beforeLast_append_lastSlice, payloadSlices_long]
    simp only [sliceBuffers, List.flatMap_cons, List.flatMap_nil, List.cons_append,
      List.nil_append, List.map_cons, List.map_nil, MessageHeader.length_bytes,
      length_serializeHeader, List.length_replicate]
    rfl
  have hbuffers : ∀ buffer ∈ transferStart 65 longPayload ++
      lastSlice (payloadSlices longPayload), buffer ≠ [] := by
    rintro buffer hmem rfl
    have hzero : 0 ∈ [10, 10, 1190, 10, 810] := hlengths ▸ List.mem_map_of_mem hmem
    exact absurd hzero (by decide)
  have htakes : TakesAll countedStream 5 (transferStart 65 longPayload ++
      lastSlice (payloadSlices longPayload)) 0 := by
    have hcount : (transferStart 65 longPayload ++
        lastSlice (payloadSlices longPayload)).length = 5 :=
      List.length_map _ ▸ congrArg List.length hlengths
    have hall := countedStream_takesAll hbuffers 0
    rw [hcount, Nat.zero_add] at hall
    exact hall
  obtain ⟨t, hstart, hlast⟩ := takesAll_append.mp htakes
  have hne : longPayload ≠ [] := List.cons_ne_nil _ _
  have hlong : longPayload.length = 2000 := List.length_replicate ..
  have hsize : ¬2 ^ 32 ≤ longPayload.length := hlong ▸ (by decide : ¬2 ^ 32 ≤ 2000)
  constructor
  · have hfirst : sendFirst countedStream (some blobFactory) { sliceData := true } { state := 5 } =
        (.ok (), { state := 5 }) := rfl
    simp only [send_of_ok hfirst, Option.elim_some, Option.bind_some, blobProgram_toData,
      sendMessage, serializeMessageData, Bool.not_true, Bool.false_eq_true, if_false, if_true,
      List.nil_append, hne, false_and, or_false, hsize]
    have hcases := @sendSliced_cases _ countedStream (blobProgram.type (.declared longPayload)) _
      hne { state := 5 }
    obtain ⟨t', sent, -, -, hsent⟩ | ⟨hnot, -⟩ := hcases
    · rw [hsent]
      rfl
    · exact absurd hstart (hnot t)
  · refine (send_whole_iff countedStream blobProgram (some blobFactory) { sliceData := true }
      (some (.declared longPayload)) { state := 5 } rfl).mpr ?_
    rintro k' hfirst payload hpayload -
    obtain rfl := Option.some.inj hpayload
    obtain ⟨-, rfl⟩ := Prod.mk.inj hfirst
    exact fun _ t' hstart' => ⟨0, hstart.unique hstart' ▸ hlast⟩

/-- **A byte in slices**, to a stream that takes the `SliceHeader` and fails then: the send is
reported as a success. -/
theorem send_whole_fails :
    (send countedStream blobProgram (some blobFactory) { sliceData := true }
      (some (.declared [7])) (some { state := 1 })).1 = .ok () ∧
    ¬HandsOver countedStream blobProgram (some blobFactory) { sliceData := true }
      (some (.declared [7])) { state := 1 } := by
  refine ⟨rfl, ?_⟩
  rintro ⟨k', hk', -, hfailed⟩
  obtain rfl := Option.some.inj hk'
  exact hfailed rfl rfl

end NekoProto.Communication
