import Mathlib.Data.Finset.Card
import Mathlib.Data.Int.ConditionallyCompleteOrder
import Mathlib.Data.Int.Interval
import NekoProto.Communication.Receive

/-!
# Slices from any peer

What the slices of a transfer write, and when a sliced message is handed on. The client checks a
slice in a debug build only, and counts bytes instead of positions; what it relies on is a peer
whose slices lie inside the announced buffer and apart from each other, and that finishes or
cancels a transfer before it announces the next.

1. A watcher of the messages notes what was announced and which positions were written since
   (`Watched`).
2. If every message is orderly (`Orderly`), then in a transfer the buffer is the announced one and
   no more bytes are counted than positions were written, none twice (`run_inv`).
3. So every slice writes inside the buffer, and the count is complete only if each position was
   written once (`slices_safe`).
-/

namespace NekoProto.Communication

open Binary

/-! ## Positions -/

section

variable {n : ℕ} {xs : List ℤ}

theorem subset_Ico (hinside : ∀ p ∈ xs, 0 ≤ p ∧ p < n) : xs.toFinset ⊆ Finset.Ico (0 : ℤ) n :=
  fun p hp => Finset.mem_Ico.mpr (hinside p (List.mem_toFinset.mp hp))

/-- No more positions than there are, if none stands twice. -/
theorem length_le_of_inside (hnodup : xs.Nodup) (hinside : ∀ p ∈ xs, 0 ≤ p ∧ p < n) :
    xs.length ≤ n := by
  have := Finset.card_le_card (subset_Ico hinside)
  rw [List.toFinset_card_of_nodup hnodup, Int.card_Ico] at this
  omega

/-- As many positions as there are, if none stands twice: each stands once. -/
theorem count_eq_one (hnodup : xs.Nodup) (hinside : ∀ p ∈ xs, 0 ≤ p ∧ p < n)
    (hlen : n ≤ xs.length) {p : ℕ} (hp : p < n) : xs.count (p : ℤ) = 1 := by
  have hcard : (Finset.Ico (0 : ℤ) n).card ≤ xs.toFinset.card := by
    rw [List.toFinset_card_of_nodup hnodup, Int.card_Ico]
    omega
  have hall := Finset.eq_of_subset_of_card_le (subset_Ico hinside) hcard
  have hmem : (p : ℤ) ∈ xs.toFinset := by
    rw [hall]
    exact Finset.mem_Ico.mpr ⟨Int.natCast_nonneg p, Int.ofNat_lt.mpr hp⟩
  exact List.count_eq_one_of_mem hnodup (List.mem_toFinset.mp hmem)

end

/-- The positions of so many bytes from an offset on. -/
def positions (offset : ℤ) (size : ℕ) : List ℤ :=
  (List.range size).map fun i : ℕ => offset + (i : ℤ)

@[simp] theorem length_positions (offset : ℤ) (size : ℕ) :
    (positions offset size).length = size := by
  simp [positions]

theorem mem_positions {offset p : ℤ} {size : ℕ} :
    p ∈ positions offset size ↔ offset ≤ p ∧ p < offset + size := by
  unfold positions
  rw [List.mem_map]
  constructor
  · rintro ⟨i, hi, rfl⟩
    have := List.mem_range.mp hi
    omega
  · rintro ⟨h₁, h₂⟩
    exact ⟨(p - offset).toNat, List.mem_range.mpr (by omega), by omega⟩

theorem nodup_positions (offset : ℤ) (size : ℕ) : (positions offset size).Nodup := by
  refine List.Nodup.map (fun i j h => ?_) List.nodup_range
  omega

/-! ## Watching the messages -/

/-- A sliced transfer: its announced length and the positions that were written since. -/
structure Transfer where
  announced : ℕ
  written : List ℤ

/-- A client, its stream, and the transfer in progress. -/
structure Watched (Msg : Type) where
  client : Client Msg
  rest : Incoming
  transfer : Option Transfer

section

variable {Msg : Type} (program : Program Msg)

/-- The positions that a `Slice` with this header writes, counted from the start of `mBuffer`. -/
def slicePositions (header : MessageHeader) (s : Incoming) : List ℤ :=
  positions header.data.toInt (recvRaw header.length.toNat s).got.length

/-- A `Slice` with this header is read to its end and with it the message is handed on. -/
def delivers (flag : StreamFlag) (c : Client Msg) (header : MessageHeader) (s : Incoming) : Bool :=
  (recvRaw header.length.toNat s).result.isOk &&
    (recvMessage program flag { c with header := header } s).result.isSome

/-- The transfer after a message. -/
def Watched.transferAfter (w : Watched Msg) (flag : StreamFlag)
    (header : MessageHeader) (s : Incoming) : Option Transfer :=
  match MessageType.ofCode header.messageType with
  | some .sliceHeader => some ⟨header.length.toNat, []⟩
  | some .slice =>
    if delivers program flag w.client header s then none
    else w.transfer.map fun t => { t with written := t.written ++ slicePositions header s }
  | some _ => none
  | none => w.transfer

/-- A turn of `recv`. -/
def Watched.turn (w : Watched Msg) (flag : StreamFlag) : Watched Msg where
  client := (recvTurn program flag w.client w.rest).client
  rest := (recvTurn program flag w.client w.rest).rest
  transfer :=
    match nextMessage w.rest with
    | some (header, s) => w.transferAfter program flag header s
    | none => w.transfer

/-- `setStreamClient`. -/
def Client.setStreamClient (c : Client Msg) (reconnect : Bool) : Client Msg :=
  if reconnect then c
  else { c with header := {}, message := none, sliceSizeCount := 0, buffer := [] }

/-- `setProtoTable`. -/
def Client.setProtoTable (c : Client Msg) (table : ProtocolTable) : Client Msg :=
  { c with protocolTable := table }

/-- The states that a client gets into, calling `recv` and changing its stream or its table, if
every message it takes meets a condition. -/
inductive Run (P : Watched Msg → Prop) : Watched Msg → Prop
  | start (factory : Option (ProtoFactory Msg)) (s : Incoming) :
    Run P ⟨{ factory := factory }, s, none⟩
  | turn {w : Watched Msg} (flag : StreamFlag) : Run P w → P w → Run P (w.turn program flag)
  | setStreamClient {w : Watched Msg} (s : Incoming) (reconnect : Bool) : Run P w →
    Run P ⟨w.client.setStreamClient reconnect, s, if reconnect then w.transfer else none⟩
  | setProtoTable {w : Watched Msg} (table : ProtocolTable) : Run P w →
    Run P { w with client := w.client.setProtoTable table }

/-- A slice of this transfer that lies inside the announced buffer, does not touch what was
written, and is not too long for `_recvRaw`. -/
structure Transfer.Fits (t : Transfer) (header : MessageHeader) : Prop where
  nonneg : 0 ≤ header.data.toInt
  inside : header.data.toInt + header.length.toNat ≤ t.announced
  short : header.length.toNat < 2 ^ 31
  apart : ∀ p ∈ t.written, ¬(header.data.toInt ≤ p ∧ p < header.data.toInt + header.length.toNat)

/-- The next message is one that the client can take: a `SliceHeader` while no slice is counted, a
`Slice` that fits into the transfer in progress, or another message. -/
structure Orderly (w : Watched Msg) : Prop where
  sliceHeader : ∀ header s, nextMessage w.rest = some (header, s) →
    MessageType.ofCode header.messageType = some .sliceHeader → w.client.sliceSizeCount = 0
  slice : ∀ header s, nextMessage w.rest = some (header, s) →
    MessageType.ofCode header.messageType = some .slice → ∃ t, w.transfer = some t ∧ t.Fits header

theorem orderly_sliceHeader {w : Watched Msg} {header : MessageHeader} {s : Incoming}
    (hmessage : nextMessage w.rest = some (header, s))
    (htype : MessageType.ofCode header.messageType = some .sliceHeader)
    (h : w.client.sliceSizeCount = 0) : Orderly w := by
  refine ⟨fun _ _ _ _ => h, fun header' s' hmessage' htype' => ?_⟩
  obtain ⟨rfl, -⟩ := Prod.mk.inj (Option.some.inj (hmessage'.symm.trans hmessage))
  cases htype.symm.trans htype'

theorem orderly_slice {w : Watched Msg} {header : MessageHeader} {s : Incoming} {t : Transfer}
    (hmessage : nextMessage w.rest = some (header, s))
    (htype : MessageType.ofCode header.messageType = some .slice)
    (ht : w.transfer = some t) (h : t.Fits header) : Orderly w := by
  refine ⟨fun header' s' hmessage' htype' => ?_, fun header' s' hmessage' _ => ⟨t, ht, ?_⟩⟩
  · obtain ⟨rfl, -⟩ := Prod.mk.inj (Option.some.inj (hmessage'.symm.trans hmessage))
    cases htype.symm.trans htype'
  · obtain ⟨rfl, -⟩ := Prod.mk.inj (Option.some.inj (hmessage'.symm.trans hmessage))
    exact h

/-- The next message, if it is a `Slice`, writes inside the buffer that was announced, and the
message is handed on only with every position written once. -/
def SliceSafe (w : Watched Msg) (flag : StreamFlag) : Prop :=
  ∀ header s, nextMessage w.rest = some (header, s) →
    MessageType.ofCode header.messageType = some .slice →
      ∃ t, w.transfer = some t ∧ w.client.buffer.length = t.announced ∧
        (∀ p ∈ slicePositions header s, 0 ≤ p ∧ p < t.announced) ∧
        (recvTurn program flag w.client w.rest).result ≠ some (.fault .outOfBounds) ∧
        (delivers program flag w.client header s = true → ∀ p : ℕ, p < t.announced →
          (t.written ++ slicePositions header s).count (p : ℤ) = 1)

end

/-! ## The invariant -/

section

variable {Msg : Type} {program : Program Msg}

/-- In a transfer the buffer is the announced one, and no more bytes are counted than positions
were written, none of them twice. -/
structure Transfer.Inv (t : Transfer) (c : Client Msg) : Prop where
  buffer : c.buffer.length = t.announced
  announced : t.announced < 2 ^ 32
  nodup : t.written.Nodup
  inside : ∀ p ∈ t.written, 0 ≤ p ∧ p < t.announced
  count : c.sliceSizeCount.toNat ≤ t.written.length

/-- The invariant of the transfer in progress. -/
def Watched.Inv (w : Watched Msg) : Prop := ∀ t, w.transfer = some t → t.Inv w.client

/-- A slice that fits is read into the buffer: what `recvSlice` does with it. -/
structure Transfer.Stored (t : Transfer) (c : Client Msg) (s : Incoming) (buffer : Bytes) :
    Prop where
  store : Communication.store c.buffer c.header.data.toInt
    (recvRaw c.header.length.toNat s).got = some buffer
  inv : (⟨t.announced, t.written ++ slicePositions c.header s⟩ : Transfer).Inv
    { c with buffer := buffer }

theorem Transfer.Fits.got_le {t : Transfer} {header : MessageHeader} (h : t.Fits header)
    (s : Incoming) : (recvRaw header.length.toNat s).got.length ≤ header.length.toNat :=
  recvRaw_le (lt_trans h.short (by norm_num)) s

/-- **A slice that fits** keeps the invariant, however much of it arrives. -/
theorem Transfer.Fits.stored {t : Transfer} {c : Client Msg} (h : t.Fits c.header)
    (hinv : t.Inv c) (s : Incoming) : ∃ buffer, t.Stored c s buffer := by
  have hgot := h.got_le s
  have hnonneg := h.nonneg
  have hinside := h.inside
  have hbuffer := hinv.buffer
  obtain ⟨buffer, hstore⟩ := store_isSome c.buffer (recvRaw c.header.length.toNat s).got
    ⟨hnonneg, show c.header.data.toInt + _ ≤ _ by omega⟩
  refine ⟨buffer, hstore, (store_length hstore).trans hbuffer, hinv.announced, ?_, ?_, ?_⟩
  · refine List.nodup_append'.mpr ⟨hinv.nodup, nodup_positions _ _, ?_⟩
    intro p hp hslice
    obtain ⟨hle, hlt⟩ := mem_positions.mp hslice
    exact h.apart p hp ⟨hle, by omega⟩
  · intro p hp
    obtain hp | hp := List.mem_append.mp hp
    · exact hinv.inside p hp
    · obtain ⟨hle, hlt⟩ := mem_positions.mp hp
      simp only
      omega
  · rw [List.length_append]
    exact hinv.count.trans (Nat.le_add_right _ _)

theorem Transfer.Fits.sliceFits {t : Transfer} {c : Client Msg} (h : t.Fits c.header)
    (hinv : t.Inv c) : sliceFits c := by
  have hinside := h.inside
  have hnonneg := h.nonneg
  have hannounced := hinv.announced
  have hdata : c.header.data.toInt = c.header.data.toNat := by
    have hlt := c.header.data.isLt
    rw [BitVec.toInt_eq_toNat_cond] at hnonneg ⊢
    split_ifs at hnonneg ⊢ with hsign
    · rfl
    · omega
  unfold Communication.sliceFits
  rw [BitVec.toNat_add, hinv.buffer, Nat.mod_eq_of_lt (by omega)]
  omega

/-- The count behind a slice that was read to its end. -/
theorem Transfer.Stored.count_toNat {t : Transfer} {c : Client Msg} {s : Incoming} {buffer : Bytes}
    (h : t.Stored c s buffer) (hinv : t.Inv c) (hfits : t.Fits c.header)
    (hread : (recvRaw c.header.length.toNat s).result = .ok ()) :
    (c.sliceSizeCount + c.header.length).toNat ≤
      (t.written ++ slicePositions c.header s).length := by
  have hfull := recvRaw_full hfits.short hread
  have hlen : (t.written ++ slicePositions c.header s).length ≤ t.announced :=
    length_le_of_inside h.inv.nodup h.inv.inside
  have hcount := hinv.count
  have hannounced := hinv.announced
  rw [List.length_append, slicePositions, length_positions, hfull] at hlen ⊢
  rw [BitVec.toNat_add, Nat.mod_eq_of_lt (by omega)]
  omega

/-- What becomes of a `Slice` that fits: the stream fails, the transfer goes on, or its count is
complete. -/
theorem Transfer.Fits.recvSlice_cases {t : Transfer} {c : Client Msg} (h : t.Fits c.header)
    (hinv : t.Inv c) (program : Program Msg) (flag : StreamFlag) (s : Incoming) :
    ∃ buffer, t.Stored c s buffer ∧
      ((∃ e, (recvRaw c.header.length.toNat s).result = .error e ∧
        recvSlice program flag c s = ⟨some (.error (.io e)), { c with buffer := buffer },
          (recvRaw c.header.length.toNat s).rest⟩) ∨
      (recvRaw c.header.length.toNat s).result = .ok () ∧
        ((c.sliceSizeCount + c.header.length).toNat ≠ buffer.length ∧
          recvSlice program flag c s = ⟨none, { c with
            buffer := buffer
            sliceSizeCount := c.sliceSizeCount + c.header.length },
              (recvRaw c.header.length.toNat s).rest⟩ ∨
        (c.sliceSizeCount + c.header.length).toNat = buffer.length ∧
          recvSlice program flag c s = complete program flag { c with
            buffer := buffer
            sliceSizeCount := 0 } (recvRaw c.header.length.toNat s).rest)) := by
  obtain ⟨buffer, hstored⟩ := h.stored hinv s
  refine ⟨buffer, hstored, ?_⟩
  unfold recvSlice
  rw [if_neg (fun hassert => hassert.2 (h.sliceFits hinv))]
  simp only [hstored.store]
  cases hread : (recvRaw c.header.length.toNat s).result with
  | error e => exact .inl ⟨e, rfl, rfl⟩
  | ok _ =>
    refine .inr ⟨rfl, ?_⟩
    by_cases hcount : (c.sliceSizeCount + c.header.length).toNat = buffer.length
    · exact .inr ⟨hcount, if_pos hcount⟩
    · exact .inl ⟨hcount, if_neg hcount⟩

/-! ## Runs -/

theorem Transfer.Inv.of_eq {t : Transfer} {c c' : Client Msg} (h : t.Inv c)
    (hbuffer : c'.buffer = c.buffer) (hcount : c'.sliceSizeCount = c.sliceSizeCount) : t.Inv c' :=
  ⟨hbuffer ▸ h.buffer, h.announced, h.nodup, h.inside, hcount ▸ h.count⟩

/-- A `SliceHeader` starts a transfer. -/
theorem recvSliceHeader_inv {c : Client Msg} (h : c.sliceSizeCount = 0) (s : Incoming) :
    (⟨c.header.length.toNat, []⟩ : Transfer).Inv (recvSliceHeader c s).client := by
  have hclient : (recvSliceHeader c s).client = { c with
      message := createProto c c.header.data
      buffer := resize c.header.length.toNat c.buffer } := by
    unfold recvSliceHeader
    cases createProto c c.header.data <;> rfl
  rw [hclient]
  refine ⟨length_resize _ _, c.header.length.isLt, List.nodup_nil, nofun, ?_⟩
  rw [h]
  exact Nat.le_refl 0

/-- The transfer that a `Slice` leaves. -/
theorem recvSlice_inv {t t' : Transfer} {c : Client Msg} {flag : StreamFlag} {s : Incoming}
    (h : t.Fits c.header) (hinv : t.Inv c)
    (ht' : t' = ⟨t.announced, t.written ++ slicePositions c.header s⟩)
    (hopen : ((recvRaw c.header.length.toNat s).result.isOk &&
      (recvSlice program flag c s).result.isSome) = false) :
    t'.Inv (recvSlice program flag c s).client := by
  subst ht'
  obtain ⟨buffer, hstored, ⟨e, -, hslice⟩ | ⟨hread, ⟨-, hslice⟩ | ⟨-, hslice⟩⟩⟩ :=
    h.recvSlice_cases hinv program flag s
  · rw [hslice]
    exact hstored.inv.of_eq rfl rfl
  · rw [hslice]
    exact ⟨hstored.inv.buffer, hstored.inv.announced, hstored.inv.nodup, hstored.inv.inside,
      hstored.count_toNat hinv h hread⟩
  · rw [hread, hslice] at hopen
    cases hopen

/-- **A turn** on an orderly message keeps the invariant. -/
theorem Watched.turn_inv {w : Watched Msg} (hinv : w.Inv) (h : Orderly w) (flag : StreamFlag) :
    (w.turn program flag).Inv := by
  intro t' ht'
  simp only [Watched.turn] at ht' ⊢
  cases hmessage : nextMessage w.rest with
  | none =>
    simp only [hmessage] at ht'
    rw [(recvTurn_of_none program flag w.client hmessage).2]
    exact (hinv t' ht').of_eq rfl rfl
  | some message =>
    obtain ⟨header, s⟩ := message
    simp only [hmessage] at ht'
    rw [recvTurn_of_message program flag w.client hmessage]
    unfold Watched.transferAfter at ht'
    unfold recvMessage
    cases htype : MessageType.ofCode header.messageType with
    | none =>
      simp only [htype] at ht' ⊢
      exact (hinv t' ht').of_eq rfl rfl
    | some type =>
      cases type with
      | cancel => simp only [htype] at ht'; cases ht'
      | complete => simp only [htype] at ht'; cases ht'
      | versionVerification => simp only [htype] at ht'; cases ht'
      | sliceHeader =>
        simp only [htype] at ht' ⊢
        obtain rfl := Option.some.inj ht'
        exact recvSliceHeader_inv (c := { w.client with header := header })
          (h.sliceHeader header s hmessage htype) s
      | slice =>
        simp only [htype] at ht' ⊢
        obtain ⟨t, ht, hfits⟩ := h.slice header s hmessage htype
        split_ifs at ht' with hdelivers
        obtain ⟨_, hsome, rfl⟩ := Option.map_eq_some_iff.mp ht'
        obtain rfl := Option.some.inj (ht.symm.trans hsome)
        refine recvSlice_inv (c := { w.client with header := header }) hfits
          ((hinv t ht).of_eq rfl rfl) rfl ?_
        simpa only [delivers, recvMessage, htype, Bool.not_eq_true] using hdelivers

/-- **The invariant of a run.** -/
theorem run_inv {w : Watched Msg} (h : Run program Orderly w) : w.Inv := by
  induction h with
  | start factory s => exact nofun
  | turn flag _ horderly ih => exact Watched.turn_inv ih horderly flag
  | setStreamClient s reconnect _ ih =>
    intro t ht
    cases reconnect with
    | false => cases ht
    | true => exact ih t ht
  | setProtoTable table _ ih => exact fun t ht => (ih t ht).of_eq rfl rfl

/-- What is handed on was not written outside of the buffer. -/
theorem complete_result (flag : StreamFlag) (c : Client Msg) (s : Incoming) :
    (complete program flag c s).result ≠ some (.fault .outOfBounds) := by
  unfold complete finishMessage unknownMessage
  intro h
  split at h
  · split_ifs at h
    · split at h <;> cases h
    · cases h
  · split at h <;> cases h

/-- **Slices are safe** as long as every message is orderly: a slice is written inside the
announced buffer, and what is handed on was written once, position by position. -/
theorem slices_safe {w : Watched Msg} (hrun : Run program Orderly w) (h : Orderly w)
    (flag : StreamFlag) : SliceSafe program w flag := by
  intro header s hmessage hslice
  obtain ⟨t, ht, hfits⟩ := h.slice header s hmessage hslice
  have hinv : t.Inv { w.client with header := header } := (run_inv hrun t ht).of_eq rfl rfl
  obtain ⟨buffer, hstored, hcases⟩ := Transfer.Fits.recvSlice_cases
    (c := { w.client with header := header }) hfits hinv program flag s
  have hinside : ∀ p ∈ slicePositions header s, 0 ≤ p ∧ p < t.announced :=
    fun p hp => hstored.inv.inside p (List.mem_append_right _ hp)
  refine ⟨t, ht, hinv.buffer, hinside, ?_, fun hdelivers p hp => ?_⟩
  · rw [recvTurn_of_message program flag w.client hmessage]
    simp only [recvMessage, hslice]
    obtain ⟨e, -, hturn⟩ | ⟨-, ⟨-, hturn⟩ | ⟨-, hturn⟩⟩ := hcases
    · rw [hturn]
      nofun
    · rw [hturn]
      nofun
    · rw [hturn]
      exact complete_result flag _ _
  · simp only [delivers, recvMessage, hslice, Bool.and_eq_true] at hdelivers
    obtain ⟨e, hread, -⟩ | ⟨hread, ⟨-, hturn⟩ | ⟨hcount, -⟩⟩ := hcases
    · rw [hread] at hdelivers
      cases hdelivers.1
    · rw [hturn] at hdelivers
      cases hdelivers.2
    · have hbuffer : buffer.length = t.announced := hstored.inv.buffer
      have hlen : t.announced ≤ (t.written ++ slicePositions header s).length :=
        (hcount.trans hbuffer) ▸ hstored.count_toNat hinv hfits hread
      exact count_eq_one hstored.inv.nodup hstored.inv.inside hlen hp

end

/-! ## Two slices -/

/-- A client of the one class, with these bytes on its stream. -/
def blobClient (bytes : Bytes) : Watched Bytes :=
  ⟨{ factory := some blobFactory }, [.ok bytes], none⟩

/-- The header of a transfer of two bytes. -/
def twoBytesHeader : MessageHeader := ⟨2, 65, MessageType.sliceHeader.code⟩

/-- A slice of one byte. -/
def oneByteSlice (offset : BitVec 32) : MessageHeader := ⟨1, offset, MessageType.slice.code⟩

/-- The transfer of two bytes. -/
def twoBytesTransfer : Bytes :=
  twoBytesHeader.bytes ++ ((oneByteSlice 0).bytes ++ ([7] ++ ((oneByteSlice 1).bytes ++ [8])))

/-- A slice in front of the buffer. -/
def straySlice : Bytes := (oneByteSlice (-1)).bytes ++ [7]

theorem carries_single {bytes : Bytes} (h : bytes ≠ []) : Carries [.ok bytes] bytes :=
  ⟨[bytes], rfl, by simpa using Ne.symm h, by simp⟩

theorem Watched.turn_sliceHeader {Msg : Type} (program : Program Msg) {w : Watched Msg}
    (flag : StreamFlag) {header : MessageHeader} {s : Incoming}
    (hmessage : nextMessage w.rest = some (header, s))
    (htype : MessageType.ofCode header.messageType = some .sliceHeader) :
    (w.turn program flag).transfer = some ⟨header.length.toNat, []⟩ ∧
      (w.turn program flag).rest = s := by
  simp only [Watched.turn, hmessage, Watched.transferAfter, htype,
    recvTurn_of_message program flag w.client hmessage, recvMessage, recvSliceHeader, true_and]
  split <;> rfl

/-- A slice that does not complete the count is one more of the transfer. -/
theorem Watched.turn_slice {Msg : Type} (program : Program Msg) {w : Watched Msg}
    (hinv : w.Inv) (flag : StreamFlag) {header : MessageHeader} {s : Incoming} {t : Transfer}
    (hmessage : nextMessage w.rest = some (header, s))
    (htype : MessageType.ofCode header.messageType = some .slice)
    (ht : w.transfer = some t) (hfits : t.Fits header)
    (hcount : (w.client.sliceSizeCount + header.length).toNat ≠ t.announced) :
    (w.turn program flag).transfer =
        some ⟨t.announced, t.written ++ slicePositions header s⟩ ∧
      (w.turn program flag).rest = (recvRaw header.length.toNat s).rest := by
  have hinv' : t.Inv { w.client with header := header } := (hinv t ht).of_eq rfl rfl
  obtain ⟨buffer, hstored, hcases⟩ := Transfer.Fits.recvSlice_cases
    (c := { w.client with header := header }) hfits hinv' program flag s
  simp only [Watched.turn, hmessage, Watched.transferAfter, htype, ht, delivers,
    recvTurn_of_message program flag w.client hmessage, recvMessage]
  obtain ⟨e, hread, hturn⟩ | ⟨hread, ⟨-, hturn⟩ | ⟨hfull, -⟩⟩ := hcases
  · rw [hturn, hread]
    exact ⟨rfl, rfl⟩
  · rw [hturn, hread]
    exact ⟨rfl, rfl⟩
  · exact absurd (hfull.trans hstored.inv.buffer) hcount

/-- Two bytes that are announced and then sent one by one: before the second slice. -/
theorem slices_safe_twoBytes : ∃ w : Watched Bytes, w.transfer = some ⟨2, [0]⟩ ∧
    (nextMessage w.rest).map (·.1) = some (oneByteSlice 1) ∧ SliceSafe blobProgram w {} := by
  have hslice (offset : BitVec 32) :
      MessageType.ofCode (oneByteSlice offset).messageType = some .slice := rfl
  have hcarries : Carries (blobClient twoBytesTransfer).rest (twoBytesHeader.bytes ++
      ((oneByteSlice 0).bytes ++ ([7] ++ ((oneByteSlice 1).bytes ++ [8])))) :=
    carries_single (by decide)
  have hstart : Run blobProgram Orderly (blobClient twoBytesTransfer) := .start _ _
  -- the announcement
  obtain ⟨rest₀, hmessage₀, hrest₀⟩ := nextMessage_carries hcarries
  obtain ⟨htransfer₁, hturn₁⟩ := Watched.turn_sliceHeader blobProgram {} hmessage₀ (by decide)
  have hrun₁ := hstart.turn {} (orderly_sliceHeader hmessage₀ (by decide) rfl)
  -- the first slice
  obtain ⟨rest₁, hmessage₁, hrest₁⟩ := nextMessage_carries (hturn₁ ▸ hrest₀)
  obtain ⟨rest₂, hread, hrest₂⟩ := recvRaw_carries (by decide) hrest₁
  have hread' : recvRaw (oneByteSlice 0).length.toNat rest₁ = ⟨.ok (), [7], rest₂⟩ := hread
  have hfits₁ : (⟨2, []⟩ : Transfer).Fits (oneByteSlice 0) :=
    ⟨by decide, by decide, by decide, nofun⟩
  have hzero : ((blobClient twoBytesTransfer).turn blobProgram {}).client.sliceSizeCount = 0 :=
    BitVec.eq_of_toNat_eq (Nat.le_zero.mp (run_inv hrun₁ _ htransfer₁).count)
  obtain ⟨htransfer₂, hturn₂⟩ := Watched.turn_slice blobProgram (run_inv hrun₁) {} hmessage₁
    (hslice 0) htransfer₁ hfits₁ (by rw [hzero]; decide)
  have hrun₂ := hrun₁.turn {} (orderly_slice hmessage₁ (hslice 0) htransfer₁ hfits₁)
  rw [slicePositions, hread'] at htransfer₂
  have hturn₂' : (((blobClient twoBytesTransfer).turn blobProgram {}).turn blobProgram {}).rest =
      rest₂ := hturn₂.trans (congrArg Reading.rest hread')
  -- the second slice
  obtain ⟨rest₃, hmessage₂, -⟩ := nextMessage_carries (hturn₂' ▸ hrest₂)
  have hfits₂ : (⟨2, [0]⟩ : Transfer).Fits (oneByteSlice 1) :=
    ⟨by decide, by decide, by decide, by decide⟩
  exact ⟨_, htransfer₂, congrArg (Option.map _) hmessage₂,
    slices_safe hrun₂ (orderly_slice hmessage₂ (hslice 1) htransfer₂ hfits₂) {}⟩

/-- **A slice from nowhere** is written in front of the buffer, also where the assertion is
checked. -/
theorem slices_safe_fails :
    (recv blobProgram {} (blobClient straySlice).client (blobClient straySlice).rest).1 =
      .fault .outOfBounds ∧
    ¬∀ w : Watched Bytes, Run blobProgram (fun _ => True) w → SliceSafe blobProgram w {} := by
  have hcarries : Carries (blobClient straySlice).rest ((oneByteSlice (-1)).bytes ++ [7]) :=
    carries_single (by decide)
  obtain ⟨rest, hmessage, hrest⟩ := nextMessage_carries hcarries
  constructor
  · have hbyte : Carries rest ([7] ++ []) := hrest
    obtain ⟨rest', hread, -⟩ := recvRaw_carries (by decide) hbyte
    have hslice : MessageType.ofCode (oneByteSlice (-1)).messageType = some .slice := by decide
    have hread' : recvRaw (oneByteSlice (-1)).length.toNat rest = ⟨.ok (), [7], rest'⟩ := hread
    have hfits : sliceFits { (blobClient straySlice).client with header := oneByteSlice (-1) } := by
      decide
    have hstore : store (blobClient straySlice).client.buffer (oneByteSlice (-1)).data.toInt [7] =
        none := by
      decide
    have hresult : (recvTurn blobProgram {} (blobClient straySlice).client
        (blobClient straySlice).rest).result = some (.fault .outOfBounds) := by
      rw [recvTurn_of_message blobProgram {} _ hmessage]
      simp only [recvMessage, hslice, recvSlice, hread', hfits, hstore, not_true, and_false,
        if_false]
    rw [recv_of_some hresult]
  · intro h
    obtain ⟨t, ht, -⟩ := h (blobClient straySlice) (.start _ _) _ rest hmessage (by decide)
    cases ht

end NekoProto.Communication
