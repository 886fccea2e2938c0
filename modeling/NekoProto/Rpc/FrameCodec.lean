import NekoProto.Rpc.Frame

/-!
# The frame codec

`NekoRpcFrameCodec::encodeFrame` and `parseFrame` on bytes: a header of 24 bytes with three sizes,
the method, an area of TLV extensions, and the payload.

1. A header is read back from its bytes (`readHeader_append`).
2. The TLV loop accepts exactly the concatenations of TLVs with distinct types
   (`loadTlvsLoop_eq_some`).
3. `parseFrameParts_eq_some` describes the accepted byte strings and what comes of them;
   `frame_codec` is the round trip and the acceptance condition.
-/

namespace NekoProto.Rpc

/-! ## The header -/

/-- `NekoRpcFrameCodec::Magic`. -/
def frameMagic : UInt16 := 0x4E52

/-- `NekoRpcFrameCodec::Version`. -/
def frameVersion : UInt8 := 1

/-- A header as it stands on the wire (`NekoRpcFrameCodec::Header`). -/
structure WireHeader where
  magic : UInt16 := frameMagic
  version : UInt8 := frameVersion
  kind : Kind
  flags : UInt8
  codec : UInt8
  extensionSize : UInt16
  id : UInt64
  methodSize : UInt32
  payloadSize : UInt32
  deriving DecidableEq, Repr

/-- The fields the backend sets and reads. -/
def WireHeader.header (h : WireHeader) : Header := ⟨h.kind, h.flags, h.codec, h.id⟩

/-- `headerSize`: the sum of the widths of the fields. -/
def headerSize : ℕ := 2 + 1 + 1 + 1 + 1 + 2 + 8 + 4 + 4

/-- `read_header`. -/
def readHeader (data : MessageType) : WireHeader where
  magic := UInt16.ofNat (readInteger 2 data 0)
  version := UInt8.ofNat (readInteger 1 data 2)
  kind := ⟨UInt8.ofNat (readInteger 1 data 3)⟩
  flags := UInt8.ofNat (readInteger 1 data 4)
  codec := UInt8.ofNat (readInteger 1 data 5)
  extensionSize := UInt16.ofNat (readInteger 2 data 6)
  id := UInt64.ofNat (readInteger 8 data 8)
  methodSize := UInt32.ofNat (readInteger 4 data 16)
  payloadSize := UInt32.ofNat (readInteger 4 data 20)

/-- `append_header`. -/
def WireHeader.bytes (h : WireHeader) : MessageType :=
  integerValue 2 h.magic.toNat ++ (integerValue 1 h.version.toNat ++
    (integerValue 1 h.kind.wire.toNat ++ (integerValue 1 h.flags.toNat ++
      (integerValue 1 h.codec.toNat ++ (integerValue 2 h.extensionSize.toNat ++
        (integerValue 8 h.id.toNat ++ (integerValue 4 h.methodSize.toNat ++
          integerValue 4 h.payloadSize.toNat)))))))

/-- `knownKind`. -/
def Kind.known (kind : Kind) : Bool :=
  kind = .request ∨ kind = .response ∨ kind = .notify ∨ kind = .cancel ∨ kind = .hello

/-- `valid_header`. -/
def WireHeader.valid (h : WireHeader) : Bool :=
  h.magic = frameMagic ∧ h.version = frameVersion ∧ h.kind.known

/-- The largest `std::size_t`. -/
def maxSize : ℕ := 2 ^ 64 - 1

/-- `frame_body_size`. -/
def frameBodySize (h : WireHeader) : Except RpcError ℕ :=
  let methodSize := h.methodSize.toNat
  let extensionSize := h.extensionSize.toNat
  let payloadSize := h.payloadSize.toNat
  if maxSize - extensionSize < methodSize ∨ maxSize - payloadSize < methodSize + extensionSize ∨
      maxSize - headerSize < methodSize + extensionSize + payloadSize then .error .invalidRequest
  else .ok (methodSize + extensionSize + payloadSize)

@[simp] theorem length_bytes (h : WireHeader) : h.bytes.length = headerSize := by
  simp [WireHeader.bytes, headerSize]

/-- Reading past a field. -/
theorem readInteger_skip {width size offset : ℕ} (h : width ≤ offset) (value : ℕ)
    (rest : MessageType) : readInteger size (integerValue width value ++ rest) offset =
      readInteger size rest (offset - width) := by
  unfold readInteger
  rw [List.drop_append, List.drop_of_length_le (by rw [length_integerValue]; exact h),
    List.nil_append, length_integerValue]

/-- Reading a field. -/
theorem readInteger_field {size value : ℕ} (h : value < 256 ^ size) (rest : MessageType) :
    readInteger size (integerValue size value ++ rest) 0 = value :=
  readInteger_append h List.length_nil rest

/-- **A header is read back from its bytes.** -/
theorem readHeader_append (h : WireHeader) (rest : MessageType) :
    readHeader (h.bytes ++ rest) = h := by
  have hbyte : ∀ b : UInt8, b.toNat < 256 ^ 1 := fun b => b.toNat_lt
  have hshort : ∀ n : UInt16, n.toNat < 256 ^ 2 := fun n => n.toNat_lt
  have hword : ∀ n : UInt32, n.toNat < 256 ^ 4 := fun n => n.toNat_lt
  have hid : h.id.toNat < 256 ^ 8 := toNat_lt_bytes h.id
  simp (disch := omega) only [readHeader, WireHeader.bytes, List.append_assoc, readInteger_skip,
    readInteger_field (hbyte _), readInteger_field (hshort _), readInteger_field (hword _),
    readInteger_field hid, Nat.reduceSub, UInt8.ofNat_toNat, UInt16.ofNat_toNat,
    UInt32.ofNat_toNat, UInt64.ofNat_toNat]

/-! ## Extension maps -/

namespace ExtensionMap

/-- The order of a `std::map`. -/
def Ordered (m : ExtensionMap) : Prop := m.Pairwise fun e e' => e.1.wire < e'.1.wire

theorem contains_set (type : ExtensionType) (value : MessageType) (m : ExtensionMap)
    (type' : ExtensionType) :
    contains (set type value m) type' = true ↔ type = type' ∨ contains m type' = true := by
  unfold contains
  by_cases h : type = type'
  · subst h
    simp
  · rw [find_set_ne h]
    exact (or_iff_right h).symm

/-- A property of the types in a map that gets one more. -/
theorem forall_mem_set {P : ExtensionType → Prop} (type : ExtensionType) (value : MessageType)
    (m : ExtensionMap) :
    (∀ e ∈ set type value m, P e.1) ↔ P type ∧ ∀ e ∈ m, P e.1 := by
  induction m with
  | nil => simp [set]
  | cons entry m ih =>
    unfold set
    split_ifs with heq hlt
    · simp [heq]
    · simp
    · rw [List.forall_mem_cons, ih, List.forall_mem_cons]
      tauto

/-- Setting the largest type appends it. -/
theorem set_of_lt {type : ExtensionType} {value : MessageType} {m : ExtensionMap}
    (h : ∀ e ∈ m, e.1.wire < type.wire) : set type value m = m ++ [(type, value)] := by
  induction m with
  | nil => rfl
  | cons entry m ih =>
    obtain ⟨hlt, hm⟩ := List.forall_mem_cons.mp h
    unfold set
    rw [if_neg (fun heq => absurd (heq ▸ hlt) (UInt16.lt_irrefl _)),
      if_neg (UInt16.not_lt.mpr (UInt16.le_of_lt hlt)), ih hm, List.cons_append]

/-- Setting the entries of an ordered map one by one gives the map. -/
theorem Ordered.foldl_set {m : ExtensionMap} : ∀ {acc : ExtensionMap}, Ordered (acc ++ m) →
    m.foldl (fun m e => set e.1 e.2 m) acc = acc ++ m := by
  induction m with
  | nil => intro acc _; exact (List.append_nil acc).symm
  | cons e m ih =>
    intro acc h
    have hlt : ∀ x ∈ acc, x.1.wire < e.1.wire := fun x hx =>
      (List.pairwise_append.mp h).2.2 x hx e List.mem_cons_self
    rw [List.foldl_cons, set_of_lt hlt, ih (by rwa [List.append_assoc]), List.append_assoc]
    rfl

theorem Ordered.nodup {m : ExtensionMap} (h : m.Ordered) : (m.map Prod.fst).Nodup := by
  refine List.pairwise_map.mpr (h.imp fun hlt heq => ?_)
  rw [heq] at hlt
  exact UInt16.lt_irrefl _ hlt

end ExtensionMap

/-! ## TLVs -/

/-- Whether a receiver that does not know the extension has to refuse the frame. -/
def ExtensionType.critical (type : ExtensionType) : Bool := type.wire &&& 0x8000 ≠ 0

/-- One extension on the wire: its type, its size and its value. -/
def encodeTlv (e : ExtensionType × MessageType) : MessageType :=
  integerValue 2 e.1.wire.toNat ++ (integerValue 2 e.2.length ++ e.2)

/-- `appendTlvs`. -/
def appendTlvs : ExtensionMap → Option MessageType
  | [] => some []
  | e :: m => if 65535 < e.2.length then none else (appendTlvs m).map (encodeTlv e ++ ·)

/-- The loop of `loadTlvs` over the bytes from its `offset` on. Each turn takes at least four of
them. -/
def loadTlvsLoop : ℕ → MessageType → ExtensionMap → Option ExtensionMap
  | 0, rest, m => if rest = [] then some m else none
  | fuel + 1, rest, m =>
    if rest = [] then some m
    else if rest.length < 4 then none
    else
      let type : ExtensionType := ⟨UInt16.ofNat (readInteger 2 rest 0)⟩
      let size := readInteger 2 rest 2
      let rest := rest.drop 4
      if rest.length < size then none
      else if m.contains type then none
      else loadTlvsLoop fuel (rest.drop size) (m.set type (rest.take size))

/-- `loadTlvs`. -/
def loadTlvs (data : MessageType) : Option ExtensionMap := loadTlvsLoop data.length data []

/-- `extensions_supported`. -/
def extensionsSupported (m : ExtensionMap) : Bool := m.all fun e => !e.1.critical

/-- Appending succeeds when every value fits its size. -/
theorem appendTlvs_eq (m : ExtensionMap) : appendTlvs m =
    if ∀ e ∈ m, e.2.length ≤ 65535 then some (m.flatMap encodeTlv) else none := by
  induction m with
  | nil => simp [appendTlvs]
  | cons e m ih =>
    unfold appendTlvs
    rw [ih]
    by_cases he : 65535 < e.2.length
    · rw [if_pos he, if_neg]
      intro h
      have := h e List.mem_cons_self
      omega
    · rw [if_neg he]
      by_cases hm : ∀ e ∈ m, e.2.length ≤ 65535
      · rw [if_pos hm, if_pos (List.forall_mem_cons.mpr ⟨by omega, hm⟩)]
        rfl
      · rw [if_neg hm, if_neg fun h => hm (List.forall_mem_cons.mp h).2]
        rfl

@[simp] theorem length_encodeTlv (e : ExtensionType × MessageType) :
    (encodeTlv e).length = 4 + e.2.length := by
  simp [encodeTlv]
  omega

/-- The fields of an encoded TLV. -/
theorem readInteger_encodeTlv {e : ExtensionType × MessageType} (he : e.2.length ≤ 65535)
    (rest : MessageType) : readInteger 2 (encodeTlv e ++ rest) 0 = e.1.wire.toNat ∧
      readInteger 2 (encodeTlv e ++ rest) 2 = e.2.length ∧
      (encodeTlv e ++ rest).drop 4 = e.2 ++ rest := by
  have htype : e.1.wire.toNat < 256 ^ 2 := e.1.wire.toNat_lt
  have hsize : e.2.length < 256 ^ 2 := by omega
  refine ⟨?_, ?_, ?_⟩
  · simpa [encodeTlv] using readInteger_field htype _
  · simpa [encodeTlv] using readInteger_append hsize (length_integerValue 2 e.1.wire.toNat) _
  · have hdrop : _ = e.2 ++ rest :=
      List.drop_left' (show (integerValue 2 e.1.wire.toNat ++
        integerValue 2 e.2.length).length = 4 by simp)
    simpa [encodeTlv] using hdrop

/-- Bytes that hold a complete TLV start with its encoding. -/
theorem exists_encodeTlv {rest : MessageType} (hlen : ¬rest.length < 4)
    (hsize : ¬(rest.drop 4).length < readInteger 2 rest 2) :
    ((rest.drop 4).take (readInteger 2 rest 2)).length ≤ 65535 ∧
      rest = encodeTlv (⟨UInt16.ofNat (readInteger 2 rest 0)⟩,
        (rest.drop 4).take (readInteger 2 rest 2)) ++
          (rest.drop 4).drop (readInteger 2 rest 2) := by
  have hread : ∀ n, n + 2 ≤ rest.length →
      integerValue 2 (readInteger 2 rest n) = (rest.drop n).take 2 ∧
        readInteger 2 rest n < 256 ^ 2 := by
    intro n hn
    have hlen2 : ((rest.drop n).take 2).length = 2 := by simp; omega
    have hback := BigEndian.toBytes_ofBytes ((rest.drop n).take 2)
    have hlt := BigEndian.ofBytes_lt ((rest.drop n).take 2)
    rw [hlen2] at hback hlt
    exact ⟨hback, hlt⟩
  obtain ⟨htype, htypelt⟩ := hread 0 (by omega)
  obtain ⟨hsz, hszlt⟩ := hread 2 (by omega)
  have hvalue : ((rest.drop 4).take (readInteger 2 rest 2)).length = readInteger 2 rest 2 := by
    rw [List.length_take]
    omega
  refine ⟨by omega, ?_⟩
  rw [encodeTlv, hvalue, hsz, show (UInt16.ofNat (readInteger 2 rest 0)).toNat =
    readInteger 2 rest 0 from UInt16.toNat_ofNat_of_lt' htypelt, htype, List.drop_zero]
  simp only [List.append_assoc, List.take_append_drop]
  conv_lhs => rw [← List.take_append_drop 2 rest, ← List.take_append_drop 2 (rest.drop 2),
    List.drop_drop]

theorem flatMap_encodeTlv_eq_nil {tlvs : List (ExtensionType × MessageType)} :
    tlvs.flatMap encodeTlv = [] ↔ tlvs = [] := by
  cases tlvs with
  | nil => simp
  | cons e tlvs =>
    refine iff_of_false (fun h => ?_) (List.cons_ne_nil _ _)
    have hlen := congrArg List.length h
    rw [List.flatMap_cons, List.length_append, length_encodeTlv, List.length_nil] at hlen
    omega

/-- A turn of the loop on an encoded TLV. -/
theorem loadTlvsLoop_cons {e : ExtensionType × MessageType} (he : e.2.length ≤ 65535) (fuel : ℕ)
    (rest : MessageType) (m : ExtensionMap) :
    loadTlvsLoop (fuel + 1) (encodeTlv e ++ rest) m =
      if m.contains e.1 then none else loadTlvsLoop fuel rest (m.set e.1 e.2) := by
  obtain ⟨htype, hsize, hdrop⟩ := readInteger_encodeTlv he rest
  have hlen : (encodeTlv e ++ rest).length = 4 + e.2.length + rest.length := by
    rw [List.length_append, length_encodeTlv]
  have hne : encodeTlv e ++ rest ≠ [] := List.ne_nil_of_length_pos (by omega)
  conv_lhs => unfold loadTlvsLoop
  rw [if_neg hne, if_neg (by omega)]
  simp only [htype, hsize, hdrop, UInt16.ofNat_toNat, List.take_left', List.drop_left']
  rw [if_neg (by simp)]

/-- The TLVs of an area, as the loop takes them into a map. -/
structure TlvsFor (m : ExtensionMap) (tlvs : List (ExtensionType × MessageType)) : Prop where
  size_le : ∀ e ∈ tlvs, e.2.length ≤ 65535
  nodup : (tlvs.map Prod.fst).Nodup
  fresh : ∀ e ∈ tlvs, m.contains e.1 = false

theorem tlvsFor_cons {m : ExtensionMap} {e : ExtensionType × MessageType}
    {tlvs : List (ExtensionType × MessageType)} :
    TlvsFor m (e :: tlvs) ↔
      e.2.length ≤ 65535 ∧ m.contains e.1 = false ∧ TlvsFor (m.set e.1 e.2) tlvs := by
  have hfresh : (∀ x ∈ tlvs, (m.set e.1 e.2).contains x.1 = false) ↔
      e.1 ∉ tlvs.map Prod.fst ∧ ∀ x ∈ tlvs, m.contains x.1 = false := by
    simp only [← Bool.not_eq_true, ExtensionMap.contains_set, not_or, List.mem_map, not_exists,
      not_and]
    exact ⟨fun h => ⟨fun x hx heq => (h x hx).1 heq.symm, fun x hx => (h x hx).2⟩,
      fun h x hx => ⟨fun heq => h.1 x hx heq.symm, h.2 x hx⟩⟩
  constructor
  · rintro ⟨hsize, hnodup, hf⟩
    rw [List.map_cons, List.nodup_cons] at hnodup
    rw [List.forall_mem_cons] at hsize hf
    exact ⟨hsize.1, hf.1, hsize.2, hnodup.2, hfresh.mpr ⟨hnodup.1, hf.2⟩⟩
  · rintro ⟨hsize, hf, hsize', hnodup, hfresh'⟩
    obtain ⟨hnot, hf'⟩ := hfresh.mp hfresh'
    refine ⟨List.forall_mem_cons.mpr ⟨hsize, hsize'⟩, ?_, List.forall_mem_cons.mpr ⟨hf, hf'⟩⟩
    rw [List.map_cons, List.nodup_cons]
    exact ⟨hnot, hnodup⟩

/-- **The TLV loop.** It accepts the concatenations of complete TLVs whose types are distinct and
new, and takes their values into the map. -/
theorem loadTlvsLoop_eq_some {fuel : ℕ} : ∀ {rest : MessageType} {m m' : ExtensionMap},
    rest.length ≤ fuel → (loadTlvsLoop fuel rest m = some m' ↔ ∃ tlvs, TlvsFor m tlvs ∧
      rest = tlvs.flatMap encodeTlv ∧
        m' = tlvs.foldl (fun m e => ExtensionMap.set e.1 e.2 m) m) := by
  have hnil : ∀ {m m' : ExtensionMap}, some m = some m' ↔ ∃ tlvs, TlvsFor m tlvs ∧
      [] = tlvs.flatMap encodeTlv ∧ m' = tlvs.foldl (fun m e => ExtensionMap.set e.1 e.2 m) m := by
    intro m m'
    constructor
    · intro h
      exact ⟨[], ⟨by simp, by simp, by simp⟩, rfl, (Option.some.inj h).symm⟩
    · rintro ⟨tlvs, -, hrest, rfl⟩
      rw [flatMap_encodeTlv_eq_nil.mp hrest.symm]
      rfl
  induction fuel with
  | zero =>
    intro rest m m' hlen
    obtain rfl := List.length_eq_zero_iff.mp (Nat.le_zero.mp hlen)
    exact hnil
  | succ fuel ih =>
    intro rest m m' hlen
    by_cases hrest : rest = []
    · subst hrest
      exact hnil
    constructor
    · intro h
      unfold loadTlvsLoop at h
      rw [if_neg hrest] at h
      split_ifs at h with hshort
      simp only at h
      split_ifs at h with hsize hdup
      obtain ⟨hvalue, heq⟩ := exists_encodeTlv hshort hsize
      obtain ⟨tlvs, htlvs, hrest', rfl⟩ := (ih (by simp; omega)).mp h
      refine ⟨(⟨UInt16.ofNat (readInteger 2 rest 0)⟩,
          (rest.drop 4).take (readInteger 2 rest 2)) :: tlvs,
        tlvsFor_cons.mpr ⟨hvalue, Bool.eq_false_of_not_eq_true hdup, htlvs⟩, ?_, rfl⟩
      rw [List.flatMap_cons, ← hrest']
      exact heq
    · rintro ⟨tlvs, htlvs, rfl, rfl⟩
      cases tlvs with
      | nil => exact absurd rfl hrest
      | cons e tlvs =>
        obtain ⟨hsize, hfresh, htlvs⟩ := tlvsFor_cons.mp htlvs
        rw [List.flatMap_cons, List.length_append, length_encodeTlv] at hlen
        rw [List.flatMap_cons, loadTlvsLoop_cons hsize, hfresh, if_neg (by simp)]
        exact (ih (by omega)).mpr ⟨tlvs, htlvs, rfl, rfl⟩

/-- What `loadTlvs` accepts. -/
theorem loadTlvs_eq_some {data : MessageType} {m : ExtensionMap} :
    loadTlvs data = some m ↔ ∃ tlvs : List (ExtensionType × MessageType),
      (∀ e ∈ tlvs, e.2.length ≤ 65535) ∧ (tlvs.map Prod.fst).Nodup ∧
      data = tlvs.flatMap encodeTlv ∧
      m = tlvs.foldl (fun m e => ExtensionMap.set e.1 e.2 m) [] := by
  refine (loadTlvsLoop_eq_some (le_refl _)).trans (exists_congr fun tlvs => ?_)
  constructor
  · rintro ⟨⟨hsize, hnodup, -⟩, hdata, hm⟩
    exact ⟨hsize, hnodup, hdata, hm⟩
  · rintro ⟨hsize, hnodup, hdata, hm⟩
    exact ⟨⟨hsize, hnodup, fun _ _ => rfl⟩, hdata, hm⟩

/-- The bytes of an ordered map load back. -/
theorem loadTlvs_flatMap {m : ExtensionMap} (h : m.Ordered)
    (hsize : ∀ e ∈ m, e.2.length ≤ 65535) : loadTlvs (m.flatMap encodeTlv) = some m :=
  loadTlvs_eq_some.mpr ⟨m, hsize, h.nodup, rfl,
    (@ExtensionMap.Ordered.foldl_set m [] h).symm⟩

theorem extensionsSupported_iff {m : ExtensionMap} :
    extensionsSupported m = true ↔ ∀ e ∈ m, e.1.critical = false := by
  simp [extensionsSupported]

/-- The types of a map built from TLVs. -/
theorem forall_mem_foldl_set {P : ExtensionType → Prop}
    (tlvs : List (ExtensionType × MessageType)) : ∀ m : ExtensionMap,
    (∀ e ∈ tlvs.foldl (fun m e => ExtensionMap.set e.1 e.2 m) m, P e.1) ↔
      (∀ e ∈ m, P e.1) ∧ ∀ e ∈ tlvs, P e.1 := by
  induction tlvs with
  | nil => intro m; simp
  | cons e tlvs ih =>
    intro m
    rw [List.foldl_cons, ih, ExtensionMap.forall_mem_set, List.forall_mem_cons]
    tauto

/-! ## Frames -/

/-- The header `encodeFrame` writes over its extension area. -/
def FrameParts.wireHeader (frame : FrameParts) (extensions : MessageType) : WireHeader where
  kind := frame.header.kind
  flags :=
    if extensions ≠ [] then frame.header.flags ||| Flag.hasExtensions.bit
    else frame.header.flags &&& ~~~Flag.hasExtensions.bit
  codec := frame.header.codec
  extensionSize := UInt16.ofNat extensions.length
  id := frame.header.id
  methodSize := UInt32.ofNat frame.method.length
  payloadSize := UInt32.ofNat frame.payload.length

/-- `encodeFrame`. -/
def encodeFrame (frame : FrameParts) : MessageType :=
  match appendTlvs frame.extensions with
  | none => []
  | some extensions =>
    if 2 ^ 32 - 1 < frame.method.length ∨ 65535 < extensions.length ∨
        2 ^ 32 - 1 < frame.payload.length then []
    else
      (frame.wireHeader extensions).bytes ++ (frame.method ++ (extensions ++ frame.payload))

/-- `encodeHello`. -/
def encodeHello (extensions : ExtensionMap) (codec : UInt8) : MessageType :=
  encodeFrame {
    header := { kind := .hello, flags := 0, codec := codec, id := 0 }
    method := []
    extensions := extensions
    payload := [] }

/-- `parse_frame_parts`. -/
def parseFrameParts (data : MessageType) : Option FrameParts :=
  if data.length < headerSize then none
  else
    let header := readHeader data
    if !header.valid then none
    else
      match frameBodySize header with
      | .error _ => none
      | .ok bodySize =>
        if headerSize + bodySize ≠ data.length then none
        else
          let methodSize := header.methodSize.toNat
          let extensionSize := header.extensionSize.toNat
          let payloadSize := header.payloadSize.toNat
          let extensionBegin := headerSize + methodSize
          let payloadBegin := extensionBegin + extensionSize
          match loadTlvs ((data.drop extensionBegin).take extensionSize) with
          | none => none
          | some extensions =>
            if extensionsSupported extensions then
              some {
                header := header.header
                method := (data.drop headerSize).take methodSize
                extensions := extensions
                payload := (data.drop payloadBegin).take payloadSize }
            else none

/-- `parseFrame`. -/
def parseFrame (data : MessageType) (codec : UInt8) : Option FrameParts :=
  (parseFrameParts data).filter fun parts => parts.header.codec = codec

/-- The body size of a header: three sizes of at most 32 bits do not overflow. -/
def WireHeader.bodySize (h : WireHeader) : ℕ :=
  h.methodSize.toNat + h.extensionSize.toNat + h.payloadSize.toNat

theorem frameBodySize_eq (h : WireHeader) : frameBodySize h = .ok h.bodySize := by
  have hm := h.methodSize.toNat_lt
  have he := h.extensionSize.toNat_lt
  have hp := h.payloadSize.toNat_lt
  unfold frameBodySize
  simp only
  rw [if_neg]
  · rfl
  · simp only [maxSize, headerSize]
    omega

/-- **What `parse_frame_parts` accepts, and what comes of it.** -/
theorem parseFrameParts_eq_some {data : MessageType} {parts : FrameParts} :
    parseFrameParts data = some parts ↔
      headerSize ≤ data.length ∧ (readHeader data).valid = true ∧
      headerSize + (readHeader data).bodySize = data.length ∧
      loadTlvs ((data.drop (headerSize + (readHeader data).methodSize.toNat)).take
        (readHeader data).extensionSize.toNat) = some parts.extensions ∧
      extensionsSupported parts.extensions = true ∧
      parts.header = (readHeader data).header ∧
      parts.method = (data.drop headerSize).take (readHeader data).methodSize.toNat ∧
      parts.payload = (data.drop (headerSize + (readHeader data).methodSize.toNat +
        (readHeader data).extensionSize.toNat)).take (readHeader data).payloadSize.toNat := by
  unfold parseFrameParts
  simp only [frameBodySize_eq]
  constructor
  · intro h
    split_ifs at h with hlen hvalid hsize
    rw [not_not] at hsize
    cases hload : loadTlvs ((data.drop (headerSize + (readHeader data).methodSize.toNat)).take
        (readHeader data).extensionSize.toNat) with
    | none => rw [hload] at h; exact absurd h (by simp)
    | some m =>
      rw [hload] at h
      simp only at h
      split_ifs at h with hsupported
      obtain rfl := Option.some.inj h
      exact ⟨by omega, by simpa using hvalid, hsize, rfl, hsupported, rfl, rfl, rfl⟩
  · rintro ⟨hlen, hvalid, hsize, hload, hsupported, hheader, hmethod, hpayload⟩
    rw [if_neg (by omega), if_neg (by simp [hvalid]), if_neg (by simp [hsize]), hload]
    simp only [hsupported, if_true, Option.some.injEq]
    cases parts
    simp_all

/-- What `encodeFrame` can express. -/
structure FrameParts.Representable (frame : FrameParts) : Prop where
  value_le : ∀ e ∈ frame.extensions, e.2.length ≤ 65535
  extensions_le : (frame.extensions.flatMap encodeTlv).length ≤ 65535
  method_le : frame.method.length ≤ 2 ^ 32 - 1
  payload_le : frame.payload.length ≤ 2 ^ 32 - 1

theorem FrameParts.Representable.encodeFrame_eq {frame : FrameParts} (h : frame.Representable) :
    encodeFrame frame = (frame.wireHeader (frame.extensions.flatMap encodeTlv)).bytes ++
      (frame.method ++ (frame.extensions.flatMap encodeTlv ++ frame.payload)) := by
  have h1 := h.extensions_le
  have h2 := h.method_le
  have h3 := h.payload_le
  unfold encodeFrame
  rw [appendTlvs_eq, if_pos h.value_le]
  simp only
  rw [if_neg (by omega)]

theorem encodeFrame_eq_nil {frame : FrameParts} :
    encodeFrame frame = [] ↔ ¬frame.Representable := by
  constructor
  · intro hnil h
    have hlen := congrArg List.length (h.encodeFrame_eq.symm.trans hnil)
    rw [List.length_append, length_bytes, List.length_nil, headerSize] at hlen
    omega
  · intro h
    unfold encodeFrame
    rw [appendTlvs_eq]
    split_ifs with hvalues
    · simp only
      rw [if_pos]
      by_contra hsmall
      exact h ⟨hvalues, by omega, by omega, by omega⟩
    · rfl

/-- The sizes in the header of a frame that can be expressed. -/
theorem FrameParts.Representable.wireHeader_sizes {frame : FrameParts} (h : frame.Representable) :
    (frame.wireHeader (frame.extensions.flatMap encodeTlv)).methodSize.toNat =
        frame.method.length ∧
      (frame.wireHeader (frame.extensions.flatMap encodeTlv)).extensionSize.toNat =
        (frame.extensions.flatMap encodeTlv).length ∧
      (frame.wireHeader (frame.extensions.flatMap encodeTlv)).payloadSize.toNat =
        frame.payload.length := by
  have h1 := h.extensions_le
  have h2 := h.method_le
  have h3 := h.payload_le
  exact ⟨UInt32.toNat_ofNat_of_lt' (by simp [UInt32.size]; omega),
    UInt16.toNat_ofNat_of_lt' (by simp only [UInt16.size]; omega),
    UInt32.toNat_ofNat_of_lt' (by simp [UInt32.size]; omega)⟩

/-- **The round trip.** -/
theorem FrameParts.Representable.parseFrame_encodeFrame {frame : FrameParts}
    (h : frame.Representable) (hkind : frame.header.kind.known = true)
    (hordered : frame.extensions.Ordered)
    (hsupported : ∀ e ∈ frame.extensions, e.1.critical = false) :
    parseFrame (encodeFrame frame) frame.header.codec = some { frame with
      header := (frame.wireHeader (frame.extensions.flatMap encodeTlv)).header } := by
  obtain ⟨hm, he, hp⟩ := h.wireHeader_sizes
  set area := frame.extensions.flatMap encodeTlv with harea
  set wire := frame.wireHeader area with hwire
  have hread : readHeader (encodeFrame frame) = wire := by
    rw [h.encodeFrame_eq]
    exact readHeader_append _ _
  have hdrop : (encodeFrame frame).drop headerSize = frame.method ++ (area ++ frame.payload) := by
    rw [h.encodeFrame_eq]
    exact List.drop_left' (length_bytes _)
  have hdrop' : (encodeFrame frame).drop (headerSize + frame.method.length) =
      area ++ frame.payload := by
    rw [← List.drop_drop, hdrop, List.drop_left' rfl]
  have hdrop'' : (encodeFrame frame).drop (headerSize + frame.method.length + area.length) =
      frame.payload := by
    rw [← List.drop_drop, hdrop', List.drop_left' rfl]
  have hlen : (encodeFrame frame).length =
      headerSize + (frame.method.length + area.length + frame.payload.length) := by
    rw [h.encodeFrame_eq, ← harea]
    simp only [List.length_append, length_bytes]
    omega
  have hparts : parseFrameParts (encodeFrame frame) =
      some { frame with header := wire.header } := by
    rw [parseFrameParts_eq_some, hread, hm, he, hp, hdrop, hdrop', hdrop'']
    refine ⟨by omega, ?_, ?_, ?_, extensionsSupported_iff.mpr hsupported, rfl,
      (List.take_left' rfl).symm, (List.take_length).symm⟩
    · simpa [WireHeader.valid, hwire, FrameParts.wireHeader] using hkind
    · rw [hlen, WireHeader.bodySize, hm, he, hp]
    · rw [List.take_left' rfl]
      exact loadTlvs_flatMap hordered h.value_le
  unfold parseFrame
  rw [hparts, Option.filter_some, if_pos]
  simp [hwire, FrameParts.wireHeader, WireHeader.header]

/-! ## The codec -/

/-- A frame as it has to be for `parseFrame`: a complete header with the right magic, version and
codec and a known kind, sizes that add up to the bytes after it, and an extension area of complete
TLVs with distinct types, none of them critical. -/
structure WellFormedFrame (data : MessageType) (codec : UInt8) : Prop where
  header_le : headerSize ≤ data.length
  magic_eq : (readHeader data).magic = frameMagic
  version_eq : (readHeader data).version = frameVersion
  codec_eq : (readHeader data).codec = codec
  kind_known : (readHeader data).kind.known = true
  sizes_eq : (readHeader data).methodSize.toNat + (readHeader data).extensionSize.toNat +
    (readHeader data).payloadSize.toNat = data.length - headerSize
  extensions : ∃ tlvs : List (ExtensionType × MessageType),
    (data.drop (headerSize + (readHeader data).methodSize.toNat)).take
      (readHeader data).extensionSize.toNat = tlvs.flatMap encodeTlv ∧
    (∀ e ∈ tlvs, e.2.length ≤ 65535) ∧ (tlvs.map Prod.fst).Nodup ∧
    ∀ e ∈ tlvs, e.1.critical = false

/-- **Acceptance.** -/
theorem parseFrame_isSome_iff (data : MessageType) (codec : UInt8) :
    (parseFrame data codec).isSome = true ↔ WellFormedFrame data codec := by
  have hfilter : (parseFrame data codec).isSome = true ↔
      ∃ parts, parseFrameParts data = some parts ∧ parts.header.codec = codec := by
    rw [Option.isSome_iff_exists, parseFrame]
    simp [Option.filter_eq_some_iff]
  rw [hfilter]
  constructor
  · rintro ⟨parts, hparts, hcodec⟩
    obtain ⟨hlen, hvalid, hsize, hload, hsupported, hheader, -⟩ :=
      parseFrameParts_eq_some.mp hparts
    obtain ⟨hmagic, hversion, hkind⟩ : (readHeader data).magic = frameMagic ∧
        (readHeader data).version = frameVersion ∧ (readHeader data).kind.known = true := by
      simpa [WireHeader.valid] using hvalid
    obtain ⟨tlvs, hvalue, hnodup, hdata, hm⟩ := loadTlvs_eq_some.mp hload
    rw [extensionsSupported_iff, hm,
      forall_mem_foldl_set (P := fun t => t.critical = false)] at hsupported
    rw [hheader] at hcodec
    rw [WireHeader.bodySize] at hsize
    exact ⟨hlen, hmagic, hversion, hcodec, hkind, by omega, tlvs, hdata, hvalue, hnodup,
      hsupported.2⟩
  · rintro ⟨hlen, hmagic, hversion, hcodec, hkind, hsize, tlvs, hdata, hvalue, hnodup, hcritical⟩
    have hload := loadTlvs_eq_some.mpr ⟨tlvs, hvalue, hnodup, hdata, rfl⟩
    refine ⟨⟨(readHeader data).header, _, _, _⟩,
      parseFrameParts_eq_some.mpr ⟨hlen, ?_, ?_, hload, ?_, rfl, rfl, rfl⟩, hcodec⟩
    · simp [WireHeader.valid, hmagic, hversion, hkind]
    · rw [WireHeader.bodySize]
      omega
    · rw [extensionsSupported_iff, forall_mem_foldl_set (P := fun t => t.critical = false)]
      exact ⟨fun e he => absurd he List.not_mem_nil, hcritical⟩

/-- The flags a frame is sent with differ from its own at most in `HasExtensions`. -/
theorem wireHeader_flags (frame : FrameParts) (extensions : MessageType) :
    (frame.wireHeader extensions).flags ||| Flag.hasExtensions.bit =
      frame.header.flags ||| Flag.hasExtensions.bit := by
  unfold FrameParts.wireHeader
  simp only
  split_ifs
  · rw [UInt8.or_assoc, UInt8.or_self]
  · apply UInt8.toBitVec_inj.mp
    ext i hi
    simp only [UInt8.toBitVec_or, UInt8.toBitVec_and, UInt8.toBitVec_not, BitVec.getElem_or,
      BitVec.getElem_and, BitVec.getElem_not]
    cases frame.header.flags.toBitVec[i] <;> cases Flag.hasExtensions.bit.toBitVec[i] <;> rfl

/-- **The frame codec.** A frame of a known kind with an ordered map of non-critical extensions
encodes to nothing exactly when a size field cannot express it, and else parses back, up to the
flag `HasExtensions`. And a byte string parses exactly when it is a well formed frame. -/
theorem frame_codec (frame : FrameParts) (hkind : frame.header.kind.known = true)
    (hordered : frame.extensions.Ordered)
    (hsupported : ∀ e ∈ frame.extensions, e.1.critical = false) (data : MessageType)
    (codec : UInt8) :
    (encodeFrame frame = [] ↔ ¬frame.Representable) ∧
    (encodeFrame frame ≠ [] → ∃ flags,
      flags ||| Flag.hasExtensions.bit = frame.header.flags ||| Flag.hasExtensions.bit ∧
      parseFrame (encodeFrame frame) frame.header.codec =
        some { frame with header := { frame.header with flags := flags } }) ∧
    ((parseFrame data codec).isSome = true ↔ WellFormedFrame data codec) := by
  refine ⟨encodeFrame_eq_nil, fun hne => ?_, parseFrame_isSome_iff data codec⟩
  have h : frame.Representable := not_not.mp fun h => hne (encodeFrame_eq_nil.mpr h)
  exact ⟨_, wireHeader_flags frame _, h.parseFrame_encodeFrame hkind hordered hsupported⟩

/-- A request with two extensions. -/
theorem frame_codec_request :
    let frame : FrameParts := {
      header := { kind := .request, flags := 2, codec := 1, id := 7 }
      method := [0, 0, 0, 0, 0, 0, 0, 3]
      extensions := [(.methodTableVersion, [0, 0, 0, 0, 0, 0, 0, 1]), (.methodSignatureHash, [9])]
      payload := [1, 2, 3] }
    (encodeFrame frame = [] ↔ ¬frame.Representable) ∧
    (encodeFrame frame ≠ [] → ∃ flags,
      flags ||| Flag.hasExtensions.bit = frame.header.flags ||| Flag.hasExtensions.bit ∧
      parseFrame (encodeFrame frame) frame.header.codec =
        some { frame with header := { frame.header with flags := flags } }) ∧
    ((parseFrame [78, 82, 1] 1).isSome = true ↔ WellFormedFrame [78, 82, 1] 1) :=
  frame_codec _ (by decide) (by unfold ExtensionMap.Ordered; decide) (by decide) [78, 82, 1] 1

end NekoProto.Rpc
