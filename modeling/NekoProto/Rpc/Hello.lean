import NekoProto.Rpc.CompressedTransport
import NekoProto.Rpc.MethodTableTransfer

/-!
# The hello handshake

A client opens its session with a hello that names its features. The server enables what both
sides have and answers with a hello of its own, from which the client takes over what is enabled.

1. The answer's extensions are a method id part followed by a compression part
   (`serverHelloExtensions_eq`).
2. Each part is sized against a budget of its own, so the answer is complete exactly when the
   method id part has room and the sum fits a frame (`hello_answered_iff`).
3. Whatever the client accepts, it agrees with the server on (`hello_agreement`).
-/

namespace NekoProto.Rpc

/-! ## The extensions of the compression -/

/-- The wire value of an algorithm (`enumValue`). -/
def CompressionAlgorithm.toWire : CompressionAlgorithm → UInt8
  | .none => 0
  | .runLength => 1
  | .unknown value => value

/-- The algorithm of a wire value. -/
def CompressionAlgorithm.ofWire (value : UInt8) : CompressionAlgorithm :=
  if value = 0 then .none else if value = 1 then .runLength else .unknown value

/-- `readEnumTlv` for a compression algorithm. -/
def readAlgorithmTlv (extensions : ExtensionMap) (type : ExtensionType) :
    Option CompressionAlgorithm :=
  (readIntegerTlv 1 extensions type).map fun raw => .ofWire (UInt8.ofNat raw)

/-- The three extensions of a side that has compression. -/
def setCompressionExtensions (algorithm : CompressionAlgorithm) (minPayloadSize : UInt32)
    (extensions : ExtensionMap) : ExtensionMap :=
  let extensions := ExtensionMap.set .compression [] extensions
  let extensions :=
    ExtensionMap.set .compressionAlgorithm (integerValue 1 algorithm.toWire.toNat) extensions
  ExtensionMap.set .compressionMinPayloadSize (integerValue 4 minPayloadSize.toNat) extensions

/-- What a wire value stands for is told apart by its wire value. -/
theorem CompressionAlgorithm.ofWire_toWire (value : UInt8) :
    ofWire (ofWire value).toWire = ofWire value := by
  by_cases h0 : value = 0
  · subst h0; rfl
  by_cases h1 : value = 1
  · subst h1; rfl
  have hunknown : ofWire value = .unknown value := by
    unfold ofWire
    rw [if_neg h0, if_neg h1]
  rw [hunknown]
  exact hunknown

/-- An algorithm on the wire is read as the one its wire value stands for. -/
theorem CompressionAlgorithm.readIntegerValue_toWire (algorithm : CompressionAlgorithm) :
    (readIntegerValue 1 (integerValue 1 algorithm.toWire.toNat)).map
      (fun raw => ofWire (UInt8.ofNat raw)) = some (ofWire algorithm.toWire) := by
  rw [readIntegerValue_integerValue algorithm.toWire.toNat_lt, Option.map_some,
    UInt8.ofNat_toNat]

/-! ## The handshake -/

/-- `ServerContext`, with the options of the whole backend. -/
structure BackendServerContext where
  options : BackendOptions
  methodTable : MethodIdTable

/-- What the method id functions see of the context. -/
def BackendServerContext.toServerContext (context : BackendServerContext) : ServerContext where
  options := context.options.toOptions
  methodTable := context.methodTable

/-- `makeClientPeerSession` and `makeServerPeerSession`. -/
def BackendOptions.makePeerSession (options : BackendOptions) : BackendSession where
  remoteMethodTable := { maxEntries := options.maxMethodEntries }
  compressionMinPayloadSize := options.compressionMinPayloadSize

/-- `_isHello`. -/
def isHello (codecId : UInt8) (message : MessageType) : Bool :=
  match parseFrame message codecId with
  | none => false
  | some parts => parts.header.kind = .hello

/-- `map::insert` of a range: the keys that are there keep their values. -/
def ExtensionMap.insert (m : ExtensionMap) (range : ExtensionMap) : ExtensionMap :=
  range.foldl (fun m e => if m.contains e.1 then m else m.set e.1 e.2) m

/-- `_appendMethodIdHelloExtensions`. -/
def appendMethodIdHelloExtensions (context : ServerContext) (extensions : ExtensionMap) :
    ExtensionMap :=
  let table := methodIdTableExtensions context true
  if extensionsFitAutoBudget context.options table then extensions.insert table
  else
    let hint := methodIdTableExtensions context false
    if extensionsFitAutoBudget context.options hint then extensions.insert hint else extensions

section Handshake

variable (codec : CompressionCodec) (codecId : UInt8)

/-- The extensions of the hello of `ensureClientReady`. -/
def clientHelloExtensions (options : BackendOptions) : ExtensionMap :=
  let extensions : ExtensionMap :=
    if options.methodId.enabled then ExtensionMap.set .methodId [] [] else []
  if options.compression.enabled ∧ codec.preferredAlgorithm ≠ .none ∧
      codec.supports codec.preferredAlgorithm then
    setCompressionExtensions codec.preferredAlgorithm options.compressionMinPayloadSize extensions
  else extensions

/-- Whether a server enables method ids for the extensions of a client's hello. -/
def methodIdNegotiated (context : BackendServerContext) (extensions : ExtensionMap) : Bool :=
  context.options.methodId.enabled && extensions.contains .methodId &&
    context.methodTable.entries ≠ []

/-- Whether a server enables compression for the extensions of a client's hello. -/
def compressionNegotiated (context : BackendServerContext) (extensions : ExtensionMap) : Bool :=
  context.options.compression.enabled && extensions.contains .compression &&
    match readAlgorithmTlv extensions .compressionAlgorithm with
    | none => false
    | some algorithm => algorithm ≠ .none && codec.supports algorithm

/-- The session a server makes of the extensions of a client's hello. -/
def negotiate (context : BackendServerContext) (session : BackendSession)
    (extensions : ExtensionMap) : BackendSession :=
  let algorithm := (readAlgorithmTlv extensions .compressionAlgorithm).getD .none
  -- without the extension the client's threshold stays 0
  let clientMin :=
    UInt32.ofNat ((readIntegerTlv 4 extensions .compressionMinPayloadSize).getD 0)
  let compressionEnabled := compressionNegotiated codec context extensions
  { session with
    methodIdEnabled := methodIdNegotiated context extensions
    compressionEnabled := compressionEnabled
    compressionAlgorithm := if compressionEnabled then algorithm else .none
    compressionMinPayloadSize :=
      if compressionEnabled ∧ session.compressionMinPayloadSize < clientMin then clientMin
      else session.compressionMinPayloadSize
    handshakeDone := true }

/-- The extensions of a server's hello. -/
def serverHelloExtensions (context : BackendServerContext) (session : BackendSession) :
    ExtensionMap :=
  let extensions :=
    if session.methodIdEnabled then appendMethodIdHelloExtensions context.toServerContext []
    else []
  if session.compressionEnabled then
    setCompressionExtensions session.compressionAlgorithm session.compressionMinPayloadSize
      extensions
  else extensions

/-- `_handleClientHello`. -/
def handleClientHello (context : BackendServerContext) (session : BackendSession)
    (frame : MessageType) : Except CodecError (BackendSession × MessageType) :=
  match parseFrame frame codecId with
  | none => .error (.rpc .invalidRequest)
  | some parts =>
    let session := negotiate codec context session parts.extensions
    .ok (session, encodeHello (serverHelloExtensions context session) codecId)

/-- `handleServerControl` up to the answer it sends; a message that is no hello gets none. -/
def handleServerControl (context : BackendServerContext) (session : BackendSession)
    (message : MessageType) : Except CodecError (BackendSession × Option MessageType) :=
  if !isHello codecId message then .ok (session, none)
  else
    match handleClientHello codec codecId context session message with
    | .error error => .error error
    | .ok (session, response) => .ok (session, some response)

/-- The method id part of `_handleServerHello`. -/
def acceptMethodIds (session : BackendSession) (extensions : ExtensionMap) : BackendSession :=
  let session : BackendSession := { session with methodIdEnabled := false }
  if extensions.contains .methodId then
    let (peer, applied) := applyMethodIdTableExtensions session.toPeerSession extensions
    { session with
      toPeerSession :=
        { peer with methodIdEnabled := applied || peer.remoteMethodTable.entries ≠ [] } }
  else session

/-- `_handleServerHello`. -/
def handleServerHello (session : BackendSession) (frame : MessageType) : BackendSession × Bool :=
  match parseFrame frame codecId with
  | none => (session, false)
  | some parts =>
    let session := acceptMethodIds session parts.extensions
    let session := { session with
      compressionEnabled := parts.extensions.contains .compression
      compressionAlgorithm := .none }
    if !session.compressionEnabled then ({ session with handshakeDone := true }, true)
    else
      match readAlgorithmTlv parts.extensions .compressionAlgorithm with
      | none => (session, false)
      | some algorithm =>
        let session := { session with compressionAlgorithm := algorithm }
        if algorithm = .none ∨ !codec.supports algorithm then (session, false)
        else
          let session := { session with
            compressionMinPayloadSize :=
              match readIntegerTlv 4 parts.extensions .compressionMinPayloadSize with
              | none => session.compressionMinPayloadSize
              | some minPayloadSize => UInt32.ofNat minPayloadSize }
          ({ session with handshakeDone := true }, true)

/-- `handleClientControl`. -/
def handleClientControl (session : BackendSession) (message : MessageType) :
    BackendSession × Bool :=
  if !isHello codecId message then (session, false)
  else handleServerHello codec codecId session message

/-- `ensureClientReady`, over an endpoint that answers the message sent with the next one
received. -/
def ensureClientReady (options : BackendOptions) (session : BackendSession)
    (exchange : MessageType → Except ErrorCode MessageType) :
    BackendSession × Except ErrorCode Unit :=
  if session.handshakeDone ∨ (!options.methodId.enabled ∧ !options.compression.enabled) then
    ({ session with handshakeDone := true }, .ok ())
  else
    let extensions := clientHelloExtensions codec options
    if extensions = [] then ({ session with handshakeDone := true }, .ok ())
    else
      match exchange (encodeHello extensions codecId) with
      | .error error => (session, .error error)
      | .ok response =>
        let (session, accepted) := handleClientControl codec codecId session response
        if !accepted then (session, .error RpcError.invalidRequest.toErrorCode)
        else if options.methodId = .require ∧ !session.methodIdEnabled then
          (session, .error RpcError.methodIdRequiredButUnsupported.toErrorCode)
        else if options.compression = .require ∧ !session.compressionEnabled then
          (session, .error RpcError.compressionRequiredButUnsupported.toErrorCode)
        else ({ session with handshakeDone := true }, .ok ())

end Handshake

/-! ## The size of extensions -/

/-- The bytes a map takes on the wire. -/
def ExtensionMap.wireSize (m : ExtensionMap) : ℕ := (m.flatMap encodeTlv).length

@[simp] theorem ExtensionMap.wireSize_nil : ExtensionMap.wireSize [] = 0 := rfl

@[simp] theorem ExtensionMap.wireSize_cons (e : ExtensionType × MessageType) (m : ExtensionMap) :
    ExtensionMap.wireSize (e :: m) = 4 + e.2.length + ExtensionMap.wireSize m := by
  unfold ExtensionMap.wireSize
  rw [List.flatMap_cons, List.length_append, length_encodeTlv]

@[simp] theorem ExtensionMap.wireSize_append (m m' : ExtensionMap) :
    ExtensionMap.wireSize (m ++ m') = m.wireSize + m'.wireSize := by
  unfold ExtensionMap.wireSize
  rw [List.flatMap_append, List.length_append]

theorem ExtensionMap.length_le_wireSize {m : ExtensionMap} {e : ExtensionType × MessageType}
    (h : e ∈ m) : e.2.length ≤ m.wireSize := by
  induction m with
  | nil => exact absurd h List.not_mem_nil
  | cons x m ih =>
    rw [ExtensionMap.wireSize_cons]
    rcases List.mem_cons.mp h with rfl | h
    · omega
    · have := ih h
      omega

/-- `_extensionWireSize` is the size on the wire, as long as a frame holds it. -/
theorem extensionWireSizeFrom_eq (m : ExtensionMap) : ∀ {size : ℕ}, size ≤ 65535 →
    extensionWireSizeFrom size m =
      if size + m.wireSize ≤ 65535 then some (size + m.wireSize) else none := by
  induction m with
  | nil =>
    intro size h
    rw [ExtensionMap.wireSize_nil, Nat.add_zero, if_pos h]
    rfl
  | cons e m ih =>
    obtain ⟨type, value⟩ := e
    intro size h
    have hsize : ExtensionMap.wireSize ((type, value) :: m) =
        4 + value.length + ExtensionMap.wireSize m := ExtensionMap.wireSize_cons _ m
    rw [hsize]
    unfold extensionWireSizeFrom
    have hmax : maxExtensionBytes = 65535 := rfl
    by_cases hbad : 65535 < value.length ∨ maxExtensionBytes - 4 < size ∨
        maxExtensionBytes - value.length < size + 4
    · rw [if_pos hbad, if_neg (by omega)]
    · rw [if_neg hbad, ih (by omega), Nat.add_assoc]

theorem extensionsFitAutoBudget_iff {options : Options} {m : ExtensionMap} :
    extensionsFitAutoBudget options m = true ↔
      m.wireSize ≤ min options.maxAutoMethodTableExtensionBytes 65535 := by
  unfold extensionsFitAutoBudget extensionWireSize
  rw [extensionWireSizeFrom_eq m (Nat.zero_le _), Nat.zero_add]
  by_cases h : m.wireSize ≤ 65535
  · rw [if_pos h]
    exact decide_eq_true_iff
  · rw [if_neg h]
    exact iff_of_false Bool.false_ne_true (by omega)

/-! ## The answer -/

/-- A hello whose extensions a frame holds is parsed back. -/
theorem parseFrame_encodeHello {m : ExtensionMap} (hordered : m.Ordered)
    (hsupported : ∀ e ∈ m, e.1.critical = false) (hsize : m.wireSize ≤ 65535) (codecId : UInt8) :
    ∃ parts, parseFrame (encodeHello m codecId) codecId = some parts ∧
      parts.header.kind = .hello ∧ parts.extensions = m := by
  have hrep : FrameParts.Representable
      { header := { kind := .hello, flags := 0, codec := codecId, id := 0 }
        method := []
        extensions := m
        payload := [] } := {
    value_le := fun e he => (ExtensionMap.length_le_wireSize he).trans hsize
    extensions_le := hsize
    method_le := Nat.zero_le _
    payload_le := Nat.zero_le _ }
  exact ⟨_, hrep.parseFrame_encodeFrame rfl hordered hsupported, rfl, rfl⟩

theorem encodeHello_eq_nil {m : ExtensionMap} {codecId : UInt8} :
    encodeHello m codecId = [] ↔ 65535 < m.wireSize := by
  unfold encodeHello
  rw [encodeFrame_eq_nil, ← Nat.not_le, not_iff_not]
  constructor
  · exact fun h => h.extensions_le
  · intro hsize
    exact {
      value_le := fun e he => (ExtensionMap.length_le_wireSize he).trans hsize
      extensions_le := hsize
      method_le := Nat.zero_le _
      payload_le := Nat.zero_le _ }

/-- The entries of `_methodIdTableExtensions`, in their order. -/
theorem methodIdTableExtensions_eq (context : ServerContext) :
    methodIdTableExtensions context true =
        [(.methodId, []),
          (.methodTableVersion, integerValue 8 context.methodTable.version.toNat),
          (.methodTable, encodeMethodEntriesValue context.methodTable.entries),
          (.methodMinimumCompatibleVersion,
            integerValue 8 context.methodTable.minimumCompatibleVersion.toNat)] ∧
      methodIdTableExtensions context false =
        [(.methodId, []),
          (.methodTableVersion, integerValue 8 context.methodTable.version.toNat),
          (.methodMinimumCompatibleVersion,
            integerValue 8 context.methodTable.minimumCompatibleVersion.toNat)] :=
  ⟨rfl, rfl⟩

/-- The bytes of the method id extensions, with the table and without it. -/
theorem wireSize_methodIdTableExtensions (context : ServerContext) :
    (methodIdTableExtensions context true).wireSize =
        32 + (encodeMethodEntriesValue context.methodTable.entries).length ∧
      (methodIdTableExtensions context false).wireSize = 28 := by
  obtain ⟨htable, hhint⟩ := methodIdTableExtensions_eq context
  rw [htable, hhint]
  constructor
  · simp only [ExtensionMap.wireSize_cons, ExtensionMap.wireSize_nil, List.length_nil,
      length_integerValue]
    omega
  · simp only [ExtensionMap.wireSize_cons, ExtensionMap.wireSize_nil, List.length_nil,
      length_integerValue]

/-- The method id part of a server's hello. -/
def methodIdExtensions (context : BackendServerContext) (session : BackendSession) :
    ExtensionMap :=
  if session.methodIdEnabled then appendMethodIdHelloExtensions context.toServerContext [] else []

/-- The compression part of a server's hello. -/
def compressionExtensions (session : BackendSession) : ExtensionMap :=
  if session.compressionEnabled then
    [(.compression, []),
      (.compressionAlgorithm, integerValue 1 session.compressionAlgorithm.toWire.toNat),
      (.compressionMinPayloadSize, integerValue 4 session.compressionMinPayloadSize.toNat)]
  else []

/-- The method id part has the table, or its version only, or nothing. -/
theorem methodIdExtensions_cases (context : BackendServerContext) (session : BackendSession)
    (h : session.methodIdEnabled = true) :
    (methodIdExtensions context session = methodIdTableExtensions context.toServerContext true ∧
        extensionsFitAutoBudget context.options.toOptions
          (methodIdTableExtensions context.toServerContext true) = true) ∨
      (methodIdExtensions context session =
          methodIdTableExtensions context.toServerContext false ∧
        28 ≤ context.options.maxAutoMethodTableExtensionBytes ∧
        extensionsFitAutoBudget context.options.toOptions
          (methodIdTableExtensions context.toServerContext true) = false) ∨
      (methodIdExtensions context session = [] ∧
        context.options.maxAutoMethodTableExtensionBytes < 28) := by
  have hinsert : ∀ table, ExtensionMap.insert []
      (methodIdTableExtensions context.toServerContext table) =
        methodIdTableExtensions context.toServerContext table := by
    intro table
    cases table <;> rfl
  obtain ⟨-, hhint⟩ := wireSize_methodIdTableExtensions context.toServerContext
  unfold methodIdExtensions appendMethodIdHelloExtensions
  rw [if_pos h]
  simp only [hinsert, show context.toServerContext.options = context.options.toOptions from rfl]
  by_cases htable : extensionsFitAutoBudget context.options.toOptions
      (methodIdTableExtensions context.toServerContext true) = true
  · exact Or.inl ⟨if_pos htable, htable⟩
  rw [if_neg htable]
  by_cases hfits : extensionsFitAutoBudget context.options.toOptions
      (methodIdTableExtensions context.toServerContext false) = true
  · refine Or.inr (Or.inl ⟨if_pos hfits, ?_, Bool.not_eq_true _ ▸ htable⟩)
    have := extensionsFitAutoBudget_iff.mp hfits
    omega
  · refine Or.inr (Or.inr ⟨if_neg hfits, ?_⟩)
    by_contra hle
    exact hfits (extensionsFitAutoBudget_iff.mpr (by omega))

theorem wireSize_compressionExtensions (session : BackendSession) :
    (compressionExtensions session).wireSize = if session.compressionEnabled then 17 else 0 := by
  unfold compressionExtensions
  split_ifs
  · simp only [ExtensionMap.wireSize_cons, ExtensionMap.wireSize_nil, List.length_nil,
      length_integerValue]
  · rfl

/-- A map of method id extensions: in order, known, and below the other features. -/
structure MethodIdPart (m : ExtensionMap) : Prop where
  ordered : m.Ordered
  wire_lt : ∀ e ∈ m, e.1.wire < ExtensionType.compression.wire
  supported : ∀ e ∈ m, e.1.critical = false

theorem methodIdTableExtensions_part (context : ServerContext) (table : Bool) :
    MethodIdPart (methodIdTableExtensions context table) := by
  obtain ⟨htable, hhint⟩ := methodIdTableExtensions_eq context
  cases table with
  | true =>
    rw [htable]
    constructor
    · simp [ExtensionMap.Ordered, ExtensionType.methodId, ExtensionType.methodTableVersion,
        ExtensionType.methodTable, ExtensionType.methodMinimumCompatibleVersion]
    · simp only [List.forall_mem_cons]
      exact ⟨by decide, by decide, by decide, by decide, List.forall_mem_nil _⟩
    · simp only [List.forall_mem_cons]
      exact ⟨by decide, by decide, by decide, by decide, List.forall_mem_nil _⟩
  | false =>
    rw [hhint]
    constructor
    · simp [ExtensionMap.Ordered, ExtensionType.methodId, ExtensionType.methodTableVersion,
        ExtensionType.methodMinimumCompatibleVersion]
    · simp only [List.forall_mem_cons]
      exact ⟨by decide, by decide, by decide, List.forall_mem_nil _⟩
    · simp only [List.forall_mem_cons]
      exact ⟨by decide, by decide, by decide, List.forall_mem_nil _⟩

theorem methodIdExtensions_part (context : BackendServerContext) (session : BackendSession) :
    MethodIdPart (methodIdExtensions context session) := by
  have hnil : MethodIdPart [] := ⟨List.Pairwise.nil, List.forall_mem_nil _, List.forall_mem_nil _⟩
  by_cases h : session.methodIdEnabled = true
  · rcases methodIdExtensions_cases context session h with ⟨heq, -⟩ | ⟨heq, -⟩ | ⟨heq, -⟩
    · exact heq ▸ methodIdTableExtensions_part context.toServerContext true
    · exact heq ▸ methodIdTableExtensions_part context.toServerContext false
    · exact heq ▸ hnil
  · unfold methodIdExtensions
    rw [if_neg h]
    exact hnil

/-- The types of the compression part. -/
theorem mem_compressionExtensions {session : BackendSession} {e : ExtensionType × MessageType}
    (h : e ∈ compressionExtensions session) :
    e.1 = .compression ∨ e.1 = .compressionAlgorithm ∨ e.1 = .compressionMinPayloadSize := by
  unfold compressionExtensions at h
  split_ifs at h
  · simp only [List.mem_cons, List.not_mem_nil, or_false] at h
    rcases h with rfl | rfl | rfl
    · exact Or.inl rfl
    · exact Or.inr (Or.inl rfl)
    · exact Or.inr (Or.inr rfl)
  · exact absurd h List.not_mem_nil

/-- The two parts of a server's hello stand in the order of a map. -/
theorem ordered_helloExtensions {m : ExtensionMap} (hm : MethodIdPart m)
    (session : BackendSession) : ExtensionMap.Ordered (m ++ compressionExtensions session) := by
  refine List.pairwise_append.mpr ⟨hm.ordered, ?_, fun e he e' he' => ?_⟩
  · unfold compressionExtensions
    split_ifs
    · simp [ExtensionType.compression, ExtensionType.compressionAlgorithm,
        ExtensionType.compressionMinPayloadSize]
    · exact List.Pairwise.nil
  · have hlt := hm.wire_lt e he
    rcases mem_compressionExtensions he' with h | h | h
    · rw [h]; exact hlt
    · rw [h]; exact UInt16.lt_trans hlt (by decide)
    · rw [h]; exact UInt16.lt_trans hlt (by decide)

/-- **A server's hello**: its method id part and its compression part. -/
theorem serverHelloExtensions_eq (context : BackendServerContext) (session : BackendSession) :
    serverHelloExtensions context session =
      methodIdExtensions context session ++ compressionExtensions session := by
  have hordered := ordered_helloExtensions (methodIdExtensions_part context session) session
  have hfold := hordered.foldl_set
  show (if session.compressionEnabled then setCompressionExtensions session.compressionAlgorithm
    session.compressionMinPayloadSize (methodIdExtensions context session)
      else methodIdExtensions context session) = _
  rw [← hfold]
  unfold compressionExtensions
  split_ifs <;> rfl

theorem supported_helloExtensions (context : BackendServerContext) (session : BackendSession) :
    ∀ e ∈ methodIdExtensions context session ++ compressionExtensions session,
      e.1.critical = false := by
  refine List.forall_mem_append.mpr
    ⟨(methodIdExtensions_part context session).supported, fun e he => ?_⟩
  rcases mem_compressionExtensions he with h | h | h
  · rw [h]; rfl
  · rw [h]; rfl
  · rw [h]; rfl

theorem ExtensionMap.find_append (type : ExtensionType) (m m' : ExtensionMap) :
    ExtensionMap.find type (m ++ m') =
      (ExtensionMap.find type m).or (ExtensionMap.find type m') := by
  induction m with
  | nil => rfl
  | cons e m ih =>
    show (if e.1 = type then some e.2 else ExtensionMap.find type (m ++ m')) =
      (if e.1 = type then some e.2 else ExtensionMap.find type m).or _
    split_ifs
    · rfl
    · exact ih

/-- The compression part has nothing of the method ids, and the other way round. -/
theorem find_compressionExtensions {type : ExtensionType} (h : type.wire < 16)
    (session : BackendSession) : ExtensionMap.find type (compressionExtensions session) = none := by
  have hne : ∀ {t : ExtensionType}, ¬t.wire < 16 → t ≠ type :=
    fun ht heq => ht (by rw [heq]; exact h)
  unfold compressionExtensions
  split_ifs
  · unfold ExtensionMap.find
    rw [if_neg (hne (by decide))]
    unfold ExtensionMap.find
    rw [if_neg (hne (by decide))]
    unfold ExtensionMap.find
    rw [if_neg (hne (by decide))]
    rfl
  · rfl

theorem MethodIdPart.find_eq_none {m : ExtensionMap} (hm : MethodIdPart m) {type : ExtensionType}
    (h : ¬type.wire < 16) : ExtensionMap.find type m = none := by
  have hlt := hm.wire_lt
  clear hm
  induction m with
  | nil => rfl
  | cons e m ih =>
    obtain ⟨he, hm⟩ := List.forall_mem_cons.mp hlt
    unfold ExtensionMap.find
    rw [if_neg fun heq : e.1 = type => h (by rw [← heq]; exact he)]
    exact ih hm

/-- Where a server's hello has an extension. -/
theorem find_serverHelloExtensions (context : BackendServerContext) (session : BackendSession)
    (type : ExtensionType) : ExtensionMap.find type (serverHelloExtensions context session) =
      if type.wire < 16 then ExtensionMap.find type (methodIdExtensions context session)
      else ExtensionMap.find type (compressionExtensions session) := by
  rw [serverHelloExtensions_eq, ExtensionMap.find_append]
  split_ifs with h
  · rw [find_compressionExtensions h, Option.or_none]
  · rw [(methodIdExtensions_part context session).find_eq_none h, Option.none_or]

/-- A server's hello that a frame holds is parsed back. -/
theorem parseFrame_serverHello {context : BackendServerContext} {session : BackendSession}
    (hsize : (serverHelloExtensions context session).wireSize ≤ 65535) (codecId : UInt8) :
    ∃ parts, parseFrame (encodeHello (serverHelloExtensions context session) codecId) codecId =
        some parts ∧ parts.header.kind = .hello ∧
      parts.extensions = serverHelloExtensions context session := by
  have heq := serverHelloExtensions_eq context session
  refine parseFrame_encodeHello ?_ ?_ hsize codecId
  · rw [heq]
    exact ordered_helloExtensions (methodIdExtensions_part context session) session
  · rw [heq]
    exact supported_helloExtensions context session

/-! ## What a hello has to say -/

/-- An answer that a client can take: a hello with all extensions that were negotiated. -/
structure AnswersHello (codecId : UInt8) (session : BackendSession) (answer : MessageType) :
    Prop where
  ne_nil : answer ≠ []
  hello : ∃ parts, parseFrame answer codecId = some parts ∧ parts.header.kind = .hello ∧
    (session.methodIdEnabled = true → parts.extensions.contains .methodId = true ∧
      parts.extensions.contains .methodTableVersion = true ∧
      parts.extensions.contains .methodMinimumCompatibleVersion = true) ∧
    (session.compressionEnabled = true → parts.extensions.contains .compression = true ∧
      parts.extensions.contains .compressionAlgorithm = true ∧
      parts.extensions.contains .compressionMinPayloadSize = true)

/-- The server's answer is complete when a frame holds it and the method id part is not empty. -/
theorem answersHello_iff (codecId : UInt8) (context : BackendServerContext)
    (session : BackendSession) :
    AnswersHello codecId session (encodeHello (serverHelloExtensions context session) codecId) ↔
      (serverHelloExtensions context session).wireSize ≤ 65535 ∧
        (session.methodIdEnabled = true →
          28 ≤ context.options.maxAutoMethodTableExtensionBytes) := by
  constructor
  · rintro ⟨hne, parts, hparts, -, hmethod, -⟩
    have hsize : (serverHelloExtensions context session).wireSize ≤ 65535 :=
      Nat.not_lt.mp fun h => hne (encodeHello_eq_nil.mpr h)
    refine ⟨hsize, fun henabled => ?_⟩
    obtain ⟨parts', hparts', -, hextensions⟩ := parseFrame_serverHello hsize codecId
    obtain rfl := Option.some.inj (hparts.symm.trans hparts')
    have hcontains := (hmethod henabled).1
    unfold ExtensionMap.contains at hcontains
    rw [hextensions, find_serverHelloExtensions, if_pos (by decide)] at hcontains
    rcases methodIdExtensions_cases context session henabled with ⟨-, hfits⟩ | ⟨-, h, -⟩ | ⟨h, -⟩
    · have hle := extensionsFitAutoBudget_iff.mp hfits
      have htable := (wireSize_methodIdTableExtensions context.toServerContext).1
      omega
    · exact h
    · rw [h] at hcontains
      exact absurd hcontains Bool.false_ne_true
  · rintro ⟨hsize, hroom⟩
    obtain ⟨parts, hparts, hkind, hextensions⟩ := parseFrame_serverHello hsize codecId
    have hfind := find_serverHelloExtensions context session
    refine ⟨fun hnil => absurd (encodeHello_eq_nil.mp hnil) (Nat.not_lt.mpr hsize), parts, hparts,
      hkind, fun henabled => ?_, fun henabled => ?_⟩
    · unfold ExtensionMap.contains
      rw [hextensions, hfind, hfind, hfind, if_pos (by decide), if_pos (by decide),
        if_pos (by decide)]
      rcases methodIdExtensions_cases context session henabled with ⟨h, -⟩ | ⟨h, -⟩ | ⟨-, h⟩
      · rw [h]
        exact ⟨rfl, rfl, rfl⟩
      · rw [h]
        exact ⟨rfl, rfl, rfl⟩
      · exact absurd (hroom henabled) (Nat.not_le.mpr h)
    · unfold ExtensionMap.contains
      rw [hextensions, hfind, hfind, hfind, if_neg (by decide), if_neg (by decide),
        if_neg (by decide)]
      unfold compressionExtensions
      rw [if_pos henabled]
      exact ⟨rfl, rfl, rfl⟩

/-- When a frame holds the extensions of a server's hello. -/
theorem wireSize_serverHelloExtensions (context : BackendServerContext)
    (session : BackendSession) :
    (serverHelloExtensions context session).wireSize ≤ 65535 ↔
      (session.methodIdEnabled = true → session.compressionEnabled = true →
        extensionsFitAutoBudget context.options.toOptions
            (methodIdTableExtensions context.toServerContext true) = true →
          (methodIdTableExtensions context.toServerContext true).wireSize + 17 ≤ 65535) := by
  have hhint := (wireSize_methodIdTableExtensions context.toServerContext).2
  rw [serverHelloExtensions_eq, ExtensionMap.wireSize_append, wireSize_compressionExtensions]
  by_cases hmethod : session.methodIdEnabled = true
  · rcases methodIdExtensions_cases context session hmethod with
      ⟨heq, hfits⟩ | ⟨heq, -, hnot⟩ | ⟨heq, hlow⟩
    · have hle := extensionsFitAutoBudget_iff.mp hfits
      rw [heq]
      by_cases hcompression : session.compressionEnabled = true
      · rw [if_pos hcompression]
        exact ⟨fun h _ _ _ => h, fun h => h hmethod hcompression hfits⟩
      · rw [if_neg hcompression]
        exact iff_of_true (by omega) fun _ h => absurd h hcompression
    · rw [heq, hhint]
      refine iff_of_true (by split_ifs <;> omega) fun _ _ h => ?_
      rw [hnot] at h
      exact absurd h Bool.false_ne_true
    · rw [heq, ExtensionMap.wireSize_nil]
      refine iff_of_true (by split_ifs <;> omega) fun _ _ hfits => ?_
      have hle := extensionsFitAutoBudget_iff.mp hfits
      have htable := (wireSize_methodIdTableExtensions context.toServerContext).1
      omega
  · unfold methodIdExtensions
    rw [if_neg hmethod, ExtensionMap.wireSize_nil]
    exact iff_of_true (by split_ifs <;> omega) fun h => absurd h hmethod

theorem handleServerControl_eq {codecId : UInt8} {message : MessageType} {parts : FrameParts}
    (hparse : parseFrame message codecId = some parts) (hkind : parts.header.kind = .hello)
    (codec : CompressionCodec) (context : BackendServerContext) (session : BackendSession) :
    handleServerControl codec codecId context session message =
      .ok (negotiate codec context session parts.extensions, some (encodeHello
        (serverHelloExtensions context (negotiate codec context session parts.extensions))
        codecId)) := by
  unfold handleServerControl isHello handleClientHello
  rw [hparse]
  simp only [hkind, decide_true, Bool.not_true, Bool.false_eq_true, if_false]

/-- **The answer to a hello.** Take any server and any valid hello of a client. The server answers
with a hello that has all negotiated extensions exactly when, if method ids are negotiated, the
automatic budget has room for their version and, if compression is negotiated as well, a table
that fits the budget leaves 17 bytes of a frame's extensions for the compression. -/
theorem hello_answered_iff (codec : CompressionCodec) (codecId : UInt8)
    (context : BackendServerContext) (session : BackendSession) (message : MessageType)
    (parts : FrameParts) (hparse : parseFrame message codecId = some parts)
    (hkind : parts.header.kind = .hello) :
    (∃ session' answer, handleServerControl codec codecId context session message =
        .ok (session', some answer) ∧ AnswersHello codecId session' answer) ↔
      (methodIdNegotiated context parts.extensions = true →
        28 ≤ context.options.maxAutoMethodTableExtensionBytes ∧
        (compressionNegotiated codec context parts.extensions = true →
          extensionsFitAutoBudget context.options.toOptions
              (methodIdTableExtensions context.toServerContext true) = true →
            (methodIdTableExtensions context.toServerContext true).wireSize + 17 ≤ 65535)) := by
  have hanswer := answersHello_iff codecId context
    (negotiate codec context session parts.extensions)
  rw [wireSize_serverHelloExtensions] at hanswer
  rw [handleServerControl_eq hparse hkind]
  constructor
  · rintro ⟨session', answer, heq, hcomplete⟩ hmethod
    cases heq
    obtain ⟨hsize, hroom⟩ := hanswer.mp hcomplete
    exact ⟨hroom hmethod, hsize hmethod⟩
  · intro h
    exact ⟨_, _, rfl, hanswer.mpr ⟨fun hmethod => (h hmethod).2, fun hmethod => (h hmethod).1⟩⟩

/-- A client with default options and compression, and a server with a method `a`. -/
theorem hello_answered_default :
    let options : BackendOptions := { compression := .auto }
    let context : BackendServerContext := {
      options := options
      methodTable := MethodIdTable.updates { maxEntries := 4 } [.upsert [97] 1] }
    let message := encodeHello (clientHelloExtensions runLengthCodec options) 1
    (∃ session' answer, handleServerControl runLengthCodec 1 context options.makePeerSession
        message = .ok (session', some answer) ∧ AnswersHello 1 session' answer) ↔
      (methodIdNegotiated context (clientHelloExtensions runLengthCodec options) = true →
        28 ≤ context.options.maxAutoMethodTableExtensionBytes ∧
        (compressionNegotiated runLengthCodec context
            (clientHelloExtensions runLengthCodec options) = true →
          extensionsFitAutoBudget context.options.toOptions
              (methodIdTableExtensions context.toServerContext true) = true →
            (methodIdTableExtensions context.toServerContext true).wireSize + 17 ≤ 65535)) :=
  hello_answered_iff runLengthCodec 1 _ _ _
    { header := { kind := .hello, flags := 4, codec := 1, id := 0 }
      method := []
      extensions := clientHelloExtensions runLengthCodec { compression := .auto }
      payload := [] } (by decide +kernel) rfl

/-- A table that fills a frame's extensions leaves the hello without an answer. -/
theorem unanswered_of_long {name : Name} (hlow : 65463 ≤ name.length)
    (hhigh : name.length ≤ 65479) :
    let options : BackendOptions := { compression := .auto }
    let context : BackendServerContext := {
      options := options
      methodTable := MethodIdTable.updates { maxEntries := 4 } [.upsert name 1] }
    let message := encodeHello (clientHelloExtensions runLengthCodec options) 1
    (∃ parts, parseFrame message 1 = some parts ∧ parts.header.kind = .hello) ∧
      ¬∃ session' answer, handleServerControl runLengthCodec 1 context options.makePeerSession
          message = .ok (session', some answer) ∧ AnswersHello 1 session' answer := by
  intro options context message
  have hparse : parseFrame message 1 = some {
      header := { kind := .hello, flags := 4, codec := 1, id := 0 }
      method := []
      extensions := clientHelloExtensions runLengthCodec options
      payload := [] } := by decide +kernel
  refine ⟨⟨_, hparse, rfl⟩, ?_⟩
  rintro ⟨session', answer, heq, hcomplete⟩
  rw [handleServerControl_eq hparse rfl] at heq
  cases heq
  have hentries : context.methodTable.entries =
      [{ id := 0, name := name, signatureHash := 1 }] :=
    updates_upsert_entries (List.ne_nil_of_length_pos (by omega))
  have hvalue : (encodeMethodEntriesValue context.methodTable.entries).length =
      24 + name.length := by
    have hshort : MethodEntry.shortName { id := 0, name := name, signatureHash := 1 } = true := by
      simp only [MethodEntry.shortName, decide_eq_true_eq]
      omega
    rw [hentries]
    unfold encodeMethodEntriesValue
    rw [List.filter_cons_of_pos hshort, List.filter_nil]
    simp only [encodeMethodEntry, List.flatMap_cons, List.flatMap_nil, List.length_append,
      length_integerValue, List.length_nil]
    omega
  have htable := (wireSize_methodIdTableExtensions context.toServerContext).1
  have hsize := ((answersHello_iff _ _ _).mp hcomplete).1
  rw [wireSize_serverHelloExtensions] at hsize
  have hmethod : methodIdNegotiated context (clientHelloExtensions runLengthCodec options) =
      true := by
    unfold methodIdNegotiated
    rw [hentries]
    rfl
  have hfits : extensionsFitAutoBudget options.toOptions
      (methodIdTableExtensions context.toServerContext true) = true := by
    rw [extensionsFitAutoBudget_iff, htable]
    show 32 + (encodeMethodEntriesValue context.methodTable.entries).length ≤ min 65535 65535
    omega
  have hle := hsize hmethod rfl hfits
  rw [htable] at hle
  have : (encodeMethodEntriesValue context.toServerContext.methodTable.entries).length =
    24 + name.length := hvalue
  omega

/-- A server whose only method has a name of 65470 bytes: the frame of its answer is empty. -/
theorem hello_answered_fails :
    let options : BackendOptions := { compression := .auto }
    let context : BackendServerContext := {
      options := options
      methodTable := MethodIdTable.updates { maxEntries := 4 }
        [.upsert (List.replicate 65470 97) 1] }
    let message := encodeHello (clientHelloExtensions runLengthCodec options) 1
    (∃ parts, parseFrame message 1 = some parts ∧ parts.header.kind = .hello) ∧
      ¬∃ session' answer, handleServerControl runLengthCodec 1 context options.makePeerSession
          message = .ok (session', some answer) ∧ AnswersHello 1 session' answer :=
  unanswered_of_long (by rw [List.length_replicate]; decide)
    (by rw [List.length_replicate]; decide)

/-! ## Agreement -/

/-- Taking over a table looks at the method id extensions only. -/
theorem applyMethodIdTableExtensions_congr (session : PeerSession) {m m' : ExtensionMap}
    (h : ∀ type : ExtensionType, type.wire < 16 →
      ExtensionMap.find type m = ExtensionMap.find type m') :
    applyMethodIdTableExtensions session m = applyMethodIdTableExtensions session m' := by
  unfold applyMethodIdTableExtensions ExtensionMap.contains readIntegerTlv parseMethodEntriesTlv
  rw [h .methodTable (by decide), h .methodTableDelta (by decide),
    h .methodTableVersion (by decide), h .methodMinimumCompatibleVersion (by decide)]

/-- A table that is not taken over leaves the session as it was. -/
theorem applyMethodIdTableExtensions_refused {session session' : PeerSession} {m : ExtensionMap}
    (h : applyMethodIdTableExtensions session m = (session', false)) : session' = session := by
  unfold applyMethodIdTableExtensions at h
  split_ifs at h
  · exact (congrArg Prod.fst h).symm
  split at h
  · exact (congrArg Prod.fst h).symm
  simp only at h
  split at h
  · exact (congrArg Prod.fst h).symm
  · exact absurd (congrArg Prod.snd h).symm Bool.false_ne_true

/-- A client without a table ends with method ids from a server's hello: the server had enabled
them, and the client took over its table. -/
theorem acceptMethodIds_serverHello {context : BackendServerContext}
    {server session : BackendSession} (hnew : session.remoteMethodTable.entries = [])
    (h : (acceptMethodIds session (serverHelloExtensions context server)).methodIdEnabled = true) :
    server.methodIdEnabled = true ∧ ∃ peer₀ peer : PeerSession,
      applyMethodIdTableExtensions peer₀
        (methodIdTableExtensions context.toServerContext true) = (peer, true) ∧
      (acceptMethodIds session (serverHelloExtensions context server)).remoteMethodTable =
        peer.remoteMethodTable := by
  set m := serverHelloExtensions context server with hm
  have hfind : ∀ type : ExtensionType, type.wire < 16 →
      ExtensionMap.find type m = ExtensionMap.find type (methodIdExtensions context server) := by
    intro type htype
    rw [hm, find_serverHelloExtensions, if_pos htype]
  unfold acceptMethodIds at h ⊢
  by_cases hcontains : ExtensionMap.contains m .methodId = true
  · rw [if_pos hcontains] at h ⊢
    simp only at h ⊢
    have henabled : server.methodIdEnabled = true := by
      by_contra hnot
      unfold ExtensionMap.contains at hcontains
      rw [hfind _ (by decide)] at hcontains
      unfold methodIdExtensions at hcontains
      rw [if_neg hnot] at hcontains
      exact absurd hcontains Bool.false_ne_true
    refine ⟨henabled, { session.toPeerSession with methodIdEnabled := false }, ?_⟩
    cases hres : applyMethodIdTableExtensions
        { session.toPeerSession with methodIdEnabled := false } m with
    | mk peer applied =>
      rw [hres] at h
      cases applied with
      | false =>
        rw [applyMethodIdTableExtensions_refused hres] at h
        exact absurd h (by simp [hnew])
      | true =>
        refine ⟨peer, ?_, rfl⟩
        rw [applyMethodIdTableExtensions_congr _ hfind] at hres
        rcases methodIdExtensions_cases context server henabled with ⟨heq, -⟩ | ⟨heq, -⟩ | ⟨heq, -⟩
        · rw [← heq]
          exact hres
        · rw [heq] at hres
          exact absurd (congrArg Prod.snd hres) Bool.false_ne_true
        · rw [heq] at hres
          exact absurd (congrArg Prod.snd hres) Bool.false_ne_true
  · rw [if_neg hcontains] at h
    exact absurd h Bool.false_ne_true

/-- What a client that accepts a hello takes from it. -/
theorem handleServerHello_accepted {codec : CompressionCodec} {codecId : UInt8}
    {session client : BackendSession} {frame : MessageType} {parts : FrameParts}
    (hparse : parseFrame frame codecId = some parts)
    (h : handleServerHello codec codecId session frame = (client, true)) :
    client.methodIdEnabled = (acceptMethodIds session parts.extensions).methodIdEnabled ∧
      client.remoteMethodTable = (acceptMethodIds session parts.extensions).remoteMethodTable ∧
      client.compressionEnabled = parts.extensions.contains .compression ∧
      (client.compressionEnabled = true →
        readAlgorithmTlv parts.extensions .compressionAlgorithm =
            some client.compressionAlgorithm ∧
          ∀ minPayloadSize, readIntegerTlv 4 parts.extensions .compressionMinPayloadSize =
            some minPayloadSize →
              client.compressionMinPayloadSize = UInt32.ofNat minPayloadSize) := by
  unfold handleServerHello at h
  rw [hparse] at h
  simp only at h
  by_cases hcompression : parts.extensions.contains .compression = true
  · rw [if_neg (by simp [hcompression])] at h
    cases halgorithm : readAlgorithmTlv parts.extensions .compressionAlgorithm with
    | none =>
      rw [halgorithm] at h
      exact absurd (congrArg Prod.snd h) Bool.false_ne_true
    | some algorithm =>
      rw [halgorithm] at h
      simp only at h
      split_ifs at h
      · exact absurd (congrArg Prod.snd h) Bool.false_ne_true
      · obtain rfl := congrArg Prod.fst h
        refine ⟨rfl, rfl, rfl, fun _ => ⟨rfl, fun minPayloadSize hmin => ?_⟩⟩
        simp only [hmin]
  · rw [if_pos (by simp [hcompression])] at h
    obtain rfl := congrArg Prod.fst h
    exact ⟨rfl, rfl, rfl, fun henabled => absurd henabled hcompression⟩

/-- The algorithm a server enables came from the wire. -/
theorem negotiate_algorithm {codec : CompressionCodec} {context : BackendServerContext}
    {session : BackendSession} {extensions : ExtensionMap}
    (h : (negotiate codec context session extensions).compressionEnabled = true) :
    ∃ value, (negotiate codec context session extensions).compressionAlgorithm =
      CompressionAlgorithm.ofWire value := by
  have hnegotiated : compressionNegotiated codec context extensions = true := h
  show ∃ value, (if compressionNegotiated codec context extensions then
    (readAlgorithmTlv extensions .compressionAlgorithm).getD .none else .none) = _
  rw [if_pos hnegotiated]
  unfold readAlgorithmTlv
  cases readIntegerTlv 1 extensions .compressionAlgorithm with
  | none => exact ⟨0, rfl⟩
  | some raw => exact ⟨_, rfl⟩

/-- A hello that a server answers. -/
theorem handleServerControl_answer {codec : CompressionCodec} {codecId : UInt8}
    {context : BackendServerContext} {session server : BackendSession}
    {message answer : MessageType}
    (h : handleServerControl codec codecId context session message = .ok (server, some answer)) :
    ∃ extensions, server = negotiate codec context session extensions ∧
      answer = encodeHello (serverHelloExtensions context server) codecId := by
  unfold handleServerControl handleClientHello at h
  split_ifs at h
  · exact absurd h (by simp)
  cases hparse : parseFrame message codecId with
  | none => rw [hparse] at h; exact absurd h (by simp)
  | some parts =>
    rw [hparse] at h
    cases h
    exact ⟨parts.extensions, rfl, rfl⟩

/-- **Hello agreement.** Take any options of the client and of the server, and any table of the
server, reached by any updates, whose names fit their 16-bit size. If the client accepts the
server's answer to its hello, both on new sessions, the two agree on the compression, and a client
that ends with method ids has the table of a server that has them too. -/
theorem hello_agreement (codec : CompressionCodec) (codecId : UInt8)
    (clientOptions serverOptions : BackendOptions) (maxEntries : UInt64) (ops : List TableUpdate)
    (server client : BackendSession) (answer : MessageType) :
    let context : BackendServerContext := {
      options := serverOptions
      methodTable := MethodIdTable.updates { maxEntries := maxEntries } ops }
    (∀ e ∈ context.methodTable.entries, e.name.length ≤ 65535) →
    handleServerControl codec codecId context serverOptions.makePeerSession
        (encodeHello (clientHelloExtensions codec clientOptions) codecId) =
      .ok (server, some answer) →
    handleClientControl codec codecId clientOptions.makePeerSession answer = (client, true) →
    client.compressionEnabled = server.compressionEnabled ∧
      (client.compressionEnabled = true →
        client.compressionAlgorithm = server.compressionAlgorithm ∧
          client.compressionMinPayloadSize = server.compressionMinPayloadSize) ∧
      (client.methodIdEnabled = true → server.methodIdEnabled = true ∧
        client.remoteMethodTable.version = context.methodTable.version ∧
          client.remoteMethodTable.entries = context.methodTable.entries) := by
  intro context hnames hserver hclient
  obtain ⟨extensions, hnegotiate, rfl⟩ := handleServerControl_answer hserver
  set m := serverHelloExtensions context server with hm
  unfold handleClientControl at hclient
  split_ifs at hclient with hhello
  · exact absurd (congrArg Prod.snd hclient) Bool.false_ne_true
  have hsize : m.wireSize ≤ 65535 := by
    refine Nat.not_lt.mp fun hlt => hhello ?_
    rw [encodeHello_eq_nil.mpr hlt]
    rfl
  obtain ⟨parts, hparse, -, hextensions⟩ := parseFrame_serverHello hsize codecId
  obtain ⟨hmethod, htable, hcompression, hagree⟩ := handleServerHello_accepted hparse hclient
  rw [hextensions] at hmethod htable hcompression hagree
  -- the compression
  have hfind : ∀ type : ExtensionType, ¬type.wire < 16 →
      ExtensionMap.find type m = ExtensionMap.find type (compressionExtensions server) := by
    intro type htype
    rw [hm, find_serverHelloExtensions, if_neg htype]
  have henabled : client.compressionEnabled = server.compressionEnabled := by
    rw [hcompression]
    unfold ExtensionMap.contains
    rw [hfind _ (by decide)]
    unfold compressionExtensions
    cases server.compressionEnabled <;> rfl
  refine ⟨henabled, fun hclientEnabled => ?_, fun hclientMethod => ?_⟩
  · have hserverEnabled := henabled ▸ hclientEnabled
    obtain ⟨halgorithm, hmin⟩ := hagree hclientEnabled
    unfold readAlgorithmTlv readIntegerTlv at halgorithm
    unfold readIntegerTlv at hmin
    rw [hfind _ (by decide)] at halgorithm hmin
    unfold compressionExtensions at halgorithm hmin
    rw [if_pos hserverEnabled] at halgorithm hmin
    constructor
    · have hwire := Option.some.inj
        (server.compressionAlgorithm.readIntegerValue_toWire.symm.trans halgorithm)
      rw [hnegotiate] at hserverEnabled
      obtain ⟨value, hvalue⟩ := negotiate_algorithm hserverEnabled
      rw [← hnegotiate] at hvalue
      rw [← hwire, hvalue, CompressionAlgorithm.ofWire_toWire]
    · have hread := hmin server.compressionMinPayloadSize.toNat
        (readIntegerValue_integerValue server.compressionMinPayloadSize.toNat_lt)
      rw [hread, UInt32.ofNat_toNat]
  -- the method table
  · rw [hmethod] at hclientMethod
    obtain ⟨hserverMethod, peer₀, peer, happly, heq⟩ :=
      acceptMethodIds_serverHello rfl hclientMethod
    obtain ⟨-, hentries, hversion⟩ := applyMethodIdTableExtensions_spec happly
    have hall : context.methodTable.entries.filter MethodEntry.shortName =
        context.methodTable.entries :=
      List.filter_eq_self.mpr fun e he => by simpa [MethodEntry.shortName] using hnames e he
    have hne : context.methodTable.entries ≠ [] := by
      have hnegotiated : methodIdNegotiated context extensions = true := by
        rw [hnegotiate] at hserverMethod
        exact hserverMethod
      unfold methodIdNegotiated at hnegotiated
      simp only [Bool.and_eq_true, decide_eq_true_eq] at hnegotiated
      exact hnegotiated.2
    have hvalid : context.methodTable.Valid :=
      (updates_valid (MethodIdTable.clear_valid { maxEntries := maxEntries })).1
    have htaken : context.toServerContext.methodTable = context.methodTable := rfl
    rw [htaken, hall] at hentries hversion
    rw [if_neg hne] at hversion
    rw [htable, heq]
    exact ⟨hserverMethod, hversion, hentries.trans (map_withHash hvalid)⟩

/-- A client that asks for method ids and compression, and a server with both and a method `a`. -/
theorem hello_agreement_both :
    let clientOptions : BackendOptions := { compression := .auto, compressionMinPayloadSize := 80 }
    let serverOptions : BackendOptions := { compression := .auto }
    let context : BackendServerContext := {
      options := serverOptions
      methodTable := MethodIdTable.updates { maxEntries := 4 } [.upsert [97] 1] }
    ∃ server client answer,
      handleServerControl runLengthCodec 1 context serverOptions.makePeerSession
          (encodeHello (clientHelloExtensions runLengthCodec clientOptions) 1) =
        .ok (server, some answer) ∧
      handleClientControl runLengthCodec 1 clientOptions.makePeerSession answer =
        (client, true) ∧
      client.compressionEnabled = true ∧ client.methodIdEnabled = true ∧
      client.compressionEnabled = server.compressionEnabled ∧
      (client.compressionEnabled = true →
        client.compressionAlgorithm = server.compressionAlgorithm ∧
          client.compressionMinPayloadSize = server.compressionMinPayloadSize) ∧
      (client.methodIdEnabled = true → server.methodIdEnabled = true ∧
        client.remoteMethodTable.version = context.methodTable.version ∧
          client.remoteMethodTable.entries = context.methodTable.entries) :=
  ⟨_, _, _, rfl, rfl, rfl, rfl, hello_agreement runLengthCodec 1
    { compression := .auto, compressionMinPayloadSize := 80 } { compression := .auto } 4
    [.upsert [97] 1] _ _ _ (by decide +kernel) rfl rfl⟩

/-! ## A client that becomes ready -/

/-- `ensureClientReady` opens a new session with features on exactly through a hello that the
client accepts, and a required feature is then on. -/
theorem ensureClientReady_ok {codec : CompressionCodec} {codecId : UInt8}
    {options : BackendOptions} {session : BackendSession}
    {exchange : MessageType → Except ErrorCode MessageType}
    (hnew : session.handshakeDone = false)
    (hextensions : clientHelloExtensions codec options ≠ [])
    (h : (ensureClientReady codec codecId options session exchange).2 = .ok ()) :
    ∃ answer client, exchange (encodeHello (clientHelloExtensions codec options) codecId) =
        .ok answer ∧ handleClientControl codec codecId session answer = (client, true) ∧
      (options.methodId = .require → client.methodIdEnabled = true) ∧
      (options.compression = .require → client.compressionEnabled = true) := by
  unfold ensureClientReady at h
  have hfeature : ¬(session.handshakeDone = true ∨
      (!options.methodId.enabled) = true ∧ (!options.compression.enabled) = true) := by
    rintro (hdone | ⟨hmethod, hcompression⟩)
    · rw [hnew] at hdone
      exact Bool.false_ne_true hdone
    · refine hextensions ?_
      unfold clientHelloExtensions
      have hmethod' : options.methodId.enabled = false := by simpa using hmethod
      have hcompression' : options.compression.enabled = false := by simpa using hcompression
      rw [hmethod', hcompression', if_neg Bool.false_ne_true,
        if_neg fun hall => Bool.false_ne_true hall.1]
  rw [if_neg hfeature] at h
  simp only at h
  rw [if_neg hextensions] at h
  cases hanswer : exchange (encodeHello (clientHelloExtensions codec options) codecId) with
  | error error =>
    rw [hanswer] at h
    exact absurd h (by simp)
  | ok answer =>
    rw [hanswer] at h
    cases hcontrol : handleClientControl codec codecId session answer with
    | mk client accepted =>
      simp only [hcontrol] at h
      split_ifs at h with haccepted hmethod hcompression
      refine ⟨answer, client, rfl, ?_, fun hrequire => ?_, fun hrequire => ?_⟩
      · rw [hcontrol, show accepted = true by simpa using haccepted]
      · simpa [hrequire] using hmethod
      · simpa [hrequire] using hcompression

end NekoProto.Rpc
