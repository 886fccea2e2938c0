import NekoProto.Rpc.MethodTableWire

/-!
# The backend: sessions, requests and method id resolution

The parts of `NekoRpcBackend` around method ids, on parsed frames: what a server publishes of its
table, what a client makes of it, the request a client encodes from its table, and the name a
server resolves the request to. Payloads are opaque here.
-/

namespace NekoProto.Rpc

/-! ## Contexts -/

/-- The fields of `NekoRpcBackend::Options` that method ids depend on, with their defaults. -/
structure Options where
  methodId : FeatureMode := .auto
  retryMethodIdErrorOnce : Bool := true
  maxAutoMethodTableExtensionBytes : ℕ := 65535
  maxMethodEntries : UInt64 := 64 * 1024
  deriving DecidableEq, Repr

/-- `ClientContext`. -/
structure ClientContext where
  options : Options
  nextId : UInt64 := 0
  deriving DecidableEq, Repr

/-- `ServerContext`. -/
structure ServerContext where
  options : Options
  methodTable : MethodIdTable

/-- The fields of `PeerSession` that method ids depend on. -/
structure PeerSession where
  handshakeDone : Bool := false
  methodIdEnabled : Bool := false
  remoteMethodTable : MethodIdTable

/-- `makeClientContext`. -/
def makeClientContext (options : Options) : ClientContext := { options := options }

/-- `makeServerContext`. -/
def makeServerContext (options : Options) (methods : List MethodMetadata) : ServerContext where
  options := options
  methodTable := MethodIdTable.reset { maxEntries := options.maxMethodEntries }
    (methodEntries methods) initialTableVersion

/-- `makeClientPeerSession`. -/
def makeClientPeerSession (context : ClientContext) : PeerSession :=
  { remoteMethodTable := { maxEntries := context.options.maxMethodEntries } }

/-- `makeServerPeerSession`. -/
def makeServerPeerSession (context : ServerContext) : PeerSession :=
  { remoteMethodTable := { maxEntries := context.options.maxMethodEntries } }

/-- `refreshMethodCatalog`. -/
def refreshMethodCatalog (context : ServerContext) (methods : List MethodMetadata) :
    ServerContext :=
  { context with methodTable := (syncMethodTable context.methodTable (methodEntries methods)).1 }

/-! ## Publishing a method table -/

/-- `NekoRpcFrameCodec::MaxExtensionBytes`. -/
def maxExtensionBytes : ℕ := 65535

/-- The loop of `_extensionWireSize`. -/
def extensionWireSizeFrom (size : ℕ) : ExtensionMap → Option ℕ
  | [] => some size
  | (_, value) :: extensions =>
    if 65535 < value.length ∨ maxExtensionBytes - 4 < size ∨
        maxExtensionBytes - value.length < size + 4 then none
    else extensionWireSizeFrom (size + (4 + value.length)) extensions

/-- `_extensionWireSize`. -/
def extensionWireSize (extensions : ExtensionMap) : Option ℕ := extensionWireSizeFrom 0 extensions

/-- `_extensionsFitAutoBudget`. -/
def extensionsFitAutoBudget (options : Options) (extensions : ExtensionMap) : Bool :=
  match extensionWireSize extensions with
  | none => false
  | some size => size ≤ min options.maxAutoMethodTableExtensionBytes maxExtensionBytes

/-- `_methodIdTableExtensions`. -/
def methodIdTableExtensions (context : ServerContext) (includeTable : Bool) : ExtensionMap :=
  let extensions : ExtensionMap := ExtensionMap.set .methodId [] []
  let extensions := ExtensionMap.set .methodTableVersion
    (integerValue 8 context.methodTable.version.toNat) extensions
  let extensions := ExtensionMap.set .methodMinimumCompatibleVersion
    (integerValue 8 context.methodTable.minimumCompatibleVersion.toNat) extensions
  if includeTable then
    ExtensionMap.set .methodTable (encodeMethodEntriesValue context.methodTable.entries) extensions
  else extensions

/-- `_methodIdErrorResponseExtensions`. -/
def methodIdErrorResponseExtensions (context : ServerContext) (session : PeerSession)
    (error : ErrorCode) : ExtensionMap :=
  if !session.methodIdEnabled ∨ !isMethodIdError error ∨ context.methodTable.entries = [] ∨
      context.options.maxAutoMethodTableExtensionBytes = 0 then []
  else
    let extensions := methodIdTableExtensions context true
    if extensionsFitAutoBudget context.options extensions then extensions
    else
      let hint := methodIdTableExtensions context false
      if extensionsFitAutoBudget context.options hint then hint else []

/-! ## Taking over a method table -/

/-- `_applyMethodIdTableExtensions`. -/
def applyMethodIdTableExtensions (session : PeerSession) (extensions : ExtensionMap) :
    PeerSession × Bool :=
  if !extensions.contains .methodTable ∧ !extensions.contains .methodTableDelta then
    (session, false)
  else
    match readIntegerTlv 8 extensions .methodTableVersion with
    | none => (session, false)
    | some version =>
      let version := UInt64.ofNat version
      let applied :=
        match parseMethodEntriesTlv extensions .methodTable with
        | some entries => session.remoteMethodTable.applyRemoteTable entries version
        | none =>
          match parseMethodEntriesTlv extensions .methodTableDelta with
          | some entries => session.remoteMethodTable.applyRemoteDelta entries version
          | none => none
      match applied with
      | none => (session, false)
      | some table =>
        let table :=
          match readIntegerTlv 8 extensions .methodMinimumCompatibleVersion with
          | some minimum => table.setMinimumCompatibleVersion (UInt64.ofNat minimum)
          | none => table
        ({ session with remoteMethodTable := table, methodIdEnabled := true }, true)

/-! ## Requests -/

/-- The id of the next request. -/
def ClientContext.allocateId (context : ClientContext) (notification : Bool) :
    ClientContext × UInt64 :=
  if notification then (context, 0)
  else if context.nextId = UInt64.ofNat (UInt64.size - 1) then ({ context with nextId := 1 }, 1)
  else ({ context with nextId := context.nextId + 1 }, context.nextId + 1)

/-- `encodeRequest` up to the request's frame. -/
def encodeRequest (codecId : UInt8) (context : ClientContext) (session : PeerSession) (name : Name)
    (notification : Bool) (payload : MessageType) : ClientContext × FrameParts :=
  let (context, id) := context.allocateId notification
  let header : Header := {
    kind := if notification then .notify else .request
    flags := 0
    codec := codecId
    id := id }
  let named : FrameParts := {
    header := header
    method := name
    extensions := []
    payload := payload }
  match (if session.methodIdEnabled then session.remoteMethodTable.findByName name else none) with
  | none => (context, named)
  | some entry =>
    let extensions := ExtensionMap.set .methodTableVersion
      (integerValue 8 session.remoteMethodTable.version.toNat) []
    let extensions := ExtensionMap.set .methodSignatureHash
      (integerValue 8 entry.signatureHash.toNat) extensions
    (context, { named with
      header := { header with flags := header.flags ||| Flag.methodId.bit }
      method := integerValue 8 entry.id.toNat
      extensions := extensions })

/-- `NekoRpcIncomingMethodName`. -/
def incomingMethodName (context : ServerContext) (session : PeerSession) (parts : FrameParts) :
    Except RpcError Name :=
  if !parts.header.has .methodId then .ok parts.method
  else if !session.methodIdEnabled ∨ parts.method.length ≠ 8 then .error .methodIdNotNegotiated
  else
    match readIntegerTlv 8 parts.extensions .methodTableVersion with
    | none => .error .methodTableOutdated
    | some version =>
      -- without the extension the hash stays 0
      let hash := (readIntegerTlv 8 parts.extensions .methodSignatureHash).getD 0
      let methodId := UInt64.ofNat (readInteger 8 parts.method 0)
      let resolved :=
        context.methodTable.resolve methodId (UInt64.ofNat version) (UInt64.ofNat hash) true
      match resolved.status, resolved.entry with
      | .ok, some entry => .ok entry.name
      | .ok, none => .error .methodIdNotFound
      | .tableOutdated, _ => .error .methodTableOutdated
      | .methodNotFound, _ => .error .methodIdNotFound
      | .methodRemoved, _ => .error .methodIdRemoved
      | .signatureMismatch, _ => .error .methodSignatureMismatch

end NekoProto.Rpc
