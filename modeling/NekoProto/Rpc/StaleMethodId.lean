import NekoProto.Rpc.Backend
import NekoProto.Rpc.MethodTableInvariant

/-!
# Stale method ids

A client encodes requests with the ids of a snapshot of the server's table, while the server's
table moves on. `incomingMethodName_of_snapshot`: whatever happens to the server's table in
between, such a request resolves to the method it was meant for, with the same hash, or is
refused with a method id error.

1. The server's table is valid from its construction on, and every update extends its entries.
2. An entry the client finds in its snapshot is an entry of the server's table (`snapshot_entry`).
3. A resolution that succeeds yields the active entry at the id, with the hash of the request
   (`resolve_ok`).
-/

namespace NekoProto.Rpc

/-! ## Runs of the server's table -/

/-- The updates of a server's table. -/
inductive TableOp
  | upsert (name : Name) (hash : UInt64)
  | remove (name : Name)
  | sync (activeEntries : List MethodEntry)

/-- The table after an update. -/
def TableOp.apply (t : MethodIdTable) : TableOp → MethodIdTable
  | .upsert name hash => (t.upsert name hash).1
  | .remove name => (t.remove name).1
  | .sync activeEntries => (syncMethodTable t activeEntries).1

/-- The server after a run of updates of its table. -/
def ServerContext.run (context : ServerContext) (ops : List TableOp) : ServerContext :=
  { context with methodTable := ops.foldl TableOp.apply context.methodTable }

/-- One update. -/
theorem apply_valid (t : MethodIdTable) (op : TableOp) (h : t.Valid) :
    (op.apply t).Valid ∧ AppendOnly.Extends Succeeds t.entries (op.apply t).entries := by
  cases op with
  | upsert name hash => exact MethodIdTable.upsert_valid h name hash
  | remove name => exact MethodIdTable.remove_valid h name
  | sync activeEntries => exact syncMethodTable_valid h activeEntries

/-- A run of updates. -/
theorem run_valid {context : ServerContext} (h : context.methodTable.Valid) (ops : List TableOp) :
    (context.run ops).methodTable.Valid ∧
      AppendOnly.Extends Succeeds context.methodTable.entries
        (context.run ops).methodTable.entries :=
  AppendOnly.Extends.foldl MethodIdTable.entries apply_valid ops _ h

theorem makeServerContext_valid (options : Options) (methods : List MethodMetadata) :
    (makeServerContext options methods).methodTable.Valid := MethodIdTable.reset_valid _ _ _

/-! ## The snapshot -/

theorem find_methodIdTableExtensions (context : ServerContext) :
    ExtensionMap.find .methodTable (methodIdTableExtensions context true) =
        some (encodeMethodEntriesValue context.methodTable.entries) ∧
      ExtensionMap.find .methodTableDelta (methodIdTableExtensions context true) = none := by
  unfold methodIdTableExtensions
  constructor
  · exact ExtensionMap.find_set_self _ _ _
  · rw [if_pos rfl]
    repeat rw [ExtensionMap.find_set_ne (by decide)]
    rfl

theorem setMinimumCompatibleVersion_valid {t : MethodIdTable} (h : t.Valid) (version : UInt64) :
    (t.setMinimumCompatibleVersion version).Valid where
  numbered := h.numbered
  length_le := h.length_le
  nextId_eq := h.nextId_eq
  known := h.known
  name_ne := h.name_ne
  index := h.index
  hash_ne := h.hash_ne
  minimum_le := by
    show (if t.version < version then t.version else version) ≤ t.version
    split_ifs with hlt
    · exact UInt64.le_refl _
    · exact UInt64.not_lt.mp hlt

/-- Taking over the table of a server leaves a valid table with its short-named entries and its
version. -/
theorem applyMethodIdTableExtensions_spec {context : ServerContext} {session₀ session : PeerSession}
    (h : applyMethodIdTableExtensions session₀ (methodIdTableExtensions context true) =
      (session, true)) :
    session.remoteMethodTable.Valid ∧
      session.remoteMethodTable.entries =
        (context.methodTable.entries.filter MethodEntry.shortName).map MethodEntry.withHash ∧
      session.remoteMethodTable.version =
        if context.methodTable.entries.filter MethodEntry.shortName = [] then 0
        else context.methodTable.version := by
  obtain ⟨htable, hdelta⟩ := find_methodIdTableExtensions context
  have hversion : readIntegerTlv 8 (methodIdTableExtensions context true) .methodTableVersion =
      some context.methodTable.version.toNat :=
    readIntegerValue_integerValue (toNat_lt_bytes _)
  unfold applyMethodIdTableExtensions at h
  rw [parseMethodEntriesTlv, parseMethodEntriesTlv, htable, hdelta, Option.bind_some,
    Option.bind_none] at h
  split_ifs at h
  · exact absurd h (by simp)
  rw [hversion] at h
  simp only [UInt64.ofNat_toNat] at h
  split at h
  · exact absurd h (by simp)
  rename_i table happlied
  cases hparse : parseMethodEntriesValue (encodeMethodEntriesValue context.methodTable.entries) with
  | none => rw [hparse] at happlied; exact absurd happlied (by simp)
  | some entries =>
    rw [hparse] at happlied
    obtain ⟨hentries, hnew, hvalid⟩ := MethodIdTable.applyRemoteTable_spec happlied
    rw [parse_encode_methodEntries hparse] at hentries hnew
    obtain rfl := congrArg Prod.fst h
    simp only
    split
    · exact ⟨setMinimumCompatibleVersion_valid hvalid _, hentries, hnew⟩
    · exact ⟨hvalid, hentries, hnew⟩

/-- **The snapshot.** What the client finds under a name is an active entry of the server. -/
theorem snapshot_entry {context : ServerContext} (hserver : context.methodTable.Valid)
    {session₀ session : PeerSession}
    (h : applyMethodIdTableExtensions session₀ (methodIdTableExtensions context true) =
      (session, true)) {name : Name} {e : MethodEntry}
    (he : session.remoteMethodTable.findByName name = some e) :
    context.methodTable.entries[e.id.toNat]? = some e ∧ e.state = .active ∧ e.name = name := by
  obtain ⟨hvalid, hentries, -⟩ := applyMethodIdTableExtensions_spec h
  obtain ⟨hget, hactive, hname⟩ := hvalid.findByName he
  have hmem := List.mem_of_getElem? hget
  rw [hentries] at hmem
  obtain ⟨x, hx, rfl⟩ := List.mem_map.mp hmem
  obtain ⟨i, hi⟩ := List.mem_iff_getElem?.mp (List.mem_of_mem_filter hx)
  obtain ⟨hid, hxname, -, hkeep⟩ := MethodIdTable.withHash_spec x
  have hne : x.name ≠ [] := by
    rw [← hxname]
    exact hvalid.name_ne hget hactive
  rw [hkeep hne (hserver.hash_ne hi hne)] at hactive hname ⊢
  rw [hserver.numbered i x hi]
  exact ⟨hi, hactive, hname⟩

/-! ## The request -/

/-- A request that carries a method id: the entry it was encoded from. -/
theorem encodeRequest_methodId {codecId : UInt8} {client : ClientContext} {session : PeerSession}
    {name : Name} {notification : Bool} {payload : MessageType}
    (h : (encodeRequest codecId client session name notification payload).2.header.has .methodId) :
    ∃ e, session.remoteMethodTable.findByName name = some e ∧
      (encodeRequest codecId client session name notification payload).2.method =
        integerValue 8 e.id.toNat ∧
      ExtensionMap.find .methodSignatureHash
          (encodeRequest codecId client session name notification payload).2.extensions =
        some (integerValue 8 e.signatureHash.toNat) := by
  unfold encodeRequest at h ⊢
  cases he : (if session.methodIdEnabled then session.remoteMethodTable.findByName name
      else none) with
  | none =>
    simp only [he] at h
    exact absurd h (by simp [Header.has])
  | some e =>
    simp only
    split_ifs at he
    exact ⟨e, he, rfl, ExtensionMap.find_set_self _ _ _⟩

theorem isMethodIdError_toErrorCode {error : RpcError}
    (h : error = .methodIdNotNegotiated ∨ error = .methodTableOutdated ∨
      error = .methodIdNotFound ∨ error = .methodIdRemoved ∨ error = .methodSignatureMismatch) :
    isMethodIdError error.toErrorCode = true := by
  rcases h with rfl | rfl | rfl | rfl | rfl <;> decide

/-- What a request with a method id comes to: a method id error, or the active entry at the id,
with the hash the request carries. -/
theorem incomingMethodName_methodId {context : ServerContext} (hcontext : context.methodTable.Valid)
    (peer : PeerSession) {parts : FrameParts} (h : parts.header.has .methodId) {id hash : UInt64}
    (hid : parts.method = integerValue 8 id.toNat)
    (hhash : ExtensionMap.find .methodSignatureHash parts.extensions =
      some (integerValue 8 hash.toNat)) :
    (∃ error, incomingMethodName context peer parts = .error error ∧
        isMethodIdError error.toErrorCode = true) ∨
      ∃ e, incomingMethodName context peer parts = .ok e.name ∧
        context.methodTable.findById id = some e ∧ e.state = .active ∧ e.signatureHash = hash := by
  have hreadId : readInteger 8 parts.method 0 = id.toNat := by
    have := readInteger_append (toNat_lt_bytes id) List.length_nil []
    rwa [List.nil_append, List.append_nil, ← hid] at this
  have hreadHash : readIntegerTlv 8 parts.extensions .methodSignatureHash = some hash.toNat := by
    rw [readIntegerTlv, hhash, Option.bind_some,
      readIntegerValue_integerValue (toNat_lt_bytes hash)]
  unfold incomingMethodName
  rw [if_neg (by simp [h])]
  split_ifs
  · exact Or.inl ⟨_, rfl, isMethodIdError_toErrorCode (by simp)⟩
  split
  · exact Or.inl ⟨_, rfl, isMethodIdError_toErrorCode (by simp)⟩
  rename_i version _
  simp only [hreadHash, hreadId, Option.getD_some, UInt64.ofNat_toNat]
  split
  · rename_i hstatus hentry
    obtain ⟨e, he, hentry', hactive, hhash'⟩ := MethodIdTable.resolve_ok hcontext hstatus
    obtain rfl := Option.some.inj (hentry.symm.trans hentry')
    exact Or.inr ⟨_, rfl, he, hactive, hhash'⟩
  all_goals exact Or.inl ⟨_, rfl, isMethodIdError_toErrorCode (by simp)⟩

/-! ## Stale method ids are safe -/

/-- **Stale method ids.** Take a server's table after any run of updates, a client that takes it
over, and the server after any further run. Every id keeps its name and hash. A request the client
encodes with an id is refused with a method id error, or resolves to the active entry at that id,
which has the name and the hash of the client's entry. -/
theorem stale_method_id_safe (options : Options) (methods : List MethodMetadata)
    (before after : List TableOp) :
    let taken := (makeServerContext options methods).run before
    let current := taken.run after
    (∀ id x, taken.methodTable.findById id = some x →
      ∃ y, current.methodTable.findById id = some y ∧ y.id = x.id ∧ y.name = x.name ∧
        y.signatureHash = x.signatureHash) ∧
    ∀ (session₀ session peer : PeerSession) (codecId : UInt8) (client : ClientContext)
      (name : Name) (notification : Bool) (payload : MessageType),
      applyMethodIdTableExtensions session₀ (methodIdTableExtensions taken true) =
        (session, true) →
      (encodeRequest codecId client session name notification payload).2.header.has .methodId →
      (∃ error, incomingMethodName current peer
            (encodeRequest codecId client session name notification payload).2 = .error error ∧
          isMethodIdError error.toErrorCode = true) ∨
        ∃ x y, session.remoteMethodTable.findByName name = some x ∧
          current.methodTable.findById x.id = some y ∧ y.state = .active ∧ y.name = name ∧
          y.signatureHash = x.signatureHash ∧
          incomingMethodName current peer
            (encodeRequest codecId client session name notification payload).2 = .ok name := by
  intro taken current
  have htaken := (run_valid (makeServerContext_valid options methods) before).1
  have hext := (run_valid htaken after).2
  refine ⟨?_, ?_⟩
  · intro id x hx
    obtain ⟨y, hy, hxy⟩ := hext id.toNat x hx
    exact ⟨y, hy, hxy.id_eq, hxy.name_eq, hxy.hash_eq⟩
  · intro session₀ session peer codecId client name notification payload hsnap hflag
    obtain ⟨x, hx, hmethod, hhash⟩ := encodeRequest_methodId hflag
    obtain ⟨hget, -, hname⟩ := snapshot_entry htaken hsnap hx
    have hcurrent := (run_valid htaken after).1
    rcases incomingMethodName_methodId hcurrent peer hflag hmethod hhash with herror | hok
    · exact Or.inl herror
    · obtain ⟨y, hresolved, hfind, hactive, hhash'⟩ := hok
      -- the entry at the id is the successor of the one in the snapshot
      obtain ⟨y', hy', hsucc⟩ := hext x.id.toNat x hget
      obtain rfl : y = y' := Option.some.inj (hfind.symm.trans hy')
      have hname' : y.name = name := hsucc.name_eq.trans hname
      exact Or.inr ⟨x, y, hx, hfind, hactive, hname', hhash', hname' ▸ hresolved⟩

/-- A server with one method. -/
def pingServer : ServerContext := makeServerContext {} [⟨[112], []⟩]

/-- A client that has taken over the table of `pingServer`. -/
def pingSession : PeerSession :=
  (applyMethodIdTableExtensions (makeClientPeerSession (makeClientContext {}))
    (methodIdTableExtensions pingServer true)).1

theorem stale_method_id_safe_ping :
    (∃ error, incomingMethodName (pingServer.run [.remove [112]]) pingSession
          (encodeRequest 0 (makeClientContext {}) pingSession [112] false []).2 = .error error ∧
        isMethodIdError error.toErrorCode = true) ∨
      ∃ x y, pingSession.remoteMethodTable.findByName [112] = some x ∧
        (pingServer.run [.remove [112]]).methodTable.findById x.id = some y ∧
        y.state = .active ∧ y.name = [112] ∧ y.signatureHash = x.signatureHash ∧
        incomingMethodName (pingServer.run [.remove [112]]) pingSession
          (encodeRequest 0 (makeClientContext {}) pingSession [112] false []).2 = .ok [112] :=
  (stale_method_id_safe {} [⟨[112], []⟩] [] [.remove [112]]).2
    (makeClientPeerSession (makeClientContext {})) pingSession pingSession 0
    (makeClientContext {}) [112] false []
    (Prod.ext rfl (by decide +kernel)) (by decide +kernel)

end NekoProto.Rpc
