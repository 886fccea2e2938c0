import NekoProto.Rpc.Frame
import Mathlib.Logic.Function.Basic

/-!
# Method id tables

`NekoRpcMethodIdTable` and the synchronisation of `backend_method_id.hpp`. The ids of a table are
the positions of its entries. A removed method leaves a tombstone, so that its id is not given
away again; the name index maps the active names to their ids.
-/

namespace NekoProto.Rpc

/-- A method name (`std::string`). -/
abbrev Name := List UInt8

/-- `NekoRpcMethodState`: the enumerators, and the other values of `std::uint8_t`. -/
inductive MethodState
  | active | removed
  | other (value : UInt8) (h : 1 < value)
  deriving DecidableEq, Repr

/-- `NekoRpcMethodEntry`, with its defaults. -/
structure MethodEntry where
  id : UInt64 := 0
  name : Name := []
  signatureHash : UInt64 := 0
  state : MethodState := .active
  deriving DecidableEq, Repr

/-- `NekoRpcMethodIdResolveStatus`. -/
inductive ResolveStatus
  | ok | tableOutdated | methodNotFound | methodRemoved | signatureMismatch
  deriving DecidableEq, Repr

/-- `NekoRpcMethodIdResolution`. -/
structure Resolution where
  status : ResolveStatus := .methodNotFound
  entry : Option MethodEntry := none
  currentVersion : UInt64 := 0
  deriving DecidableEq, Repr

/-- The members of `NekoRpcMethodIdTable`. -/
structure MethodIdTable where
  version : UInt64 := 0
  minimumCompatibleVersion : UInt64 := 0
  nextId : UInt64 := 0
  entries : List MethodEntry := []
  nameToId : Name → Option UInt64 := fun _ => none
  maxEntries : UInt64

/-- `NekoRpcMethodIdExtension::InitialTableVersion`. -/
def initialTableVersion : UInt64 := 1

/-- The `update` of `signatureHash`: 64-bit FNV-1a over some bytes. -/
def hashUpdate (hash : UInt64) (bytes : Name) : UInt64 :=
  bytes.foldl (fun hash ch => (hash ^^^ ch.toUInt64) * 1099511628211) hash

/-- `signatureHash`. -/
def MethodIdTable.signatureHash (name signature : Name) : UInt64 :=
  let hash := hashUpdate 14695981039346656037 name
  let hash := (hash ^^^ 0) * 1099511628211
  let hash := hashUpdate hash signature
  if hash = 0 then 1 else hash

/-- The hash `upsert` and the remote updates fall back to. -/
def MethodEntry.withHash (entry : MethodEntry) : MethodEntry :=
  if entry.signatureHash = 0 ∧ entry.name ≠ [] then
    { entry with signatureHash := MethodIdTable.signatureHash entry.name [] }
  else entry

namespace MethodIdTable

/-- `reset()`. -/
def clear (t : MethodIdTable) : MethodIdTable := { maxEntries := t.maxEntries }

/-- `findById`. -/
def findById (t : MethodIdTable) (id : UInt64) : Option MethodEntry := t.entries[id.toNat]?

/-- `findByName`. -/
def findByName (t : MethodIdTable) (name : Name) : Option MethodEntry :=
  (t.nameToId name).bind t.findById

/-- `_installEntry`; `none` is the result `false`. -/
def installEntry (t : MethodIdTable) (entry : MethodEntry) : Option MethodIdTable :=
  if t.maxEntries ≤ entry.id then none
  else
    let entries :=
      t.entries ++ List.replicate (entry.id.toNat + 1 - t.entries.length) ({} : MethodEntry)
    some { t with
      nextId := if t.nextId ≤ entry.id then entry.id + 1 else t.nextId
      entries := entries.set entry.id.toNat entry }

/-- The loop body of `_rebuildIndex`. -/
def indexEntry (t : MethodIdTable) (entry : MethodEntry) : MethodIdTable :=
  { t with
    nameToId :=
      if entry.state = .active ∧ entry.name ≠ [] then
        Function.update t.nameToId entry.name (some entry.id)
      else t.nameToId
    nextId := if t.nextId ≤ entry.id then entry.id + 1 else t.nextId }

/-- `_rebuildIndex`. -/
def rebuildIndex (t : MethodIdTable) : MethodIdTable :=
  t.entries.foldl indexEntry { t with nameToId := fun _ => none, nextId := 0 }

/-- `_bumpVersion`. -/
def bumpVersion (t : MethodIdTable) : MethodIdTable :=
  if t.version = 0 then
    { t with
      version := initialTableVersion
      minimumCompatibleVersion := initialTableVersion }
  else if t.version ≠ UInt64.ofNat (UInt64.size - 1) then { t with version := t.version + 1 }
  else t

/-- The loop of `_validTable`, over the entries from `index` on, with the active names met. -/
def validEntries (t : MethodIdTable) (requireContiguousIds : Bool) :
    ℕ → List Name → List MethodEntry → Bool
  | _, _, [] => true
  | index, activeNames, entry :: entries =>
    if t.maxEntries ≤ entry.id ∨ (entry.state ≠ .active ∧ entry.state ≠ .removed) ∨
        (requireContiguousIds ∧ entry.id.toNat ≠ index) then false
    else if entry.state = .active then
      if entry.name = [] ∨ entry.name ∈ activeNames then false
      else validEntries t requireContiguousIds (index + 1) (entry.name :: activeNames) entries
    else validEntries t requireContiguousIds (index + 1) activeNames entries

/-- `_validTable`. -/
def validTable (t : MethodIdTable) (entries : List MethodEntry) (version : UInt64)
    (requireContiguousIds : Bool) : Bool :=
  if t.maxEntries.toNat < entries.length ∨ (entries ≠ [] ∧ version = 0) then false
  else t.validEntries requireContiguousIds 0 [] entries

/-- `_resetValidated`. -/
def resetValidated (t : MethodIdTable) (entries : List MethodEntry) (version : UInt64) :
    MethodIdTable :=
  let version := if entries = [] then 0 else version
  let t := { t with
    entries := []
    nameToId := fun _ => none
    nextId := 0
    version := version
    minimumCompatibleVersion := version }
  let t := entries.foldl (fun t entry => (t.installEntry entry.withHash).getD t) t
  t.rebuildIndex

/-- `reset(entries, version)`. -/
def reset (t : MethodIdTable) (entries : List MethodEntry) (version : UInt64) : MethodIdTable :=
  if t.validTable entries version true then t.resetValidated entries version else t.clear

/-- `applyRemoteTable`; `none` is the result `false`, which leaves the table as it was. -/
def applyRemoteTable (t : MethodIdTable) (entries : List MethodEntry) (version : UInt64) :
    Option MethodIdTable :=
  if t.validTable entries version true then
    let candidate : MethodIdTable := { maxEntries := t.maxEntries }
    some (candidate.resetValidated entries version)
  else none

/-- The loop of `applyRemoteDelta`, with the ids it has seen. -/
def installDelta : MethodIdTable → List UInt64 → List MethodEntry → Option MethodIdTable
  | candidate, _, [] => some candidate
  | candidate, seenIds, entry :: entries =>
    if entry.id ∈ seenIds then none
    else
      match candidate.installEntry entry.withHash with
      | none => none
      | some candidate => installDelta candidate (entry.id :: seenIds) entries

/-- `applyRemoteDelta`; `none` is the result `false`, which leaves the table as it was. -/
def applyRemoteDelta (t : MethodIdTable) (entries : List MethodEntry) (version : UInt64) :
    Option MethodIdTable :=
  if version = 0 ∨ (t.version ≠ 0 ∧ version < t.version) then none
  else if t.maxEntries.toNat < entries.length then none
  else
    match t.installDelta [] entries with
    | none => none
    | some candidate =>
      let candidate := { candidate with
        version := version
        minimumCompatibleVersion :=
          if candidate.minimumCompatibleVersion = 0 then version
          else candidate.minimumCompatibleVersion }
      let candidate := candidate.rebuildIndex
      if candidate.validTable candidate.entries version true then some candidate else none

/-- Turning the entry of an indexed name into a tombstone and taking the name out of the index.
`mEntries` is accessed without a bounds check; the index only holds ids of entries. -/
def tombstone (t : MethodIdTable) (name : Name) (id : UInt64) : MethodIdTable :=
  { t with
    entries := t.entries.modify id.toNat (fun entry => { entry with state := .removed })
    nameToId := Function.update t.nameToId name none }

/-- The part of `upsert` that appends a new entry. -/
def append (t : MethodIdTable) (name : Name) (hash : UInt64) :
    MethodIdTable × Option MethodEntry :=
  if t.maxEntries ≤ t.nextId then (t, none)
  else
    let entry : MethodEntry := { id := t.nextId, name := name, signatureHash := hash }
    match t.installEntry entry with
    | none => (t, none)
    | some t =>
      let t := t.bumpVersion.rebuildIndex
      (t, t.findById entry.id)

/-- `upsert`. -/
def upsert (t : MethodIdTable) (name : Name) (hash : UInt64) :
    MethodIdTable × Option MethodEntry :=
  if name = [] then (t, none)
  else
    let hash := if hash = 0 then signatureHash name [] else hash
    match t.nameToId name with
    | none => t.append name hash
    | some id =>
      let current := t.entries.getD id.toNat ({} : MethodEntry)
      if current.signatureHash = hash ∧ current.state = .active then (t, some current)
      else (t.tombstone name id).append name hash

/-- `remove`. -/
def remove (t : MethodIdTable) (name : Name) : MethodIdTable × Bool :=
  match t.nameToId name with
  | none => (t, false)
  | some id => ((t.tombstone name id).bumpVersion, true)

/-- `resolve`. -/
def resolve (t : MethodIdTable) (id clientVersion hash : UInt64) (requireSignatureHash : Bool) :
    Resolution :=
  if clientVersion < t.minimumCompatibleVersion ∨ t.version < clientVersion ∨
      clientVersion = 0 then
    { status := .tableOutdated, currentVersion := t.version }
  else
    match t.findById id with
    | none => { status := .methodNotFound, currentVersion := t.version }
    | some entry =>
      if entry.name = [] then { status := .methodNotFound, currentVersion := t.version }
      else if entry.state = .removed then
        { status := .methodRemoved, entry := some entry, currentVersion := t.version }
      else if requireSignatureHash ∧ hash ≠ entry.signatureHash then
        { status := .signatureMismatch, entry := some entry, currentVersion := t.version }
      else { status := .ok, entry := some entry, currentVersion := t.version }

/-- `setMinimumCompatibleVersion`. -/
def setMinimumCompatibleVersion (t : MethodIdTable) (version : UInt64) : MethodIdTable :=
  { t with
    minimumCompatibleVersion := if t.version < version then t.version else version }

end MethodIdTable

/-! ## Synchronisation -/

/-- The metadata of a registered method (`RpcMethodMetadata`). -/
structure MethodMetadata where
  name : Name
  signature : Name
  deriving DecidableEq, Repr

/-- `NekoRpcMethodEntries`, with the ids from `id` on. -/
def methodEntriesFrom (id : UInt64) : List MethodMetadata → List MethodEntry
  | [] => []
  | method :: methods =>
    { id := id
      name := method.name
      signatureHash := MethodIdTable.signatureHash method.name method.signature } ::
      methodEntriesFrom (id + 1) methods

/-- `NekoRpcMethodEntries`. -/
def methodEntries (methods : List MethodMetadata) : List MethodEntry := methodEntriesFrom 0 methods

/-- The body of the first loop of `NekoRpcSyncMethodTable`, on the table and the delta. -/
def syncActive (s : MethodIdTable × List MethodEntry) (entry : MethodEntry) :
    MethodIdTable × List MethodEntry :=
  let (table, delta) := s
  let upsert :=
    let (table, updated) := table.upsert entry.name entry.signatureHash
    (table, delta ++ updated.toList)
  match table.findByName entry.name with
  | none => upsert
  | some current =>
    if current.state = .active ∧ current.signatureHash = entry.signatureHash then (table, delta)
    else upsert

/-- The body of the last loop of `NekoRpcSyncMethodTable`. -/
def syncRemoved (s : MethodIdTable × List MethodEntry) (name : Name) :
    MethodIdTable × List MethodEntry :=
  let (table, delta) := s
  match table.findByName name with
  | none => (table, delta)
  | some current =>
    let (table, removed) := table.remove name
    if removed then (table, delta ++ (table.findById current.id).toList) else (table, delta)

/-- The names `NekoRpcSyncMethodTable` removes: active in the table, no longer registered. -/
def removedNames (table : MethodIdTable) (activeEntries : List MethodEntry) : List Name :=
  (table.entries.filter fun current =>
    current.state = .active ∧ current.name ≠ [] ∧
      ¬activeEntries.any fun entry => entry.name = current.name).map MethodEntry.name

/-- `NekoRpcSyncMethodTable`: the new table and the delta. -/
def syncMethodTable (table : MethodIdTable) (activeEntries : List MethodEntry) :
    MethodIdTable × List MethodEntry :=
  let s := activeEntries.foldl syncActive (table, [])
  (removedNames s.1 activeEntries).foldl syncRemoved s

end NekoProto.Rpc
