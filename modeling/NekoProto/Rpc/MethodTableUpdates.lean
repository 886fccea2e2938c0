import NekoProto.Rpc.StaleMethodId

/-!
# Runs of updates of a method table

The six mutators of a table in any order and with any arguments, remote data included.

1. A remote delta installs its entries one by one (`installDelta_append`), each leaves the other
   places alone (`installEntry_getElem?_ne`), and what passes `_validTable` in the end is a valid
   table (`applyRemoteDelta_spec`).
2. Every update keeps `MethodIdTable.Valid` and the capacity (`TableUpdate.apply_valid`), so every
   run does (`updates_valid`), and a refused remote update changes nothing.
3. An `upsert` for which there is no room changes nothing either, unless it was to replace an
   entry, which is retired before the room is looked at (`upsert_none_eq_iff`).
-/

namespace NekoProto.Rpc

namespace MethodIdTable

/-! ## Installing a delta -/

/-- An installed entry. -/
theorem installEntry_eq_some {t t' : MethodIdTable} {entry : MethodEntry} :
    t.installEntry entry = some t' ↔ entry.id.toNat < t.maxEntries.toNat ∧
      t' = { t with
        nextId := if t.nextId ≤ entry.id then entry.id + 1 else t.nextId
        entries := (t.entries ++ List.replicate (entry.id.toNat + 1 - t.entries.length)
          ({} : MethodEntry)).set entry.id.toNat entry } := by
  unfold installEntry
  by_cases hmax : t.maxEntries ≤ entry.id
  · rw [if_pos hmax]
    rw [UInt64.le_iff_toNat_le] at hmax
    simp only [reduceCtorEq, false_iff, not_and]
    omega
  · rw [if_neg hmax]
    rw [UInt64.le_iff_toNat_le] at hmax
    exact ⟨fun h => ⟨by omega, (Option.some.inj h).symm⟩, fun h => congrArg some h.2.symm⟩

/-- An installed entry leaves the version window and the capacity alone. -/
theorem installEntry_window {t t' : MethodIdTable} {entry : MethodEntry}
    (h : t.installEntry entry = some t') :
    t'.version = t.version ∧ t'.minimumCompatibleVersion = t.minimumCompatibleVersion ∧
      t'.maxEntries = t.maxEntries := by
  obtain ⟨-, rfl⟩ := installEntry_eq_some.mp h
  exact ⟨rfl, rfl, rfl⟩

/-- The entries after an installation: those from before, the new one, and blanks in the gap. -/
theorem mem_of_installEntry {t t' : MethodIdTable} {entry x : MethodEntry}
    (h : t.installEntry entry = some t') (hx : x ∈ t'.entries) :
    x ∈ t.entries ∨ x = entry ∨ x = {} := by
  obtain ⟨-, rfl⟩ := installEntry_eq_some.mp h
  rcases List.mem_or_eq_of_mem_set hx with hx | rfl
  · rcases List.mem_append.mp hx with hx | hx
    · exact Or.inl hx
    · exact Or.inr (Or.inr (List.eq_of_mem_replicate hx))
  · exact Or.inr (Or.inl rfl)

/-- Every entry of a list that has a name has a hash. -/
def Hashed (es : List MethodEntry) : Prop := ∀ e ∈ es, e.name ≠ [] → e.signatureHash ≠ 0

theorem Valid.hashed {t : MethodIdTable} (h : t.Valid) : Hashed t.entries := by
  intro e he
  obtain ⟨i, hi⟩ := List.mem_iff_getElem?.mp he
  exact h.hash_ne hi

/-- What a whole delta leaves alone. -/
theorem installDelta_spec {es : List MethodEntry} : ∀ {t t' : MethodIdTable} {seen : List UInt64},
    t.installDelta seen es = some t' → t'.version = t.version ∧
      t'.minimumCompatibleVersion = t.minimumCompatibleVersion ∧ t'.maxEntries = t.maxEntries ∧
      (Hashed t.entries → Hashed t'.entries) := by
  induction es with
  | nil =>
    intro t t' seen h
    obtain rfl := Option.some.inj h
    exact ⟨rfl, rfl, rfl, id⟩
  | cons e es ih =>
    intro t t' seen h
    unfold installDelta at h
    split_ifs at h with hseen
    cases hinstall : t.installEntry e.withHash with
    | none => rw [hinstall] at h; exact absurd h (by simp)
    | some t₁ =>
      rw [hinstall] at h
      obtain ⟨hversion, hmin, hmax, hhashed⟩ := ih h
      obtain ⟨hversion₁, hmin₁, hmax₁⟩ := installEntry_window hinstall
      refine ⟨hversion.trans hversion₁, hmin.trans hmin₁, hmax.trans hmax₁, fun ht => hhashed ?_⟩
      intro x hx hname
      rcases mem_of_installEntry hinstall hx with hx | rfl | rfl
      · exact ht x hx hname
      · exact withHash_ne_zero hname
      · exact absurd rfl hname

/-- **An accepted delta.** The new table is valid, has the version of the delta and the entries
the installation left. -/
theorem applyRemoteDelta_spec {t t' : MethodIdTable} (ht : t.Valid) {es : List MethodEntry}
    {version : UInt64} (h : t.applyRemoteDelta es version = some t') :
    t'.Valid ∧ version ≠ 0 ∧ t'.version = version ∧ t'.maxEntries = t.maxEntries ∧
      t'.minimumCompatibleVersion =
        (if t.minimumCompatibleVersion = 0 then version else t.minimumCompatibleVersion) ∧
      ∃ candidate, t.installDelta [] es = some candidate ∧ t'.entries = candidate.entries := by
  unfold applyRemoteDelta at h
  split_ifs at h with hversion hlen
  cases hdelta : t.installDelta [] es with
  | none => rw [hdelta] at h; exact absurd h (by simp)
  | some c =>
    rw [hdelta] at h
    obtain ⟨-, hmin, hmax, hhashed⟩ := installDelta_spec hdelta
    simp only [hmin] at h
    have hwindow : (if t.minimumCompatibleVersion = 0 then version
        else t.minimumCompatibleVersion) ≤ version := by
      rw [not_or, not_and] at hversion
      split_ifs with hzero
      · exact UInt64.le_refl _
      · have hle := ht.minimum_le
        by_cases hfresh : t.version = 0
        · rw [hfresh, UInt64.le_iff_toNat_le, UInt64.toNat_zero] at hle
          exact absurd (UInt64.toNat_inj.mp (by rw [UInt64.toNat_zero]; omega)) hzero
        · exact UInt64.le_trans hle (UInt64.not_lt.mp (hversion.2 hfresh))
    generalize (if t.minimumCompatibleVersion = 0 then version
      else t.minimumCompatibleVersion) = minimum at h hwindow ⊢
    split_ifs at h with hvalid
    obtain rfl := Option.some.inj h
    rw [validTable_iff, rebuildIndex_entries] at hvalid
    obtain ⟨hlength, -, hn, hu⟩ := hvalid
    rw [rebuildIndex_eq] at hlength
    refine ⟨rebuildIndex_valid hn hu hlength (fun {i e} he => ?_) hwindow,
      fun hzero => hversion (Or.inl hzero), ?_, ?_, ?_, c, rfl, rebuildIndex_entries _⟩
    · exact hhashed ht.hashed e (List.mem_of_getElem? he)
    · rw [rebuildIndex_eq]
    · rw [rebuildIndex_eq]
      exact hmax
    · rw [rebuildIndex_eq]

/-! ## The capacity -/

theorem append_maxEntries {t : MethodIdTable} (h : t.Valid) (name : Name) (hash : UInt64) :
    (t.append name hash).1.maxEntries = t.maxEntries := by
  rcases append_cases h name hash with ⟨heq, -⟩ | ⟨-, heq, -⟩
  · rw [heq]
  · rw [heq, rebuildIndex_eq]
    exact (bumpVersion_spec _).2.2.2

theorem upsert_maxEntries {t : MethodIdTable} (h : t.Valid) (name : Name) (hash : UInt64) :
    (t.upsert name hash).1.maxEntries = t.maxEntries := by
  unfold upsert
  split_ifs
  · rfl
  all_goals
    simp only
    cases hid : t.nameToId name with
    | none => exact append_maxEntries h name _
    | some id =>
      simp only
      split_ifs
      · rfl
      · exact append_maxEntries (h.tombstone hid) name _

theorem remove_maxEntries (t : MethodIdTable) (name : Name) :
    (t.remove name).1.maxEntries = t.maxEntries := by
  unfold remove
  cases t.nameToId name with
  | none => rfl
  | some id => exact (bumpVersion_spec _).2.2.2

theorem reset_maxEntries (t : MethodIdTable) (es : List MethodEntry) (version : UInt64) :
    (t.reset es version).maxEntries = t.maxEntries := by
  unfold reset
  split_ifs with h
  · exact (resetValidated_spec h).2.2.1
  · rfl

theorem applyRemoteTable_maxEntries {t t' : MethodIdTable} {es : List MethodEntry}
    {version : UInt64} (h : t.applyRemoteTable es version = some t') :
    t'.maxEntries = t.maxEntries := by
  unfold applyRemoteTable at h
  split_ifs at h with hvalid
  obtain rfl := Option.some.inj h
  exact (resetValidated_spec (t := { maxEntries := t.maxEntries })
    ((validTable_iff _ es version).mpr ((validTable_iff t es version).mp hvalid))).2.2.1

end MethodIdTable

/-! ## Runs -/

/-- A call of one of the mutators. -/
inductive TableUpdate
  | clear
  | reset (entries : List MethodEntry) (version : UInt64)
  | applyRemoteTable (entries : List MethodEntry) (version : UInt64)
  | applyRemoteDelta (entries : List MethodEntry) (version : UInt64)
  | upsert (name : Name) (hash : UInt64)
  | remove (name : Name)
  | setMinimumCompatibleVersion (version : UInt64)

namespace TableUpdate

/-- The updates that take a peer's data. -/
def isRemote : TableUpdate → Bool
  | applyRemoteTable .. | applyRemoteDelta .. => true
  | _ => false

/-- What a remote update leaves in the table, and its result. -/
def assign (t : MethodIdTable) : Option MethodIdTable → MethodIdTable × Bool
  | some candidate => (candidate, true)
  | none => (t, false)

/-- The table after a call, and whether the call succeeded. -/
def apply (t : MethodIdTable) : TableUpdate → MethodIdTable × Bool
  | clear => (t.clear, true)
  | reset entries version => (t.reset entries version, true)
  | applyRemoteTable entries version => assign t (t.applyRemoteTable entries version)
  | applyRemoteDelta entries version => assign t (t.applyRemoteDelta entries version)
  | upsert name hash => ((t.upsert name hash).1, (t.upsert name hash).2.isSome)
  | remove name => t.remove name
  | setMinimumCompatibleVersion version => (t.setMinimumCompatibleVersion version, true)

/-- A refused remote update. -/
theorem apply_refused {t : MethodIdTable} {op : TableUpdate} (hop : op.isRemote = true)
    (h : (op.apply t).2 = false) : (op.apply t).1 = t := by
  have hassign : ∀ r, (assign t r).2 = false → (assign t r).1 = t := by
    intro r hr
    cases r with
    | none => rfl
    | some candidate => exact absurd hr (by simp [assign])
  cases op with
  | applyRemoteTable entries version => exact hassign _ h
  | applyRemoteDelta entries version => exact hassign _ h
  | _ => exact absurd hop (by simp [isRemote])

/-- **One update** keeps the invariant and the capacity. -/
theorem apply_valid {t : MethodIdTable} (h : t.Valid) (op : TableUpdate) :
    (op.apply t).1.Valid ∧ (op.apply t).1.maxEntries = t.maxEntries := by
  have hassign : ∀ r : Option MethodIdTable,
      (∀ t', r = some t' → t'.Valid ∧ t'.maxEntries = t.maxEntries) →
      (assign t r).1.Valid ∧ (assign t r).1.maxEntries = t.maxEntries := by
    intro r hr
    cases r with
    | none => exact ⟨h, rfl⟩
    | some candidate => exact hr candidate rfl
  cases op with
  | clear => exact ⟨t.clear_valid, rfl⟩
  | reset entries version => exact ⟨t.reset_valid _ _, t.reset_maxEntries _ _⟩
  | applyRemoteTable entries version =>
    exact hassign _ fun t' ht' => ⟨(MethodIdTable.applyRemoteTable_spec ht').2.2,
      MethodIdTable.applyRemoteTable_maxEntries ht'⟩
  | applyRemoteDelta entries version =>
    refine hassign _ fun t' ht' => ?_
    obtain ⟨hvalid, -, -, hmax, -⟩ := MethodIdTable.applyRemoteDelta_spec h ht'
    exact ⟨hvalid, hmax⟩
  | upsert name hash =>
    exact ⟨(MethodIdTable.upsert_valid h name hash).1, MethodIdTable.upsert_maxEntries h name hash⟩
  | remove name =>
    exact ⟨(MethodIdTable.remove_valid h name).1, t.remove_maxEntries name⟩
  | setMinimumCompatibleVersion version => exact ⟨setMinimumCompatibleVersion_valid h version, rfl⟩

end TableUpdate

/-- The table after some updates. -/
def MethodIdTable.updates (t : MethodIdTable) (ops : List TableUpdate) : MethodIdTable :=
  ops.foldl (fun t op => (op.apply t).1) t

/-- A run of updates. -/
theorem updates_valid {ops : List TableUpdate} : ∀ {t : MethodIdTable}, t.Valid →
    (t.updates ops).Valid ∧ (t.updates ops).maxEntries = t.maxEntries := by
  induction ops with
  | nil => intro t h; exact ⟨h, rfl⟩
  | cons op ops ih =>
    intro t h
    obtain ⟨hvalid, hmax⟩ := op.apply_valid h
    obtain ⟨hvalid', hmax'⟩ := ih hvalid
    exact ⟨hvalid', hmax'.trans hmax⟩

/-- The index of a valid table, in terms of the entries. -/
theorem MethodIdTable.Valid.nameToId_iff {t : MethodIdTable} (h : t.Valid) (name : Name)
    (id : UInt64) : t.nameToId name = some id ↔
      name ≠ [] ∧ ∃ e ∈ t.entries, e.state = .active ∧ e.name = name ∧ e.id = id := by
  rw [h.index]
  constructor
  · rintro ⟨e, he, hactive, rfl⟩
    exact ⟨h.name_ne he hactive, e, List.mem_of_getElem? he, hactive, rfl,
      UInt64.toNat_inj.mp (h.numbered _ _ he)⟩
  · rintro ⟨-, e, he, hactive, rfl, rfl⟩
    obtain ⟨i, hi⟩ := List.mem_iff_getElem?.mp he
    exact ⟨e, by rw [h.numbered i e hi]; exact hi, hactive, rfl⟩

/-- **The method table invariant.** After any updates of a new table: the ids are the positions,
the capacity is kept, the next id is the number of entries, each entry is active or a tombstone, the
index maps the names of the active entries to their ids, each name once, and the minimum compatible
version is not ahead of the version; and a remote update that is refused leaves the table as it
was. -/
theorem method_table_invariant (maxEntries : UInt64) (ops : List TableUpdate) :
    let t := MethodIdTable.updates { maxEntries := maxEntries } ops
    (∀ (i : ℕ) (e : MethodEntry), t.entries[i]? = some e → e.id.toNat = i) ∧
    t.entries.length ≤ maxEntries.toNat ∧ t.maxEntries = maxEntries ∧
    t.nextId.toNat = t.entries.length ∧
    (∀ e ∈ t.entries, e.state ≠ .active → e.state = .removed) ∧
    (∀ name id, t.nameToId name = some id ↔
      name ≠ [] ∧ ∃ e ∈ t.entries, e.state = .active ∧ e.name = name ∧ e.id = id) ∧
    (∀ e ∈ t.entries, ∀ e' ∈ t.entries, e.state = .active → e'.state = .active →
      e.name = e'.name → e = e') ∧
    t.minimumCompatibleVersion ≤ t.version ∧
    ∀ op : TableUpdate, op.isRemote = true → (op.apply t).2 = false → (op.apply t).1 = t := by
  intro t
  obtain ⟨hvalid, hmax⟩ : t.Valid ∧ t.maxEntries = maxEntries :=
    updates_valid (MethodIdTable.clear_valid { maxEntries := maxEntries })
  refine ⟨hvalid.numbered, hmax ▸ hvalid.length_le, hmax, hvalid.nextId_eq, ?_,
    hvalid.nameToId_iff, ?_, hvalid.minimum_le, fun op => TableUpdate.apply_refused⟩
  · intro e he
    obtain ⟨i, hi⟩ := List.mem_iff_getElem?.mp he
    exact hvalid.known hi
  · intro e he e' he' hactive hactive' hname
    obtain ⟨i, hi⟩ := List.mem_iff_getElem?.mp he
    obtain ⟨j, hj⟩ := List.mem_iff_getElem?.mp he'
    obtain rfl := hvalid.unambiguous.unique hi hj hactive hactive' hname
    exact Option.some.inj (hi.symm.trans hj)

/-! ## Failed upserts -/

namespace MethodIdTable

/-- The hash that `upsert` gives an entry. -/
def upsertHash (name : Name) (hash : UInt64) : UInt64 :=
  if hash = 0 then signatureHash name [] else hash

/-- The name is in use with another hash, so `upsert` has an entry to replace. -/
def Replaces (t : MethodIdTable) (name : Name) (hash : UInt64) : Prop :=
  ∃ current, t.findByName name = some current ∧ current.signatureHash ≠ upsertHash name hash

/-- Appending fails exactly where the table is full. -/
theorem append_snd_eq_none {t : MethodIdTable} (h : t.Valid) (name : Name) (hash : UInt64) :
    (t.append name hash).2 = none ↔ t.maxEntries ≤ t.nextId := by
  constructor
  · intro hnone
    by_contra hroom
    have hinstall : t.installEntry { id := t.nextId, name := name, signatureHash := hash } = _ :=
      installEntry_eq h.nextId_eq hroom
    unfold append at hnone
    rw [if_neg hroom] at hnone
    simp only [hinstall, UInt64.le_refl, if_true] at hnone
    unfold findById at hnone
    rw [rebuildIndex_entries, (bumpVersion_spec _).1, h.nextId_eq] at hnone
    simp at hnone
  · intro hfull
    unfold append
    rw [if_pos hfull]

/-- The entry that a name is indexed to. -/
theorem Valid.current {t : MethodIdTable} (h : t.Valid) {name : Name} {id : UInt64}
    (hid : t.nameToId name = some id) :
    ∃ current, t.findByName name = some current ∧
      t.entries.getD id.toNat ({} : MethodEntry) = current ∧ current.state = .active := by
  obtain ⟨current, hcurrent, hactive, -⟩ := (h.index _ _).mp hid
  refine ⟨current, ?_, ?_, hactive⟩
  · unfold MethodIdTable.findByName
    rw [hid]
    exact hcurrent
  · rw [List.getD_eq_getElem?_getD, hcurrent, Option.getD_some]

/-- **Upsert**, by what there is to do: nothing, an entry to append, or one to replace. -/
theorem upsert_cases {t : MethodIdTable} (h : t.Valid) (name : Name) (hash : UInt64) :
    (name = [] ∧ t.upsert name hash = (t, none)) ∨
    (t.findByName name = none ∧ t.upsert name hash = t.append name (upsertHash name hash)) ∨
    (∃ current, t.findByName name = some current ∧
      current.signatureHash = upsertHash name hash ∧ t.upsert name hash = (t, some current)) ∨
    (t.Replaces name hash ∧ ∃ id, t.nameToId name = some id ∧
      t.upsert name hash = (t.tombstone name id).append name (upsertHash name hash)) := by
  unfold upsert
  by_cases hname : name = []
  · rw [if_pos hname]
    exact Or.inl ⟨hname, rfl⟩
  rw [if_neg hname]
  cases hid : t.nameToId name with
  | none =>
    refine Or.inr (Or.inl ⟨?_, rfl⟩)
    unfold MethodIdTable.findByName
    rw [hid, Option.bind_none]
  | some id =>
    obtain ⟨current, hfind, hget, hactive⟩ := h.current hid
    simp only [hget]
    by_cases hhash : current.signatureHash = upsertHash name hash
    · rw [if_pos ⟨hhash, hactive⟩]
      exact Or.inr (Or.inr (Or.inl ⟨current, hfind, hhash, rfl⟩))
    · rw [if_neg fun h' => hhash h'.1]
      exact Or.inr (Or.inr (Or.inr ⟨⟨current, hfind, hhash⟩, id, rfl, rfl⟩))

/-- **When a failed upsert changes nothing**: unless the table is full and the name is in use with
another hash. -/
theorem upsert_none_eq_iff {t : MethodIdTable} (h : t.Valid) (name : Name) (hash : UInt64) :
    ((t.upsert name hash).2 = none → (t.upsert name hash).1 = t) ↔
      ¬(t.maxEntries ≤ t.nextId ∧ t.Replaces name hash) := by
  rcases upsert_cases h name hash with ⟨hname, heq⟩ | ⟨hfind, heq⟩ | ⟨current, hfind, hhash, heq⟩ |
    ⟨hreplaces, id, hid, heq⟩
  · -- there is no entry without a name
    have hfind : t.findByName name = none := by
      cases he : t.findByName name with
      | none => rfl
      | some e =>
        obtain ⟨hentry, hactive, hen⟩ := h.findByName he
        exact absurd (hen.trans hname) (h.name_ne hentry hactive)
    rw [heq]
    refine iff_of_true (fun _ => rfl) ?_
    rintro ⟨-, current, hcurrent, -⟩
    exact absurd (hfind.symm.trans hcurrent) (by simp)
  · rw [heq]
    refine iff_of_true (fun hnone => ?_) ?_
    · rcases append_cases h name (upsertHash name hash) with ⟨happend, -⟩ | ⟨-, -, hroom⟩
      · rw [happend]
      · exact absurd ((append_snd_eq_none h name _).mp hnone) hroom
    · rintro ⟨-, current, hcurrent, -⟩
      exact absurd (hfind.symm.trans hcurrent) (by simp)
  · rw [heq]
    refine iff_of_true (fun _ => rfl) ?_
    rintro ⟨-, current', hcurrent, hne⟩
    obtain rfl := Option.some.inj (hfind.symm.trans hcurrent)
    exact hne hhash
  · have htomb := h.tombstone hid
    have hfull := append_snd_eq_none htomb name (upsertHash name hash)
    rw [heq]
    constructor
    · rintro hkeeps ⟨hmax, -⟩
      -- the name is out of the index, although it was in it
      have htable := hkeeps (hfull.mpr hmax)
      rcases append_cases htomb name (upsertHash name hash) with ⟨happend, -⟩ | ⟨-, -, hroom⟩
      · rw [happend] at htable
        have hindex : (t.tombstone name id).nameToId name = none := Function.update_self ..
        have hname : t.nameToId name = none := by rw [← htable]; exact hindex
        exact absurd (hname.symm.trans hid) (by simp)
      · exact hroom hmax
    · intro hkeeps hnone
      exact absurd ⟨hfull.mp hnone, hreplaces⟩ hkeeps

/-- A table with one method and room for no other. -/
def single : MethodIdTable := (({ maxEntries := 1 } : MethodIdTable).upsert [0x61] 1).1

theorem single_valid : single.Valid :=
  (upsert_valid (clear_valid { maxEntries := 1 }) [0x61] 1).1

/-- Another method for a full table: it is refused, and nothing changes. -/
theorem upsert_none_eq_iff_single :
    (single.upsert [0x62] 1).2 = none ∧ (single.upsert [0x62] 1).1 = single := by
  have hrefused : (single.upsert [0x62] 1).2 = none := by decide +kernel
  have hunknown : single.findByName [0x62] = none := by decide +kernel
  refine ⟨hrefused, (upsert_none_eq_iff single_valid [0x62] 1).mpr ?_ hrefused⟩
  rintro ⟨-, current, hcurrent, -⟩
  exact absurd (hunknown.symm.trans hcurrent) (by simp)

/-- Another hash for the only method of a full table: it is gone, and no method has come. -/
theorem upsert_full_not_atomic :
    ¬∀ t : MethodIdTable, t.Valid → ∀ (name : Name) (hash : UInt64),
      (t.upsert name hash).2 = none → (t.upsert name hash).1 = t := by
  intro h
  have htable := h single single_valid [0x61] 2 (by decide +kernel)
  have hentries : (single.upsert [0x61] 2).1.entries = single.entries := by rw [htable]
  exact absurd hentries (by decide +kernel)

end MethodIdTable

end NekoProto.Rpc
