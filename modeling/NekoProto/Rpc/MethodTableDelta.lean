import NekoProto.Rpc.MethodTableUpdates
import Mathlib.Data.List.Nodup
import Mathlib.Data.List.Perm.Subperm

/-!
# Delta synchronisation

`NekoRpcSyncMethodTable` brings a server's table in line with the registered methods and records
a delta; `applyRemoteDelta` replays the delta on a mirror of the old table.

1. What one step of the synchronisation does: nothing, or an append, with a tombstone before it
   where the signature has changed (`syncActive_cases`).
2. `Replays`: the delta recorded so far leads from the old entries to the current ones. Appends
   and removals keep it; the tombstone of a changed signature is not recorded.
3. A mirror takes a delta that replays, and ends in the server's table up to the minimum
   compatible version (`Replays.applyRemoteDelta_iff`).
-/

namespace NekoProto.Rpc

namespace MethodIdTable

/-! ## Lookups by name -/

/-- A lookup by name in a valid table. -/
theorem Valid.findByName_iff {t : MethodIdTable} (h : t.Valid) (name : Name) (e : MethodEntry) :
    t.findByName name = some e ↔
      t.entries[e.id.toNat]? = some e ∧ e.state = .active ∧ e.name = name := by
  refine ⟨h.findByName, ?_⟩
  rintro ⟨he, hactive, rfl⟩
  exact Option.bind_eq_some_iff.mpr ⟨e.id, h.nameToId_eq he hactive, he⟩

theorem Valid.findByName_eq_none {t : MethodIdTable} (h : t.Valid) {name : Name} :
    t.findByName name = none ↔ t.nameToId name = none := by
  unfold MethodIdTable.findByName
  cases hid : t.nameToId name with
  | none => simp
  | some id =>
    obtain ⟨e, he, -⟩ := (h.index _ _).mp hid
    simp [findById, he]

/-- The index entry behind a lookup. -/
theorem Valid.nameToId_of_findByName {t : MethodIdTable} (h : t.Valid) {name : Name}
    {e : MethodEntry} (he : t.findByName name = some e) : t.nameToId name = some e.id := by
  obtain ⟨hget, hactive, rfl⟩ := h.findByName he
  exact h.nameToId_eq hget hactive

/-- Lookups of two valid tables with the same active entries under a name. -/
theorem findByName_congr {t t' : MethodIdTable} (h : t.Valid) (h' : t'.Valid) {name : Name}
    (heq : ∀ e : MethodEntry, e.state = .active → e.name = name →
      (t'.entries[e.id.toNat]? = some e ↔ t.entries[e.id.toNat]? = some e)) :
    t'.findByName name = t.findByName name := by
  apply Option.ext
  intro e
  rw [h.findByName_iff, h'.findByName_iff]
  constructor
  · rintro ⟨he, hactive, hname⟩
    exact ⟨(heq e hactive hname).mp he, hactive, hname⟩
  · rintro ⟨he, hactive, hname⟩
    exact ⟨(heq e hactive hname).mpr he, hactive, hname⟩

/-- A valid table is its entries, its version window and its capacity. -/
theorem Valid.ext {t t' : MethodIdTable} (h : t.Valid) (h' : t'.Valid)
    (hentries : t'.entries = t.entries) (hversion : t'.version = t.version)
    (hmin : t'.minimumCompatibleVersion = t.minimumCompatibleVersion)
    (hmax : t'.maxEntries = t.maxEntries) : t' = t := by
  have hnext : t'.nextId = t.nextId :=
    UInt64.toNat_inj.mp (by rw [h.nextId_eq, h'.nextId_eq, hentries])
  have hindex : t'.nameToId = t.nameToId := by
    funext name
    apply Option.ext
    intro id
    rw [h.index, h'.index, hentries]
  cases t
  cases t'
  simp_all

/-! ## The parts of an update -/

/-- The version window after some updates. -/
structure Window (t t' : MethodIdTable) : Prop where
  version_le : t.version ≤ t'.version
  minimum_eq : t.version ≠ 0 → t'.minimumCompatibleVersion = t.minimumCompatibleVersion

theorem Window.refl (t : MethodIdTable) : Window t t := ⟨UInt64.le_refl _, fun _ => rfl⟩

theorem Window.version_ne {t t' : MethodIdTable} (h : Window t t') (hne : t.version ≠ 0) :
    t'.version ≠ 0 := by
  intro hzero
  have hle := UInt64.le_iff_toNat_le.mp h.version_le
  rw [hzero, UInt64.toNat_zero] at hle
  exact hne (UInt64.toNat_inj.mp (by rw [UInt64.toNat_zero]; omega))

theorem Window.trans {t t' t'' : MethodIdTable} (h : Window t t') (k : Window t' t'') :
    Window t t'' :=
  ⟨UInt64.le_trans h.version_le k.version_le,
    fun hne => (k.minimum_eq (h.version_ne hne)).trans (h.minimum_eq hne)⟩

/-- The version after a bump, where the counter is not used up. -/
theorem bumpVersion_version (t : MethodIdTable) :
    t.bumpVersion.version.toNat = min (t.version.toNat + 1) (UInt64.size - 1) := by
  have hlt := t.version.toNat_lt
  have hsize : UInt64.size = 2 ^ 64 := rfl
  unfold bumpVersion
  split_ifs with hzero hmax
  · rw [hzero, UInt64.toNat_zero]
    rfl
  · have hne : t.version.toNat ≠ UInt64.size - 1 := fun heq => hmax (by rw [← heq]; simp)
    show (t.version + 1).toNat = _
    rw [UInt64.toNat_add, UInt64.toNat_one]
    omega
  · rw [not_not.mp hmax]
    rfl

theorem bumpVersion_window (t : MethodIdTable) : Window t t.bumpVersion := by
  refine ⟨?_, fun hne => ?_⟩
  · have hlt := t.version.toNat_lt
    have hsize : UInt64.size = 2 ^ 64 := rfl
    rw [UInt64.le_iff_toNat_le, bumpVersion_version]
    omega
  · unfold bumpVersion
    rw [if_neg hne]
    split_ifs <;> rfl

/-- What appending does to a valid table: nothing when it is full, else a new active entry at
the end, and a new version. -/
theorem append_spec {t : MethodIdTable} (h : t.Valid) (name : Name) (hash : UInt64) :
    (t.append name hash = (t, none) ∧ t.maxEntries.toNat ≤ t.entries.length) ∨
      (∃ t' e, t.append name hash = (t', some e) ∧
        e = { id := t.nextId, name := name, signatureHash := hash } ∧
        t'.entries = t.entries ++ [e] ∧ t'.version = t.bumpVersion.version ∧
        t'.minimumCompatibleVersion = t.bumpVersion.minimumCompatibleVersion ∧
        t'.maxEntries = t.maxEntries ∧ t.entries.length < t.maxEntries.toNat) := by
  rcases append_cases h name hash with ⟨heq, hfull⟩ | ⟨hentries, heq, hroom⟩
  · rw [UInt64.le_iff_toNat_le, h.nextId_eq] at hfull
    exact Or.inl ⟨heq, hfull⟩
  · refine Or.inr ⟨(t.append name hash).1, _, ?_, rfl, hentries, ?_, ?_, ?_, ?_⟩
    · refine Prod.ext rfl ?_
      have hinstall : t.installEntry { id := t.nextId, name := name, signatureHash := hash } = _ :=
        installEntry_eq h.nextId_eq hroom
      have hsnd : (t.append name hash).2 = (t.append name hash).1.findById t.nextId := by
        unfold append
        rw [if_neg hroom]
        simp only [hinstall]
      rw [hsnd, findById, hentries]
      exact AppendOnly.getElem?_concat_eq_some.mpr (Or.inr ⟨h.nextId_eq, rfl⟩)
    · rw [heq, rebuildIndex_eq]
      unfold bumpVersion
      split_ifs <;> rfl
    · rw [heq, rebuildIndex_eq]
      unfold bumpVersion
      split_ifs <;> rfl
    · exact append_maxEntries h name hash
    · rw [UInt64.le_iff_toNat_le, h.nextId_eq] at hroom
      omega

theorem append_window {t : MethodIdTable} (h : t.Valid) (name : Name) (hash : UInt64) :
    Window t (t.append name hash).1 := by
  rcases append_spec h name hash with ⟨heq, -⟩ | ⟨t', e, heq, -, -, hversion, hmin, -⟩
  · rw [heq]
    exact Window.refl t
  · have hbump := bumpVersion_window t
    rw [heq]
    exact ⟨hversion ▸ hbump.version_le, fun hne => hmin.trans (hbump.minimum_eq hne)⟩

/-- A tombstone hides no other name. -/
theorem findByName_tombstone_ne {t : MethodIdTable} (h : t.Valid) {name other : Name}
    {id : UInt64} (hid : t.nameToId name = some id) (hne : other ≠ name) :
    (t.tombstone name id).findByName other = t.findByName other := by
  refine findByName_congr h (h.tombstone hid) fun e hactive hname => ?_
  obtain ⟨x, hx, -, hxname⟩ := (h.index _ _).mp hid
  rw [getElem?_tombstone]
  constructor
  · rintro ⟨y, hy, heq⟩
    split_ifs at heq with hj
    · rw [heq] at hactive
      exact absurd hactive (by simp)
    · rw [heq]
      exact heq ▸ hy
  · intro he
    refine ⟨e, he, ?_⟩
    split_ifs with hj
    · rw [← hj, hx] at he
      exact absurd (hname.symm.trans ((Option.some.inj he) ▸ hxname)) hne
    · rfl

/-- An append hides no other name. -/
theorem findByName_append_ne {t : MethodIdTable} (h : t.Valid) {name other : Name} {hash : UInt64}
    (hname : name ≠ []) (hhash : hash ≠ 0) (hfree : t.nameToId name = none)
    (hne : other ≠ name) : (t.append name hash).1.findByName other = t.findByName other := by
  refine findByName_congr h (append_valid h hname hhash hfree) fun e hactive hother => ?_
  rcases append_spec h name hash with ⟨heq, -⟩ | ⟨t', x, heq, rfl, hentries, -⟩
  · rw [heq]
  · rw [heq, hentries, AppendOnly.getElem?_concat_eq_some]
    refine ⟨fun he => he.resolve_right ?_, Or.inl⟩
    rintro ⟨-, rfl⟩
    exact hne hother.symm

end MethodIdTable

/-! ## The steps of the synchronisation -/

section Steps

variable {t : MethodIdTable} {a : MethodEntry}

/-- An upsert past the check of `NekoRpcSyncMethodTable`: an append, after the tombstone of the
entry whose signature has changed. -/
theorem upsert_cases (h : t.Valid) (hname : a.name ≠ []) (hhash : a.signatureHash ≠ 0)
    (hnew : ∀ current, t.findByName a.name = some current →
      current.signatureHash ≠ a.signatureHash) :
    ∃ s : MethodIdTable, s.Valid ∧ s.nameToId a.name = none ∧
      ((t.findByName a.name = none ∧ s = t) ∨ ∃ current, t.findByName a.name = some current ∧
        current.signatureHash ≠ a.signatureHash ∧ s = t.tombstone a.name current.id) ∧
      t.upsert a.name a.signatureHash = s.append a.name a.signatureHash := by
  unfold MethodIdTable.upsert
  rw [if_neg hname, if_neg hhash]
  cases hfind : t.findByName a.name with
  | none =>
    have hid := h.findByName_eq_none.mp hfind
    exact ⟨t, h, hid, Or.inl ⟨rfl, rfl⟩, by rw [hid]⟩
  | some current =>
    have hid := h.nameToId_of_findByName hfind
    obtain ⟨hget, -, -⟩ := h.findByName hfind
    refine ⟨t.tombstone a.name current.id, h.tombstone hid, Function.update_self ..,
      Or.inr ⟨current, rfl, hnew current hfind, rfl⟩, ?_⟩
    rw [hid]
    simp only [List.getD_eq_getElem?_getD, hget, Option.getD_some]
    rw [if_neg (fun hsame => hnew current hfind hsame.1)]

/-- **The first loop.** An entry the table has already, or has no name for, changes nothing. Any
other is appended, after the tombstone of the entry whose signature has changed; the delta
records the append only. -/
theorem syncActive_cases (h : t.Valid) (d : List MethodEntry) (hhash : a.signatureHash ≠ 0) :
    (syncActive (t, d) a = (t, d) ∧ (a.name = [] ∨ ∃ current,
      t.findByName a.name = some current ∧ current.signatureHash = a.signatureHash)) ∨
    (a.name ≠ [] ∧ ∃ s : MethodIdTable, s.Valid ∧ s.nameToId a.name = none ∧
      ((t.findByName a.name = none ∧ s = t) ∨ ∃ current, t.findByName a.name = some current ∧
        current.signatureHash ≠ a.signatureHash ∧ s = t.tombstone a.name current.id) ∧
      syncActive (t, d) a = ((s.append a.name a.signatureHash).1,
        d ++ (s.append a.name a.signatureHash).2.toList)) := by
  unfold syncActive
  simp only
  by_cases hname : a.name = []
  · left
    have hnone : t.findByName a.name = none := by
      rw [Option.eq_none_iff_forall_ne_some]
      intro e he
      obtain ⟨hget, hactive, heq⟩ := h.findByName he
      exact h.name_ne hget hactive (heq.trans hname)
    rw [hnone]
    unfold MethodIdTable.upsert
    simp [hname]
  · cases hfind : t.findByName a.name with
    | none =>
      obtain ⟨s, hs, hfree, hcases, heq⟩ :=
        upsert_cases h hname hhash (fun current hc => absurd (hfind.symm.trans hc) (by simp))
      rw [hfind] at hcases
      exact Or.inr ⟨hname, s, hs, hfree, hcases, by simp only [heq]⟩
    | some current =>
      simp only
      split_ifs with hsame
      · exact Or.inl ⟨rfl, Or.inr ⟨current, rfl, hsame.2⟩⟩
      · have hactive := (h.findByName hfind).2.1
        obtain ⟨s, hs, hfree, hcases, heq⟩ := upsert_cases h hname hhash (fun c hc => by
          obtain rfl := Option.some.inj (hfind.symm.trans hc)
          exact fun hh => hsame ⟨hactive, hh⟩)
        rw [hfind] at hcases
        exact Or.inr ⟨hname, s, hs, hfree, Or.inr (hcases.resolve_left fun h => by simp at h),
          by simp only [heq]⟩

/-- The entries of other names stay in the first loop. -/
theorem findByName_syncActive_ne (h : t.Valid) (d : List MethodEntry)
    (hhash : a.signatureHash ≠ 0) {other : Name} (hne : other ≠ a.name) :
    (syncActive (t, d) a).1.findByName other = t.findByName other := by
  rcases syncActive_cases h d hhash with ⟨heq, -⟩ | ⟨hname, s, hs, hfree, hcases, heq⟩
  · rw [heq]
  · rw [heq]
    refine (MethodIdTable.findByName_append_ne hs hname hhash hfree hne).trans ?_
    rcases hcases with ⟨-, rfl⟩ | ⟨current, hcurrent, -, rfl⟩
    · rfl
    · exact MethodIdTable.findByName_tombstone_ne h (h.nameToId_of_findByName hcurrent) hne

theorem syncActive_window (h : t.Valid) (d : List MethodEntry) (hhash : a.signatureHash ≠ 0) :
    MethodIdTable.Window t (syncActive (t, d) a).1 := by
  rcases syncActive_cases h d hhash with ⟨heq, -⟩ | ⟨-, s, hs, -, hcases, heq⟩
  · rw [heq]
    exact MethodIdTable.Window.refl t
  · have happend := MethodIdTable.append_window hs a.name a.signatureHash
    rw [heq]
    -- a tombstone leaves the version window alone
    rcases hcases with ⟨-, rfl⟩ | ⟨current, -, -, rfl⟩
    · exact happend
    · exact ⟨happend.version_le, happend.minimum_eq⟩

/-- **The last loop.** An unknown name changes nothing; a known one gets a tombstone, which the
delta records. -/
theorem syncRemoved_cases (h : t.Valid) (d : List MethodEntry) (name : Name) :
    (syncRemoved (t, d) name = (t, d) ∧ t.findByName name = none) ∨
    ∃ current, t.findByName name = some current ∧
      syncRemoved (t, d) name = ((t.tombstone name current.id).bumpVersion,
        d ++ [{ current with state := .removed }]) := by
  unfold syncRemoved
  simp only
  cases hfind : t.findByName name with
  | none => exact Or.inl ⟨rfl, rfl⟩
  | some current =>
    right
    have hid := h.nameToId_of_findByName hfind
    have hget := (h.findByName hfind).1
    have hnew : (t.tombstone name current.id).bumpVersion.findById current.id =
        some { current with state := .removed } := by
      rw [MethodIdTable.findById, (MethodIdTable.bumpVersion_spec _).1]
      exact MethodIdTable.getElem?_tombstone.mpr ⟨current, hget, by rw [if_pos rfl]⟩
    refine ⟨current, rfl, ?_⟩
    simp only [MethodIdTable.remove, hid, hnew, if_true, Option.toList_some]

theorem syncRemoved_window (h : t.Valid) (d : List MethodEntry) (name : Name) :
    MethodIdTable.Window t (syncRemoved (t, d) name).1 := by
  rcases syncRemoved_cases h d name with ⟨heq, -⟩ | ⟨current, -, heq⟩
  · rw [heq]
    exact MethodIdTable.Window.refl t
  · have hbump := MethodIdTable.bumpVersion_window (t.tombstone name current.id)
    rw [heq]
    exact ⟨hbump.version_le, hbump.minimum_eq⟩

end Steps

/-! ## Replaying a delta -/

namespace MethodIdTable

/-- Installing a delta with one more entry. -/
theorem installDelta_concat (e : MethodEntry) : ∀ (d : List MethodEntry) (t : MethodIdTable)
    (seen : List UInt64), t.installDelta seen (d ++ [e]) =
      (t.installDelta seen d).bind fun candidate =>
        if e.id ∈ seen ∨ e.id ∈ d.map MethodEntry.id then none
        else candidate.installEntry e.withHash := by
  intro d
  induction d with
  | nil =>
    intro t seen
    simp only [List.nil_append, installDelta, Option.bind_some, List.map_nil, List.not_mem_nil,
      or_false]
    split_ifs
    · rfl
    · cases t.installEntry e.withHash <;> rfl
  | cons x d ih =>
    intro t seen
    simp only [List.cons_append, installDelta, List.map_cons, List.mem_cons]
    by_cases hx : x.id ∈ seen
    · rw [if_pos hx, if_pos hx]
      rfl
    · rw [if_neg hx, if_neg hx]
      cases t.installEntry x.withHash with
      | none => rfl
      | some c =>
        simp only [ih, List.mem_cons]
        congr 1
        funext candidate
        congr 1
        exact propext (by tauto)

/-- A delta whose installation succeeds lists every id once. -/
theorem installDelta_nodup {d : List MethodEntry} : ∀ {t t' : MethodIdTable} {seen : List UInt64},
    t.installDelta seen d = some t' →
      (d.map MethodEntry.id).Nodup ∧ ∀ e ∈ d, e.id ∉ seen ∧ e.id.toNat < t.maxEntries.toNat := by
  induction d with
  | nil => intro t t' seen _; exact ⟨List.nodup_nil, fun e he => absurd he List.not_mem_nil⟩
  | cons x d ih =>
    intro t t' seen h
    unfold installDelta at h
    split_ifs at h with hseen
    cases hinstall : t.installEntry x.withHash with
    | none => rw [hinstall] at h; exact absurd h (by simp)
    | some c =>
      rw [hinstall] at h
      obtain ⟨hnodup, hids⟩ := ih h
      have hmax := (installEntry_window hinstall).2.2
      have hlt := (installEntry_eq_some.mp hinstall).1
      rw [(withHash_spec x).1] at hlt
      rw [hmax] at hids
      refine ⟨List.nodup_cons.mpr ⟨fun hmem => ?_, hnodup⟩, fun e he => ?_⟩
      · obtain ⟨e, he, heq⟩ := List.mem_map.mp hmem
        exact (hids e he).1 (heq ▸ List.mem_cons_self)
      · rcases List.mem_cons.mp he with rfl | he
        · exact ⟨hseen, hlt⟩
        · exact ⟨fun hmem => (hids e he).1 (List.mem_cons_of_mem _ hmem), (hids e he).2⟩

/-- So it has no more entries than the table has room for. -/
theorem installDelta_length_le {d : List MethodEntry} {t t' : MethodIdTable} {seen : List UInt64}
    (h : t.installDelta seen d = some t') : d.length ≤ t.maxEntries.toNat := by
  obtain ⟨hnodup, hids⟩ := installDelta_nodup h
  have hnodup' : ((d.map MethodEntry.id).map UInt64.toNat).Nodup :=
    hnodup.map fun _ _ h => UInt64.toNat_inj.mp h
  have hsub : ((d.map MethodEntry.id).map UInt64.toNat) ⊆ List.range t.maxEntries.toNat := by
    intro i hi
    obtain ⟨id, hid, rfl⟩ := List.mem_map.mp hi
    obtain ⟨e, he, rfl⟩ := List.mem_map.mp hid
    exact List.mem_range.mpr (hids e he).2
  have hle := (hnodup'.subperm hsub).length_le
  rwa [List.length_map, List.length_map, List.length_range] at hle

/-- Installing a delta leaves the other entries alone. -/
theorem installDelta_getElem? {d : List MethodEntry} {i : ℕ} {x : MethodEntry} :
    ∀ {t t' : MethodIdTable} {seen : List UInt64}, t.installDelta seen d = some t' →
      t.entries[i]? = some x → (∀ e ∈ d, e.id.toNat ≠ i) → t'.entries[i]? = some x := by
  induction d with
  | nil => intro t t' seen h hx _; obtain rfl := Option.some.inj h; exact hx
  | cons e d ih =>
    intro t t' seen h hx hids
    unfold installDelta at h
    split_ifs at h
    cases hinstall : t.installEntry e.withHash with
    | none => rw [hinstall] at h; exact absurd h (by simp)
    | some c =>
      rw [hinstall] at h
      refine ih h ?_ fun y hy => hids y (List.mem_cons_of_mem _ hy)
      obtain ⟨-, rfl⟩ := installEntry_eq_some.mp hinstall
      have hne : e.withHash.id.toNat ≠ i := by
        rw [(withHash_spec e).1]
        exact hids e List.mem_cons_self
      rw [List.getElem?_set_ne hne]
      exact AppendOnly.getElem?_append_of_some hx _

end MethodIdTable

/-- The delta `d` leads from the entries of `T` to those of `t`, and every place it mentions is a
tombstone or holds one of the `names`. -/
structure Replays (T : MethodIdTable) (names : List Name) (t : MethodIdTable)
    (d : List MethodEntry) : Prop where
  valid : t.Valid
  maxEntries_eq : t.maxEntries = T.maxEntries
  replay : ∃ candidate, T.installDelta [] d = some candidate ∧ candidate.entries = t.entries
  recorded : ∀ e ∈ d, ∃ x, t.entries[e.id.toNat]? = some x ∧
    (x.state = .removed ∨ x.name ∈ names)

section Replays

variable {T t : MethodIdTable} {names : List Name} {d : List MethodEntry}

theorem Replays.refl (h : T.Valid) (names : List Name) : Replays T names T [] where
  valid := h
  maxEntries_eq := rfl
  replay := ⟨T, rfl, rfl⟩
  recorded := fun _ he => absurd he List.not_mem_nil

/-- Recording one more change. -/
theorem Replays.concat (h : Replays T names t d) {t' : MethodIdTable} {e : MethodEntry}
    (hvalid : t'.Valid) (hmax : t'.maxEntries = t.maxEntries)
    (hext : AppendOnly.Extends Succeeds t.entries t'.entries)
    (hfresh : ∀ x, t.entries[e.id.toNat]? = some x → x.state = .active ∧ x.name ∉ names)
    (hhash : e.withHash = e) (hget : t'.entries[e.id.toNat]? = some e)
    (hrec : e.state = .removed ∨ e.name ∈ names)
    (hentries : t'.entries = (t.entries ++
      List.replicate (e.id.toNat + 1 - t.entries.length) ({} : MethodEntry)).set e.id.toNat e) :
    Replays T names t' (d ++ [e]) := by
  obtain ⟨c, hc, hcentries⟩ := h.replay
  have hcmax := (MethodIdTable.installDelta_spec hc).2.2.1
  have hnot : e.id ∉ d.map MethodEntry.id := by
    intro hmem
    obtain ⟨y, hy, heq⟩ := List.mem_map.mp hmem
    obtain ⟨x, hx, hcase⟩ := h.recorded y hy
    rw [heq] at hx
    obtain ⟨hactive, hname⟩ := hfresh x hx
    rcases hcase with hremoved | hin
    · exact absurd (hactive.symm.trans hremoved) (by simp)
    · exact hname hin
  have hlt : e.id.toNat < c.maxEntries.toNat := by
    have hlen := (List.getElem?_eq_some_iff.mp hget).1
    have hle := hvalid.length_le
    rw [hmax, h.maxEntries_eq] at hle
    rw [hcmax]
    omega
  refine ⟨hvalid, hmax.trans h.maxEntries_eq, ?_, ?_⟩
  · rw [MethodIdTable.installDelta_concat, hc, Option.bind_some, if_neg (by simpa using hnot),
      hhash]
    refine ⟨_, MethodIdTable.installEntry_eq_some.mpr ⟨hlt, rfl⟩, ?_⟩
    simp only [hcentries]
    exact hentries.symm
  · intro y hy
    rcases List.mem_append.mp hy with hy | hy
    · obtain ⟨x, hx, hcase⟩ := h.recorded y hy
      obtain ⟨x', hx', hsucc⟩ := hext _ x hx
      exact ⟨x', hx', hcase.imp hsucc.removed fun hin => hsucc.name_eq ▸ hin⟩
    · obtain rfl := List.mem_singleton.mp hy
      exact ⟨y, hget, hrec⟩

/-- Recording a new method. -/
theorem Replays.append (h : Replays T names t d) {name : Name} {hash : UInt64}
    (hmem : name ∈ names) (hname : name ≠ []) (hhash : hash ≠ 0)
    (hfree : t.nameToId name = none) :
    Replays T names (t.append name hash).1 (d ++ (t.append name hash).2.toList) := by
  have hvalid := MethodIdTable.append_valid h.valid hname hhash hfree
  have hext := MethodIdTable.append_extends h.valid name hash
  have hmax := MethodIdTable.append_maxEntries h.valid name hash
  rcases MethodIdTable.append_spec h.valid name hash with ⟨heq, -⟩ | ⟨t', e, heq, he, hentries, -⟩
  · rw [heq, Option.toList_none, List.append_nil]
    exact h
  · rw [heq] at hvalid hext hmax ⊢
    have hid : e.id.toNat = t.entries.length := by rw [he]; exact h.valid.nextId_eq
    refine h.concat hvalid hmax hext ?_ ?_ ?_ (Or.inr (by rw [he]; exact hmem)) ?_
    · intro x hx
      rw [hid, List.getElem?_eq_none (le_refl _)] at hx
      exact absurd hx (by simp)
    · rw [he]
      exact (MethodIdTable.withHash_spec _).2.2.2 hname hhash
    · rw [hentries]
      exact AppendOnly.getElem?_concat_eq_some.mpr (Or.inr ⟨hid, rfl⟩)
    · rw [hentries, hid, Nat.add_sub_cancel_left, List.replicate_one,
        List.set_append_right _ _ (le_refl _), Nat.sub_self, List.set_cons_zero]

/-- Recording a removed method. -/
theorem Replays.tombstone (h : Replays T names t d) {name : Name} {current : MethodEntry}
    (hcurrent : t.findByName name = some current) (hname : name ∉ names) :
    Replays T names (t.tombstone name current.id).bumpVersion
      (d ++ [{ current with state := .removed }]) := by
  obtain ⟨hget, hactive, hcname⟩ := h.valid.findByName hcurrent
  obtain ⟨hentries, -, -, hmax⟩ := (t.tombstone name current.id).bumpVersion_spec
  have htomb : (t.tombstone name current.id).entries[current.id.toNat]? =
      some { current with state := .removed } :=
    MethodIdTable.getElem?_tombstone.mpr ⟨current, hget, by rw [if_pos rfl]⟩
  refine h.concat (h.valid.tombstone (h.valid.nameToId_of_findByName hcurrent)).bumpVersion hmax
    ?_ ?_ ?_ ?_ (Or.inl rfl) ?_
  · rw [hentries]
    exact MethodIdTable.tombstone_extends t name current.id
  · intro x hx
    obtain rfl := Option.some.inj (hget.symm.trans hx)
    exact ⟨hactive, hcname ▸ hname⟩
  · have hne := h.valid.name_ne hget hactive
    exact (MethodIdTable.withHash_spec _).2.2.2 hne (h.valid.hash_ne (e := current) hget hne)
  · rw [hentries]
    exact htomb
  · have hlt := (List.getElem?_eq_some_iff.mp hget).1
    rw [hentries, Nat.sub_eq_zero_of_le hlt, List.replicate_zero, List.append_nil]
    apply List.ext_getElem?
    intro i
    show (t.entries.modify _ _)[i]? = _
    rw [List.getElem?_modify, List.getElem?_set]
    split_ifs with hi
    · subst hi
      rw [hget]
      rfl
    · cases t.entries[i]? <;> rfl

/-- A step of the first loop, for an entry whose signature has not changed. -/
theorem Replays.syncActive (h : Replays T names t d) {a : MethodEntry} (hmem : a.name ∈ names)
    (hhash : a.signatureHash ≠ 0) (hsame : ∀ current, t.findByName a.name = some current →
      current.signatureHash = a.signatureHash) :
    Replays T names (syncActive (t, d) a).1 (syncActive (t, d) a).2 := by
  rcases syncActive_cases h.valid d hhash with ⟨heq, -⟩ | ⟨hname, s, -, hfree, hcases, heq⟩
  · rw [heq]
    exact h
  · rcases hcases with ⟨-, rfl⟩ | ⟨current, hcurrent, hne, -⟩
    · rw [heq]
      exact h.append hmem hname hhash hfree
    · exact absurd (hsame current hcurrent) hne

/-- A step of the last loop. -/
theorem Replays.syncRemoved (h : Replays T names t d) {name : Name} (hname : name ∉ names) :
    Replays T names (syncRemoved (t, d) name).1 (syncRemoved (t, d) name).2 := by
  rcases syncRemoved_cases h.valid d name with ⟨heq, -⟩ | ⟨current, hcurrent, heq⟩
  · rw [heq]
    exact h
  · rw [heq]
    exact h.tombstone hcurrent hname

/-- The first loop. -/
theorem Replays.foldl_syncActive {es : List MethodEntry} :
    ∀ {t : MethodIdTable} {d : List MethodEntry}, Replays T names t d →
      (es.map MethodEntry.name).Nodup →
      (∀ a ∈ es, a.name ∈ names ∧ a.signatureHash ≠ 0 ∧
        ∀ current, t.findByName a.name = some current →
          current.signatureHash = a.signatureHash) →
      Replays T names (es.foldl NekoProto.Rpc.syncActive (t, d)).1
        (es.foldl NekoProto.Rpc.syncActive (t, d)).2 := by
  induction es with
  | nil => intro t d h _ _; exact h
  | cons a es ih =>
    intro t d h hnodup hes
    rw [List.map_cons, List.nodup_cons] at hnodup
    obtain ⟨hmem, hhash, hsame⟩ := hes a List.mem_cons_self
    rw [List.foldl_cons]
    refine ih (h.syncActive hmem hhash hsame) hnodup.2 fun x hx => ?_
    obtain ⟨hxmem, hxhash, hxsame⟩ := hes x (List.mem_cons_of_mem _ hx)
    have hne : x.name ≠ a.name :=
      fun heq => hnodup.1 (heq ▸ List.mem_map_of_mem (f := MethodEntry.name) hx)
    refine ⟨hxmem, hxhash, fun current hcurrent => hxsame current ?_⟩
    rw [← findByName_syncActive_ne h.valid d hhash hne]
    exact hcurrent

/-- The last loop. -/
theorem Replays.foldl_syncRemoved {ns : List Name} :
    ∀ {t : MethodIdTable} {d : List MethodEntry}, Replays T names t d → (∀ n ∈ ns, n ∉ names) →
      Replays T names (ns.foldl NekoProto.Rpc.syncRemoved (t, d)).1
        (ns.foldl NekoProto.Rpc.syncRemoved (t, d)).2 := by
  induction ns with
  | nil => intro t d h _; exact h
  | cons n ns ih =>
    intro t d h hns
    exact ih (h.syncRemoved (hns n List.mem_cons_self))
      fun x hx => hns x (List.mem_cons_of_mem _ hx)

end Replays

/-- The names that go are not among the registered ones. -/
theorem not_mem_of_removedNames {t : MethodIdTable} {es : List MethodEntry} {name : Name}
    (h : name ∈ removedNames t es) : name ∉ es.map MethodEntry.name := by
  obtain ⟨e, he, rfl⟩ := List.mem_map.mp h
  have hcond := (List.mem_filter.mp he).2
  simp only [decide_eq_true_eq, List.any_eq_true, not_exists, not_and] at hcond
  intro hmem
  obtain ⟨x, hx, heq⟩ := List.mem_map.mp hmem
  exact hcond.2.2 x hx heq

/-- **A synchronisation without changed signatures is replayed by its delta.** -/
theorem replays_syncMethodTable {T : MethodIdTable} (h : T.Valid) {es : List MethodEntry}
    (hnodup : (es.map MethodEntry.name).Nodup) (hhash : ∀ a ∈ es, a.signatureHash ≠ 0)
    (hsame : ∀ a ∈ es, ∀ current, T.findByName a.name = some current →
      current.signatureHash = a.signatureHash) :
    Replays T (es.map MethodEntry.name) (syncMethodTable T es).1 (syncMethodTable T es).2 := by
  have hactive := (Replays.refl h (es.map MethodEntry.name)).foldl_syncActive hnodup
    fun a ha => ⟨List.mem_map_of_mem ha, hhash a ha, hsame a ha⟩
  exact hactive.foldl_syncRemoved fun n hn => not_mem_of_removedNames hn

/-- The version window of a synchronisation. -/
theorem syncMethodTable_window {T : MethodIdTable} (h : T.Valid) {es : List MethodEntry}
    (hhash : ∀ a ∈ es, a.signatureHash ≠ 0) :
    MethodIdTable.Window T (syncMethodTable T es).1 := by
  have hactive : ∀ (es : List MethodEntry) (s : MethodIdTable × List MethodEntry), s.1.Valid →
      (∀ a ∈ es, a.signatureHash ≠ 0) →
      (es.foldl syncActive s).1.Valid ∧ MethodIdTable.Window s.1 (es.foldl syncActive s).1 := by
    intro es
    induction es with
    | nil => intro s hs _; exact ⟨hs, MethodIdTable.Window.refl _⟩
    | cons a es ih =>
      intro s hs hes
      obtain ⟨hvalid, hwindow⟩ :=
        ih _ (syncActive_valid s a hs).1 fun x hx => hes x (List.mem_cons_of_mem _ hx)
      exact ⟨hvalid, (syncActive_window hs s.2 (hes a List.mem_cons_self)).trans hwindow⟩
  have hremoved : ∀ (ns : List Name) (s : MethodIdTable × List MethodEntry), s.1.Valid →
      MethodIdTable.Window s.1 (ns.foldl syncRemoved s).1 := by
    intro ns
    induction ns with
    | nil => intro s _; exact MethodIdTable.Window.refl _
    | cons n ns ih =>
      intro s hs
      exact (syncRemoved_window hs s.2 n).trans (ih _ (syncRemoved_valid s n hs).1)
  obtain ⟨hvalid, hwindow⟩ := hactive es (T, []) h hhash
  exact hwindow.trans (hremoved _ _ hvalid)

/-- **The replay.** A mirror of `T` takes a replaying delta, and ends in the same table if its
minimum compatible version comes out the same. -/
theorem Replays.applyRemoteDelta_iff {T t : MethodIdTable} {names : List Name}
    {d : List MethodEntry} (hT : T.Valid) (h : Replays T names t d)
    (hversion : T.version ≤ t.version) :
    T.applyRemoteDelta d t.version = some t ↔ t.version ≠ 0 ∧ t.minimumCompatibleVersion =
      (if T.minimumCompatibleVersion = 0 then t.version else T.minimumCompatibleVersion) := by
  constructor
  · intro happly
    obtain ⟨-, hne, -, -, hmin, -⟩ := MethodIdTable.applyRemoteDelta_spec hT happly
    exact ⟨hne, hmin⟩
  · rintro ⟨hne, hmin⟩
    obtain ⟨c, hc, hcentries⟩ := h.replay
    have haccept : ∃ t', T.applyRemoteDelta d t.version = some t' := by
      have hcmax := (MethodIdTable.installDelta_spec hc).2.2.1
      have hlen := MethodIdTable.installDelta_length_le hc
      unfold MethodIdTable.applyRemoteDelta
      rw [if_neg (by rw [not_or, not_and]; exact ⟨hne, fun _ => UInt64.not_lt.mpr hversion⟩),
        if_neg (by omega), hc]
      simp only
      rw [if_pos]
      · exact ⟨_, rfl⟩
      · rw [MethodIdTable.validTable_iff, MethodIdTable.rebuildIndex_entries]
        refine ⟨?_, fun _ => hne, ?_, ?_⟩
        · rw [MethodIdTable.rebuildIndex_eq]
          show c.entries.length ≤ c.maxEntries.toNat
          rw [hcentries, hcmax, ← h.maxEntries_eq]
          exact h.valid.length_le
        · show Numbered c.entries
          rw [hcentries]
          exact h.valid.numbered
        · show Unambiguous c.entries
          rw [hcentries]
          exact h.valid.unambiguous
    obtain ⟨t', ht'⟩ := haccept
    obtain ⟨hvalid, -, hversion', hmax', hmin', c', hc', hentries⟩ :=
      MethodIdTable.applyRemoteDelta_spec hT ht'
    obtain rfl := Option.some.inj (hc.symm.trans hc')
    rw [ht', h.valid.ext hvalid (hentries.trans hcentries) hversion' (hmin'.trans hmin.symm)
      (hmax'.trans h.maxEntries_eq.symm)]

end NekoProto.Rpc
