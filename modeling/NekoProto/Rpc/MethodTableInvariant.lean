import NekoProto.Rpc.MethodIdTable
import NekoProto.Lib.AppendOnly
import Mathlib.Data.List.Induction

/-!
# The invariant of method id tables

`MethodIdTable.Valid`: entry `i` has id `i`, the next id is the number of entries, and the name
index is exactly the set of active entries. Every update keeps it and only extends the entries
(`upsert_valid`, `remove_valid`, `syncMethodTable_valid`): an entry keeps its id, name and hash,
and a tombstone stays one (`Succeeds`).
-/

namespace NekoProto.Rpc

/-! ## Entries -/

/-- Entry `i` has id `i`. -/
def Numbered (es : List MethodEntry) : Prop :=
  ∀ (i : ℕ) (e : MethodEntry), es[i]? = some e → e.id.toNat = i

/-- An entry is active or a tombstone, no two active entries share a name, and no active entry has
the empty one. -/
structure Unambiguous (es : List MethodEntry) : Prop where
  known : ∀ {i : ℕ} {e : MethodEntry}, es[i]? = some e → e.state ≠ .active → e.state = .removed
  name_ne : ∀ {i : ℕ} {e : MethodEntry}, es[i]? = some e → e.state = .active → e.name ≠ []
  unique : ∀ {i j : ℕ} {e e' : MethodEntry}, es[i]? = some e → es[j]? = some e' →
    e.state = .active → e'.state = .active → e.name = e'.name → i = j

/-- What may become of an entry. -/
structure Succeeds (e e' : MethodEntry) : Prop where
  id_eq : e'.id = e.id
  name_eq : e'.name = e.name
  hash_eq : e'.signatureHash = e.signatureHash
  removed : e.state = .removed → e'.state = .removed

instance : Std.Refl Succeeds where
  refl _ := ⟨rfl, rfl, rfl, id⟩

instance : IsTrans MethodEntry Succeeds where
  trans _ _ _ h k := ⟨k.id_eq.trans h.id_eq, k.name_eq.trans h.name_eq,
    k.hash_eq.trans h.hash_eq, fun hr => k.removed (h.removed hr)⟩

theorem Numbered.of_concat {es : List MethodEntry} {e : MethodEntry} (h : Numbered (es ++ [e])) :
    Numbered es ∧ e.id.toNat = es.length :=
  ⟨fun i x hx => h i x (AppendOnly.getElem?_append_of_some hx _),
    h es.length e (AppendOnly.getElem?_concat_eq_some.mpr (Or.inr ⟨rfl, rfl⟩))⟩

theorem Numbered.concat {es : List MethodEntry} {e : MethodEntry} (h : Numbered es)
    (he : e.id.toNat = es.length) : Numbered (es ++ [e]) := by
  intro i x hx
  rcases AppendOnly.getElem?_concat_eq_some.mp hx with hx | ⟨rfl, rfl⟩
  · exact h i x hx
  · exact he

theorem Unambiguous.of_concat {es : List MethodEntry} {e : MethodEntry}
    (h : Unambiguous (es ++ [e])) : Unambiguous es where
  known hx := h.known (AppendOnly.getElem?_append_of_some hx _)
  name_ne hx := h.name_ne (AppendOnly.getElem?_append_of_some hx _)
  unique hx hy := h.unique (AppendOnly.getElem?_append_of_some hx _)
    (AppendOnly.getElem?_append_of_some hy _)

/-- The entry an indexed id stands for. -/
def ActiveAt (es : List MethodEntry) (name : Name) (id : UInt64) : Prop :=
  ∃ e, es[id.toNat]? = some e ∧ e.state = .active ∧ e.name = name

/-- A new active entry with a name no other active entry has. -/
theorem Unambiguous.concat {es : List MethodEntry} {e : MethodEntry} (hn : Numbered es)
    (h : Unambiguous es) (he : e.state = .active) (hname : e.name ≠ [])
    (hfree : ∀ id, ¬ActiveAt es e.name id) : Unambiguous (es ++ [e]) where
  known := by
    intro i x hx hstate
    rcases AppendOnly.getElem?_concat_eq_some.mp hx with hx | ⟨rfl, rfl⟩
    · exact h.known hx hstate
    · exact absurd he hstate
  name_ne := by
    intro i x hx hactive
    rcases AppendOnly.getElem?_concat_eq_some.mp hx with hx | ⟨rfl, rfl⟩
    · exact h.name_ne hx hactive
    · exact hname
  unique := by
    have hnot : ∀ {i : ℕ} {x : MethodEntry}, es[i]? = some x → x.state = .active →
        x.name ≠ e.name := fun {i x} hx hactive hxname =>
      hfree x.id ⟨x, by rw [hn i x hx]; exact hx, hactive, hxname⟩
    intro i j x y hx hy hxa hya hxy
    rcases AppendOnly.getElem?_concat_eq_some.mp hx with hx | ⟨rfl, rfl⟩ <;>
      rcases AppendOnly.getElem?_concat_eq_some.mp hy with hy | ⟨rfl, rfl⟩
    · exact h.unique hx hy hxa hya hxy
    · exact absurd hxy (hnot hx hxa)
    · exact absurd hxy.symm (hnot hy hya)
    · rfl

/-! ## Valid tables -/

/-- **The invariant of a table.** -/
structure MethodIdTable.Valid (t : MethodIdTable) : Prop where
  numbered : Numbered t.entries
  length_le : t.entries.length ≤ t.maxEntries.toNat
  nextId_eq : t.nextId.toNat = t.entries.length
  known : ∀ {i : ℕ} {e : MethodEntry}, t.entries[i]? = some e → e.state ≠ .active →
    e.state = .removed
  name_ne : ∀ {i : ℕ} {e : MethodEntry}, t.entries[i]? = some e → e.state = .active → e.name ≠ []
  index : ∀ name id, t.nameToId name = some id ↔ ActiveAt t.entries name id
  hash_ne : ∀ {i : ℕ} {e : MethodEntry}, t.entries[i]? = some e → e.name ≠ [] →
    e.signatureHash ≠ 0
  minimum_le : t.minimumCompatibleVersion ≤ t.version

namespace MethodIdTable

/-- An active entry is the one its name is indexed to. -/
theorem Valid.nameToId_eq {t : MethodIdTable} (h : t.Valid) {i : ℕ} {e : MethodEntry}
    (he : t.entries[i]? = some e) (hactive : e.state = .active) :
    t.nameToId e.name = some e.id :=
  (h.index _ _).mpr ⟨e, by rw [h.numbered i e he]; exact he, hactive, rfl⟩

theorem Valid.unambiguous {t : MethodIdTable} (h : t.Valid) : Unambiguous t.entries where
  known := h.known
  name_ne := h.name_ne
  unique := by
    intro i j e e' he he' hactive hactive' hname
    have hid := (h.nameToId_eq he hactive).symm.trans (hname ▸ h.nameToId_eq he' hactive')
    rw [← h.numbered i e he, ← h.numbered j e' he', Option.some.inj hid]

/-- A resolution that succeeds. -/
theorem resolve_ok {t : MethodIdTable} {id clientVersion hash : UInt64} (ht : t.Valid)
    (h : (t.resolve id clientVersion hash true).status = .ok) :
    ∃ e, t.findById id = some e ∧ (t.resolve id clientVersion hash true).entry = some e ∧
      e.state = .active ∧ e.signatureHash = hash := by
  unfold resolve at h ⊢
  split_ifs at h ⊢ with hversion
  cases he : t.findById id with
  | none => rw [he] at h; exact absurd h (by simp)
  | some e =>
    rw [he] at h
    simp only at h ⊢
    split_ifs at h ⊢ with hname hstate hhash
    refine ⟨e, rfl, rfl, ?_, ?_⟩
    · by_contra hactive
      exact hstate (ht.known he hactive)
    · exact (not_not.mp (fun hne => hhash ⟨trivial, hne⟩)).symm

theorem Valid.findByName {t : MethodIdTable} (h : t.Valid) {name : Name} {e : MethodEntry}
    (he : t.findByName name = some e) :
    t.entries[e.id.toNat]? = some e ∧ e.state = .active ∧ e.name = name := by
  obtain ⟨id, hid, hfind⟩ := Option.bind_eq_some_iff.mp he
  obtain ⟨e', he', hactive, hname⟩ := (h.index _ _).mp hid
  obtain rfl : e' = e := Option.some.inj (he'.symm.trans hfind)
  rw [h.numbered _ _ he']
  exact ⟨he', hactive, hname⟩

/-! ## Rebuilding the index -/

theorem rebuildIndex_eq (t : MethodIdTable) :
    t.rebuildIndex = { t with
      nameToId := t.rebuildIndex.nameToId
      nextId := t.rebuildIndex.nextId } := by
  have hfold : ∀ (es : List MethodEntry) (s : MethodIdTable),
      es.foldl indexEntry s = { s with
        nameToId := (es.foldl indexEntry s).nameToId
        nextId := (es.foldl indexEntry s).nextId } := by
    intro es
    induction es with
    | nil => intro s; rfl
    | cons e es ih => intro s; rw [List.foldl_cons, ih]; rfl
  conv_lhs => unfold rebuildIndex; rw [hfold]
  rfl

theorem rebuildIndex_entries (t : MethodIdTable) : t.rebuildIndex.entries = t.entries := by
  rw [rebuildIndex_eq]

theorem foldl_indexEntry_nextId {es : List MethodEntry} (s : MethodIdTable) (hs : s.nextId = 0)
    (hn : Numbered es) (hlen : es.length < UInt64.size) :
    (es.foldl indexEntry s).nextId.toNat = es.length := by
  induction es using List.reverseRecOn with
  | nil => rw [List.foldl_nil, hs]; rfl
  | append_singleton es e ih =>
    obtain ⟨hn, he⟩ := hn.of_concat
    rw [List.length_append, List.length_singleton] at hlen
    have hnext := ih hn (by omega)
    rw [List.foldl_append, List.foldl_cons, List.foldl_nil, List.length_append,
      List.length_singleton]
    show (if (es.foldl indexEntry s).nextId ≤ e.id then e.id + 1
      else (es.foldl indexEntry s).nextId).toNat = es.length + 1
    rw [if_pos (UInt64.le_iff_toNat_le.mpr (by omega)), UInt64.toNat_add, he]
    exact Nat.mod_eq_of_lt hlen

theorem foldl_indexEntry_nameToId {es : List MethodEntry} (s : MethodIdTable)
    (hs : ∀ name, s.nameToId name = none) (hn : Numbered es) (hu : Unambiguous es) (name : Name)
    (id : UInt64) : (es.foldl indexEntry s).nameToId name = some id ↔ ActiveAt es name id := by
  induction es using List.reverseRecOn with
  | nil => rw [List.foldl_nil, hs]; simp [ActiveAt]
  | append_singleton es e ih =>
    obtain ⟨hn', he⟩ := hn.of_concat
    have ih := ih hn' hu.of_concat
    have hlast : (es ++ [e])[e.id.toNat]? = some e :=
      AppendOnly.getElem?_concat_eq_some.mpr (Or.inr ⟨he, rfl⟩)
    have hconcat : ActiveAt (es ++ [e]) name id ↔
        ActiveAt es name id ∨ (id.toNat = es.length ∧ e.state = .active ∧ e.name = name) := by
      constructor
      · rintro ⟨x, hx, hactive, hname⟩
        rcases AppendOnly.getElem?_concat_eq_some.mp hx with hx | ⟨hid, rfl⟩
        · exact Or.inl ⟨x, hx, hactive, hname⟩
        · exact Or.inr ⟨hid, hactive, hname⟩
      · rintro (⟨x, hx, hactive, hname⟩ | ⟨hid, hactive, hname⟩)
        · exact ⟨x, AppendOnly.getElem?_append_of_some hx _, hactive, hname⟩
        · exact ⟨e, AppendOnly.getElem?_concat_eq_some.mpr (Or.inr ⟨hid, rfl⟩), hactive, hname⟩
    rw [List.foldl_append, List.foldl_cons, List.foldl_nil, hconcat]
    show (if e.state = .active ∧ e.name ≠ [] then
      Function.update (es.foldl indexEntry s).nameToId e.name (some e.id)
      else (es.foldl indexEntry s).nameToId) name = some id ↔ _
    by_cases hactive : e.state = .active
    · have hne := hu.name_ne hlast hactive
      rw [if_pos ⟨hactive, hne⟩]
      by_cases hname : e.name = name
      · -- the name is new, so only the last entry is indexed under it
        have hold : ¬ActiveAt es name id := by
          rintro ⟨x, hx, hxactive, hxname⟩
          have hlt := (List.getElem?_eq_some_iff.mp hx).1
          have := hu.unique (AppendOnly.getElem?_append_of_some hx _) hlast hxactive hactive
            (hxname.trans hname.symm)
          omega
        subst hname
        rw [Function.update_self, Option.some.injEq, or_iff_right hold, ← he, UInt64.toNat_inj]
        exact ⟨fun h => ⟨h.symm, hactive, rfl⟩, fun h => h.1.symm⟩
      · rw [Function.update_of_ne (Ne.symm hname), ih]
        exact ⟨Or.inl, fun h => h.resolve_right (fun h => hname h.2.2)⟩
    · rw [if_neg (fun h => hactive h.1), ih]
      exact ⟨Or.inl, fun h => h.resolve_right (fun h => hactive h.2.1)⟩

/-- **Rebuilding.** From numbered entries without ambiguous names the index and the next id come
out right. -/
theorem rebuildIndex_valid {t : MethodIdTable} (hn : Numbered t.entries)
    (hu : Unambiguous t.entries) (hlen : t.entries.length ≤ t.maxEntries.toNat)
    (hhash : ∀ {i : ℕ} {e : MethodEntry}, t.entries[i]? = some e → e.name ≠ [] →
      e.signatureHash ≠ 0)
    (hmin : t.minimumCompatibleVersion ≤ t.version) : t.rebuildIndex.Valid := by
  have hmax := t.maxEntries.toNat_lt
  rw [rebuildIndex_eq]
  exact {
    numbered := hn
    length_le := hlen
    nextId_eq := foldl_indexEntry_nextId _ rfl hn (Nat.lt_of_le_of_lt hlen hmax)
    known := hu.known
    name_ne := hu.name_ne
    index := foldl_indexEntry_nameToId _ (fun _ => rfl) hn hu
    hash_ne := hhash
    minimum_le := hmin }

/-! ## The parts of an update -/

theorem bumpVersion_spec (t : MethodIdTable) :
    t.bumpVersion.entries = t.entries ∧ t.bumpVersion.nextId = t.nextId ∧
      t.bumpVersion.nameToId = t.nameToId ∧ t.bumpVersion.maxEntries = t.maxEntries := by
  unfold bumpVersion
  split_ifs <;> exact ⟨rfl, rfl, rfl, rfl⟩

theorem bumpVersion_minimum_le {t : MethodIdTable} (h : t.minimumCompatibleVersion ≤ t.version) :
    t.bumpVersion.minimumCompatibleVersion ≤ t.bumpVersion.version := by
  unfold bumpVersion
  split_ifs with hzero hmax
  · exact UInt64.le_refl _
  · have hne : t.version.toNat ≠ UInt64.size - 1 := fun heq => hmax (by rw [← heq]; simp)
    have hlt := t.version.toNat_lt
    have hle := UInt64.le_iff_toNat_le.mp h
    show t.minimumCompatibleVersion ≤ t.version + 1
    rw [UInt64.le_iff_toNat_le, UInt64.toNat_add, UInt64.toNat_one]
    have hsize : UInt64.size = 2 ^ 64 := rfl
    omega
  · exact h

theorem Valid.bumpVersion {t : MethodIdTable} (h : t.Valid) : t.bumpVersion.Valid := by
  obtain ⟨hentries, hnext, hindex, hmax⟩ := t.bumpVersion_spec
  constructor
  · rw [hentries]; exact h.numbered
  · rw [hentries, hmax]; exact h.length_le
  · rw [hentries, hnext]; exact h.nextId_eq
  · rw [hentries]; exact h.known
  · rw [hentries]; exact h.name_ne
  · rw [hentries, hindex]; exact h.index
  · rw [hentries]; exact h.hash_ne
  · exact bumpVersion_minimum_le h.minimum_le

/-- Installing the entry with the next id appends it. -/
theorem installEntry_eq {t : MethodIdTable} {entry : MethodEntry}
    (hid : entry.id.toNat = t.entries.length) (hlt : ¬t.maxEntries ≤ entry.id) :
    t.installEntry entry = some { t with
      nextId := if t.nextId ≤ entry.id then entry.id + 1 else t.nextId
      entries := t.entries ++ [entry] } := by
  unfold installEntry
  rw [if_neg hlt]
  simp only [hid, Nat.add_sub_cancel_left, List.replicate_one,
    List.set_append_right _ _ (le_refl _), Nat.sub_self, List.set_cons_zero]

theorem tombstone_extends (t : MethodIdTable) (name : Name) (id : UInt64) :
    AppendOnly.Extends Succeeds t.entries (t.tombstone name id).entries :=
  AppendOnly.Extends.modify _ _ (fun _ => ⟨rfl, rfl, rfl, fun _ => rfl⟩)

/-- The entries after a tombstone. -/
theorem getElem?_tombstone {t : MethodIdTable} {name : Name} {id : UInt64} {i : ℕ}
    {e : MethodEntry} : (t.tombstone name id).entries[i]? = some e ↔
      ∃ x, t.entries[i]? = some x ∧
        e = if id.toNat = i then { x with state := .removed } else x := by
  show (t.entries.modify _ _)[i]? = some e ↔ _
  rw [List.getElem?_modify]
  cases t.entries[i]? with
  | none => simp
  | some x =>
    simp only [Option.map_eq_map, Option.map_some, Option.some.injEq, exists_eq_left']
    split_ifs <;> exact eq_comm

theorem Valid.tombstone {t : MethodIdTable} (h : t.Valid) {name : Name} {id : UInt64}
    (hid : t.nameToId name = some id) : (t.tombstone name id).Valid := by
  obtain ⟨current, hcurrent, _, hname⟩ := (h.index _ _).mp hid
  constructor
  · intro i e he
    obtain ⟨x, hx, rfl⟩ := getElem?_tombstone.mp he
    split_ifs <;> exact h.numbered i x hx
  · show (t.entries.modify _ _).length ≤ _
    rw [List.length_modify]
    exact h.length_le
  · show t.nextId.toNat = (t.entries.modify _ _).length
    rw [List.length_modify]
    exact h.nextId_eq
  · intro i e he hstate
    obtain ⟨x, hx, rfl⟩ := getElem?_tombstone.mp he
    split_ifs at hstate ⊢
    · rfl
    · exact h.known hx hstate
  · intro i e he hactive
    obtain ⟨x, hx, rfl⟩ := getElem?_tombstone.mp he
    split_ifs at hactive with hi
    rw [if_neg hi]
    exact h.name_ne hx hactive
  · intro n j
    show Function.update t.nameToId name none n = some j ↔ _
    -- an active entry after the tombstone is one before it, at another id
    have hactive : ActiveAt (t.tombstone name id).entries n j ↔
        ActiveAt t.entries n j ∧ j ≠ id := by
      constructor
      · rintro ⟨e, he, hea, hen⟩
        obtain ⟨x, hx, rfl⟩ := getElem?_tombstone.mp he
        split_ifs at hea hen with hj
        exact ⟨⟨x, hx, hea, hen⟩, fun heq => hj (by rw [heq])⟩
      · rintro ⟨⟨x, hx, hxa, hxn⟩, hj⟩
        have hne : ¬id.toNat = j.toNat := fun heq => hj (UInt64.toNat_inj.mp heq.symm)
        exact ⟨x, getElem?_tombstone.mpr ⟨x, hx, by rw [if_neg hne]⟩, hxa, hxn⟩
    rw [hactive]
    by_cases hn : n = name
    · subst hn
      rw [Function.update_self]
      refine ⟨fun h' => absurd h' (by simp), fun h' => ?_⟩
      exact absurd (Option.some.inj (((h.index n j).mpr h'.1).symm.trans hid)) h'.2
    · rw [Function.update_of_ne hn, h.index]
      refine ⟨fun h' => ⟨h', ?_⟩, fun h' => h'.1⟩
      rintro rfl
      obtain ⟨e, he, _, hen⟩ := h'
      exact hn (hen.symm.trans (Option.some.inj (he.symm.trans hcurrent) ▸ hname))
  · intro i e he hne
    obtain ⟨x, hx, rfl⟩ := getElem?_tombstone.mp he
    split_ifs at hne ⊢ with hi
    · exact h.hash_ne (e := x) hx hne
    · exact h.hash_ne hx hne
  · exact h.minimum_le

/-- What appending does to a valid table that does not know the name: nothing when it is full,
else a new active entry at the end. -/
theorem append_cases {t : MethodIdTable} (h : t.Valid) (name : Name) (hash : UInt64) :
    (t.append name hash = (t, none) ∧ t.maxEntries ≤ t.nextId) ∨
      ((t.append name hash).1.entries =
          t.entries ++ [{ id := t.nextId, name := name, signatureHash := hash }] ∧
        (t.append name hash).1 =
          MethodIdTable.rebuildIndex (MethodIdTable.bumpVersion { t with
            nextId := t.nextId + 1
            entries :=
              t.entries ++ [{ id := t.nextId, name := name, signatureHash := hash }] }) ∧
        ¬t.maxEntries ≤ t.nextId) := by
  unfold append
  by_cases hfull : t.maxEntries ≤ t.nextId
  · rw [if_pos hfull]
    exact Or.inl ⟨rfl, hfull⟩
  · have hinstall : t.installEntry { id := t.nextId, name := name, signatureHash := hash } = _ :=
      installEntry_eq h.nextId_eq hfull
    rw [if_neg hfull]
    simp only [hinstall, UInt64.le_refl, if_true]
    refine Or.inr ⟨?_, trivial, hfull⟩
    rw [rebuildIndex_entries, (bumpVersion_spec _).1]

theorem append_valid {t : MethodIdTable} (h : t.Valid) {name : Name} {hash : UInt64}
    (hname : name ≠ []) (hhash : hash ≠ 0) (hfree : t.nameToId name = none) :
    (t.append name hash).1.Valid := by
  rcases append_cases h name hash with ⟨heq, _⟩ | ⟨_, heq, hroom⟩
  · rw [heq]
    exact h
  · have hroom' : t.nextId.toNat < t.maxEntries.toNat := by
      rw [UInt64.le_iff_toNat_le] at hroom
      omega
    have hnext := h.nextId_eq
    rw [heq]
    obtain ⟨hentries, -, -, hmax⟩ := bumpVersion_spec { t with
      nextId := t.nextId + 1
      entries := t.entries ++ [{ id := t.nextId, name := name, signatureHash := hash }] }
    apply rebuildIndex_valid
    · rw [hentries]
      exact h.numbered.concat hnext
    · rw [hentries]
      refine h.unambiguous.concat h.numbered rfl hname fun id hid => ?_
      exact absurd (hfree.symm.trans ((h.index _ _).mpr hid)) (by simp)
    · rw [hentries, hmax, List.length_append, List.length_singleton]
      show t.entries.length + 1 ≤ t.maxEntries.toNat
      omega
    · rw [hentries]
      intro i e he hne
      rcases AppendOnly.getElem?_concat_eq_some.mp he with he | ⟨_, rfl⟩
      · exact h.hash_ne he hne
      · exact hhash
    · exact bumpVersion_minimum_le h.minimum_le

theorem append_extends {t : MethodIdTable} (h : t.Valid) (name : Name) (hash : UInt64) :
    AppendOnly.Extends Succeeds t.entries (t.append name hash).1.entries := by
  rcases append_cases h name hash with ⟨heq, _⟩ | ⟨heq, _, _⟩
  · rw [heq]
    exact AppendOnly.Extends.refl _
  · rw [heq]
    exact AppendOnly.Extends.append _ _

/-! ## Tables from a list of entries -/

theorem withHash_spec (e : MethodEntry) :
    e.withHash.id = e.id ∧ e.withHash.name = e.name ∧ e.withHash.state = e.state ∧
      (e.name ≠ [] → e.signatureHash ≠ 0 → e.withHash = e) := by
  unfold MethodEntry.withHash
  split_ifs with h
  · exact ⟨rfl, rfl, rfl, fun _ hne => absurd h.1 hne⟩
  · exact ⟨rfl, rfl, rfl, fun _ _ => rfl⟩

theorem signatureHash_ne_zero (name signature : Name) : signatureHash name signature ≠ 0 := by
  unfold signatureHash
  simp only
  split_ifs with h
  · decide
  · exact h

theorem withHash_ne_zero {e : MethodEntry} (hname : e.withHash.name ≠ []) :
    e.withHash.signatureHash ≠ 0 := by
  rw [(withHash_spec e).2.1] at hname
  unfold MethodEntry.withHash
  split_ifs with h
  · exact signatureHash_ne_zero _ _
  · exact fun hzero => h ⟨hzero, hname⟩

theorem unambiguous_cons {e : MethodEntry} {es : List MethodEntry} :
    Unambiguous (e :: es) ↔ Unambiguous es ∧ (e.state ≠ .active → e.state = .removed) ∧
      (e.state = .active → e.name ≠ [] ∧
      ∀ (i : ℕ) (x : MethodEntry), es[i]? = some x → x.state = .active → x.name ≠ e.name) := by
  constructor
  · intro h
    refine ⟨⟨?_, ?_, ?_⟩, h.known (i := 0) rfl, fun ha =>
      ⟨h.name_ne (i := 0) rfl ha, fun i x hx hxa hxe => ?_⟩⟩
    · intro i x hx
      exact h.known (i := i + 1) hx
    · intro i x hx
      exact h.name_ne (i := i + 1) hx
    · intro i j x y hx hy hxa hya hxy
      exact Nat.succ.inj (h.unique (i := i + 1) (j := j + 1) hx hy hxa hya hxy)
    · exact absurd (h.unique (i := i + 1) (j := 0) hx rfl hxa ha hxe) (by omega)
  · rintro ⟨h, hknown, he⟩
    constructor
    · intro i x hx hstate
      cases i with
      | zero => obtain rfl := Option.some.inj hx; exact hknown hstate
      | succ i => exact h.known hx hstate
    · intro i x hx hxa
      cases i with
      | zero => obtain rfl := Option.some.inj hx; exact (he hxa).1
      | succ i => exact h.name_ne hx hxa
    · intro i j x y hx hy hxa hya hxy
      cases i with
      | zero =>
        obtain rfl := Option.some.inj hx
        cases j with
        | zero => rfl
        | succ j => exact absurd hxy.symm ((he hxa).2 j y hy hya)
      | succ i =>
        cases j with
        | zero =>
          obtain rfl := Option.some.inj hy
          exact absurd hxy ((he hya).2 i x hx hxa)
        | succ j => exact congrArg (· + 1) (h.unique hx hy hxa hya hxy)

/-- A property of the entries of a list and their positions. -/
theorem forall_getElem?_cons {e : MethodEntry} {es : List MethodEntry}
    {P : ℕ → MethodEntry → Prop} : (∀ (i : ℕ) (x : MethodEntry), (e :: es)[i]? = some x → P i x) ↔
      P 0 e ∧ ∀ (i : ℕ) (x : MethodEntry), es[i]? = some x → P (i + 1) x := by
  constructor
  · intro h
    exact ⟨h 0 e rfl, fun i x hx => h (i + 1) x hx⟩
  · rintro ⟨h0, h⟩ i x hx
    cases i with
    | zero => obtain rfl := Option.some.inj hx; exact h0
    | succ i => exact h i x hx

theorem validEntries_cons (t : MethodIdTable) (contiguous : Bool) (index : ℕ) (names : List Name)
    (e : MethodEntry) (es : List MethodEntry) :
    t.validEntries contiguous index names (e :: es) =
      if t.maxEntries ≤ e.id ∨ (e.state ≠ .active ∧ e.state ≠ .removed) ∨
          (contiguous ∧ e.id.toNat ≠ index) then false
      else if e.state = .active then
        if e.name = [] ∨ e.name ∈ names then false
        else t.validEntries contiguous (index + 1) (e.name :: names) es
      else t.validEntries contiguous (index + 1) names es := rfl

/-- What the loop of `_validTable` checks. -/
theorem validEntries_iff (t : MethodIdTable) (es : List MethodEntry) : ∀ index names,
    t.validEntries true index names es = true ↔
      (∀ (i : ℕ) (e : MethodEntry), es[i]? = some e →
        e.id.toNat = index + i ∧ ¬t.maxEntries ≤ e.id) ∧
      Unambiguous es ∧
      ∀ (i : ℕ) (e : MethodEntry), es[i]? = some e → e.state = .active → e.name ∉ names := by
  induction es with
  | nil =>
    intro index names
    have hnone : ∀ (i : ℕ) (e : MethodEntry), ([] : List MethodEntry)[i]? ≠ some e := by simp
    exact ⟨fun _ => ⟨fun i e h => absurd h (hnone i e), ⟨fun h => absurd h (hnone _ _),
      fun h => absurd h (hnone _ _), fun h => absurd h (hnone _ _)⟩,
      fun i e h => absurd h (hnone i e)⟩, fun _ => rfl⟩
  | cons e es ih =>
    intro index names
    rw [forall_getElem?_cons, forall_getElem?_cons, unambiguous_cons, validEntries_cons]
    have hshift : (∀ (i : ℕ) (x : MethodEntry), es[i]? = some x →
        x.id.toNat = index + (i + 1) ∧ ¬t.maxEntries ≤ x.id) ↔
        ∀ (i : ℕ) (x : MethodEntry), es[i]? = some x →
          x.id.toNat = index + 1 + i ∧ ¬t.maxEntries ≤ x.id := by
      simp only [Nat.add_assoc, Nat.add_comm 1]
    rw [hshift]
    split_ifs with hbad hactive hname
    · simp only [false_iff, not_and]
      rintro ⟨⟨hid, hmax⟩, -⟩ ⟨-, hknown, -⟩
      exact absurd hbad (by simpa [hid, hmax] using hknown)
    · simp only [false_iff]
      rintro ⟨-, ⟨-, -, he⟩, hfree, -⟩
      exact hname.elim (he hactive).1 (hfree hactive)
    · rw [ih]
      rw [not_or] at hname
      simp only [true_and, not_or, not_and, not_not] at hbad
      constructor
      · rintro ⟨hes, hu, hfree⟩
        exact ⟨⟨⟨hbad.2.2, hbad.1⟩, hes⟩, ⟨hu, hbad.2.1, fun _ => ⟨hname.1, fun i x hx hxa heq =>
            hfree i x hx hxa (heq ▸ List.mem_cons_self)⟩⟩,
          fun _ => hname.2, fun i x hx hxa hmem =>
            hfree i x hx hxa (List.mem_cons_of_mem _ hmem)⟩
      · rintro ⟨⟨-, hes⟩, ⟨hu, -, he⟩, -, hfree⟩
        refine ⟨hes, hu, fun i x hx hxa hmem => ?_⟩
        rcases List.mem_cons.mp hmem with heq | hmem
        · exact (he hactive).2 i x hx hxa heq
        · exact hfree i x hx hxa hmem
    · rw [ih]
      simp only [true_and, not_or, not_and, not_not] at hbad
      constructor
      · rintro ⟨hes, hu, hfree⟩
        exact ⟨⟨⟨hbad.2.2, hbad.1⟩, hes⟩, ⟨hu, hbad.2.1, fun h => absurd h hactive⟩,
          fun h => absurd h hactive, hfree⟩
      · rintro ⟨⟨-, hes⟩, ⟨hu, -⟩, -, hfree⟩
        exact ⟨hes, hu, hfree⟩

/-- What `_validTable` checks of a table whose ids must be its positions. -/
theorem validTable_iff (t : MethodIdTable) (es : List MethodEntry) (version : UInt64) :
    t.validTable es version true = true ↔
      es.length ≤ t.maxEntries.toNat ∧ (es ≠ [] → version ≠ 0) ∧ Numbered es ∧ Unambiguous es := by
  unfold validTable
  split_ifs with h
  · simp only [false_iff]
    rintro ⟨hlen, hversion, -⟩
    rcases h with h | ⟨hne, hzero⟩
    · omega
    · exact hversion hne hzero
  · rw [not_or, not_and] at h
    rw [validEntries_iff]
    constructor
    · rintro ⟨hes, hu, -⟩
      exact ⟨by omega, h.2, fun i e he => by rw [(hes i e he).1, Nat.zero_add], hu⟩
    · rintro ⟨hlen, -, hn, hu⟩
      refine ⟨fun i e he => ⟨by rw [hn i e he, Nat.zero_add], fun hmax => ?_⟩, hu,
        fun _ _ _ _ => List.not_mem_nil⟩
      have hlt := (List.getElem?_eq_some_iff.mp he).1
      have hid := hn i e he
      rw [UInt64.le_iff_toNat_le] at hmax
      omega

/-- Installing entries whose ids continue those of the table appends them. -/
theorem foldl_install {es : List MethodEntry} : ∀ t : MethodIdTable,
    (∀ (i : ℕ) (e : MethodEntry), es[i]? = some e →
      e.id.toNat = t.entries.length + i ∧ ¬t.maxEntries ≤ e.id) →
    ∃ n, es.foldl (fun t e => (t.installEntry e.withHash).getD t) t =
      { t with nextId := n, entries := t.entries ++ es.map MethodEntry.withHash } := by
  induction es with
  | nil => intro t _; exact ⟨t.nextId, by rw [List.foldl_nil, List.map_nil, List.append_nil]⟩
  | cons e es ih =>
    intro t hes
    rw [forall_getElem?_cons] at hes
    obtain ⟨⟨hid, hmax⟩, hes⟩ := hes
    rw [← (withHash_spec e).1] at hid hmax
    rw [List.foldl_cons, installEntry_eq hid hmax, Option.getD_some]
    obtain ⟨n, hn⟩ := ih { t with
      nextId := if t.nextId ≤ e.withHash.id then e.withHash.id + 1 else t.nextId
      entries := t.entries ++ [e.withHash] } (fun i x hx => by
        rw [List.length_append, List.length_singleton, Nat.add_assoc, Nat.add_comm 1]
        exact hes i x hx)
    refine ⟨n, ?_⟩
    rw [hn, List.map_cons, List.append_assoc, List.singleton_append]

/-- **Validated entries.** A table from entries that pass `_validTable` holds exactly these, and
is valid. -/
theorem resetValidated_spec {t : MethodIdTable} {es : List MethodEntry} {version : UInt64}
    (h : t.validTable es version true = true) :
    (t.resetValidated es version).entries = es.map MethodEntry.withHash ∧
      (t.resetValidated es version).version = (if es = [] then 0 else version) ∧
      (t.resetValidated es version).maxEntries = t.maxEntries ∧
      (t.resetValidated es version).Valid := by
  obtain ⟨hlen, -, hn, hu⟩ := (validTable_iff t es version).mp h
  have hinstall : ∀ (i : ℕ) (e : MethodEntry), es[i]? = some e →
      e.id.toNat = ([] : List MethodEntry).length + i ∧ ¬t.maxEntries ≤ e.id := by
    intro i e he
    have hlt := (List.getElem?_eq_some_iff.mp he).1
    have hid := hn i e he
    rw [UInt64.le_iff_toNat_le]
    exact ⟨by rw [hid, List.length_nil, Nat.zero_add], by omega⟩
  unfold resetValidated
  obtain ⟨n, hfold⟩ := foldl_install { t with
    entries := [], nameToId := fun _ => none, nextId := 0
    version := if es = [] then 0 else version
    minimumCompatibleVersion := if es = [] then 0 else version } hinstall
  simp only [hfold, List.nil_append]
  have hmap : ∀ {i : ℕ} {e : MethodEntry}, (es.map MethodEntry.withHash)[i]? = some e →
      ∃ x, es[i]? = some x ∧ x.withHash = e := by
    intro i e he
    rw [List.getElem?_map] at he
    exact Option.map_eq_some_iff.mp he
  rw [rebuildIndex_eq]
  refine ⟨rfl, rfl, rfl, ?_⟩
  rw [← rebuildIndex_eq]
  apply rebuildIndex_valid
  · intro i e he
    obtain ⟨x, hx, rfl⟩ := hmap he
    rw [(withHash_spec x).1]
    exact hn i x hx
  · constructor
    · intro i e he hactive
      obtain ⟨x, hx, rfl⟩ := hmap he
      obtain ⟨-, -, hstate, -⟩ := withHash_spec x
      rw [hstate] at hactive ⊢
      exact hu.known hx hactive
    · intro i e he hactive
      obtain ⟨x, hx, rfl⟩ := hmap he
      obtain ⟨-, hname, hstate, -⟩ := withHash_spec x
      rw [hname]
      exact hu.name_ne hx (hstate ▸ hactive)
    · intro i j e e' he he' hactive hactive' heq
      obtain ⟨x, hx, rfl⟩ := hmap he
      obtain ⟨y, hy, rfl⟩ := hmap he'
      obtain ⟨-, hname, hstate, -⟩ := withHash_spec x
      obtain ⟨-, hname', hstate', -⟩ := withHash_spec y
      rw [hname, hname'] at heq
      exact hu.unique hx hy (hstate ▸ hactive) (hstate' ▸ hactive') heq
  · rw [List.length_map]
    exact hlen
  · intro i e he hne
    obtain ⟨x, hx, rfl⟩ := hmap he
    exact withHash_ne_zero hne
  · exact UInt64.le_refl _

theorem clear_valid (t : MethodIdTable) : t.clear.Valid where
  numbered := fun i e he => absurd he (by simp [clear])
  length_le := Nat.zero_le _
  nextId_eq := rfl
  known := fun he => absurd he (by simp [clear])
  name_ne := fun he => absurd he (by simp [clear])
  index := fun name id => by simp [clear, ActiveAt]
  hash_ne := fun he => absurd he (by simp [clear])
  minimum_le := UInt64.le_refl _

theorem reset_valid (t : MethodIdTable) (es : List MethodEntry) (version : UInt64) :
    (t.reset es version).Valid := by
  unfold reset
  split_ifs with h
  · exact (resetValidated_spec h).2.2.2
  · exact t.clear_valid

/-- An accepted remote table: the entries, with the hashes filled in, and the version. -/
theorem applyRemoteTable_spec {t t' : MethodIdTable} {es : List MethodEntry} {version : UInt64}
    (h : t.applyRemoteTable es version = some t') :
    t'.entries = es.map MethodEntry.withHash ∧ t'.version = (if es = [] then 0 else version) ∧
      t'.Valid := by
  unfold applyRemoteTable at h
  split_ifs at h with hvalid
  obtain rfl := Option.some.inj h
  have hvalid' : MethodIdTable.validTable { maxEntries := t.maxEntries } es version true = true :=
    (validTable_iff _ es version).mpr ((validTable_iff t es version).mp hvalid)
  obtain ⟨hentries, hversion, -, hv⟩ := resetValidated_spec hvalid'
  exact ⟨hentries, hversion, hv⟩

/-! ## The updates -/

/-- **Upsert** keeps the invariant and extends the entries. -/
theorem upsert_valid {t : MethodIdTable} (h : t.Valid) (name : Name) (hash : UInt64) :
    (t.upsert name hash).1.Valid ∧
      AppendOnly.Extends Succeeds t.entries (t.upsert name hash).1.entries := by
  unfold upsert
  by_cases hname : name = []
  · rw [if_pos hname]
    exact ⟨h, AppendOnly.Extends.refl _⟩
  rw [if_neg hname]
  have hhash : (if hash = 0 then signatureHash name [] else hash) ≠ 0 := by
    split_ifs with hzero
    · exact signatureHash_ne_zero name []
    · exact hzero
  generalize (if hash = 0 then signatureHash name [] else hash) = hash' at hhash ⊢
  cases hid : t.nameToId name with
  | none => exact ⟨append_valid h hname hhash hid, append_extends h name _⟩
  | some id =>
    have htomb := h.tombstone hid
    have hfree : (t.tombstone name id).nameToId name = none := Function.update_self ..
    simp only
    split_ifs
    · exact ⟨h, AppendOnly.Extends.refl _⟩
    · exact ⟨append_valid htomb hname hhash hfree,
        (tombstone_extends t name id).trans (append_extends htomb name _)⟩

/-- **Remove** keeps the invariant and extends the entries. -/
theorem remove_valid {t : MethodIdTable} (h : t.Valid) (name : Name) :
    (t.remove name).1.Valid ∧
      AppendOnly.Extends Succeeds t.entries (t.remove name).1.entries := by
  unfold remove
  cases hid : t.nameToId name with
  | none => exact ⟨h, AppendOnly.Extends.refl _⟩
  | some id =>
    refine ⟨(h.tombstone hid).bumpVersion, ?_⟩
    show AppendOnly.Extends Succeeds t.entries (t.tombstone name id).bumpVersion.entries
    rw [(bumpVersion_spec _).1]
    exact tombstone_extends t name id

end MethodIdTable

theorem syncActive_valid (s : MethodIdTable × List MethodEntry) (entry : MethodEntry)
    (h : s.1.Valid) : (syncActive s entry).1.Valid ∧
      AppendOnly.Extends Succeeds s.1.entries (syncActive s entry).1.entries := by
  have hupsert := MethodIdTable.upsert_valid h entry.name entry.signatureHash
  unfold syncActive
  simp only
  split
  · exact hupsert
  · split_ifs
    · exact ⟨h, AppendOnly.Extends.refl _⟩
    · exact hupsert

theorem syncRemoved_valid (s : MethodIdTable × List MethodEntry) (name : Name)
    (h : s.1.Valid) : (syncRemoved s name).1.Valid ∧
      AppendOnly.Extends Succeeds s.1.entries (syncRemoved s name).1.entries := by
  have hremove := MethodIdTable.remove_valid h name
  unfold syncRemoved
  simp only
  split
  · exact ⟨h, AppendOnly.Extends.refl _⟩
  · split_ifs <;> exact hremove

/-- **Synchronisation** keeps the invariant and extends the entries. -/
theorem syncMethodTable_valid {t : MethodIdTable} (h : t.Valid) (activeEntries : List MethodEntry) :
    (syncMethodTable t activeEntries).1.Valid ∧
      AppendOnly.Extends Succeeds t.entries (syncMethodTable t activeEntries).1.entries := by
  have hactive := AppendOnly.Extends.foldl (MethodIdTable.entries ∘ Prod.fst) syncActive_valid
    activeEntries (t, []) h
  have hremoved := AppendOnly.Extends.foldl (MethodIdTable.entries ∘ Prod.fst) syncRemoved_valid
    (removedNames (activeEntries.foldl syncActive (t, [])).1 activeEntries) _ hactive.1
  exact ⟨hremoved.1, hactive.2.trans hremoved.2⟩

end NekoProto.Rpc
