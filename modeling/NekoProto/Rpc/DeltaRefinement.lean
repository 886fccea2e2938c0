import NekoProto.Rpc.MethodTableDelta

/-!
# Delta synchronisation against full synchronisation

When does a mirror that gets the delta of `NekoRpcSyncMethodTable` become the server's new table?

1. A changed signature leaves a tombstone that the delta does not record, so the mirror keeps an
   active entry the server has not (`applyRemoteDelta_changed`).
2. A new table counts the methods it takes (`syncMethodTable_new`), while the mirror takes the
   last version as its minimum compatible one.
3. In every other case the delta replays (`delta_refines_iff`).
-/

namespace NekoProto.Rpc

/-! ## Changed signatures -/

section Changed

variable {i : ℕ}

/-- The first loop records no old place. -/
theorem syncActive_recorded {t : MethodIdTable} {d : List MethodEntry} {a : MethodEntry}
    (h : t.Valid) (hhash : a.signatureHash ≠ 0) (hi : i < t.entries.length)
    (hd : ∀ x ∈ d, x.id.toNat ≠ i) :
    ∀ x ∈ (syncActive (t, d) a).2, x.id.toNat ≠ i := by
  rcases syncActive_cases h d hhash with ⟨heq, -⟩ | ⟨-, s, hs, -, hcases, heq⟩
  · rw [heq]
    exact hd
  · have hlen : s.entries.length = t.entries.length := by
      rcases hcases with ⟨-, rfl⟩ | ⟨current, -, -, rfl⟩
      · rfl
      · exact List.length_modify _ _ _
    rw [heq]
    intro x hx
    rcases List.mem_append.mp hx with hx | hx
    · exact hd x hx
    · rcases MethodIdTable.append_spec hs a.name a.signatureHash with
        ⟨happend, -⟩ | ⟨t', e, happend, he, -⟩
      · rw [happend] at hx
        exact absurd hx (by simp)
      · rw [happend, Option.toList_some, List.mem_singleton] at hx
        rw [hx, he]
        show s.nextId.toNat ≠ i
        rw [hs.nextId_eq, hlen]
        omega

/-- A tombstone that the first loop does not record. -/
theorem foldl_syncActive_removed {es : List MethodEntry} :
    ∀ {t : MethodIdTable} {d : List MethodEntry} {x : MethodEntry}, t.Valid →
      (∀ a ∈ es, a.signatureHash ≠ 0) → t.entries[i]? = some x → x.state = .removed →
      (∀ y ∈ d, y.id.toNat ≠ i) →
      (∃ y, (es.foldl syncActive (t, d)).1.entries[i]? = some y ∧ y.state = .removed) ∧
        ∀ y ∈ (es.foldl syncActive (t, d)).2, y.id.toNat ≠ i := by
  induction es with
  | nil => intro t d x _ _ hx hremoved hd; exact ⟨⟨x, hx, hremoved⟩, hd⟩
  | cons a es ih =>
    intro t d x h hes hx hremoved hd
    obtain ⟨hvalid, hext⟩ := syncActive_valid (t, d) a h
    obtain ⟨y, hy, hsucc⟩ := hext i x hx
    exact ih hvalid (fun b hb => hes b (List.mem_cons_of_mem _ hb)) hy (hsucc.removed hremoved)
      (syncActive_recorded h (hes a List.mem_cons_self) (List.getElem?_eq_some_iff.mp hx).1 hd)

/-- **An unrecorded tombstone.** The first loop removes the entry of a method whose signature has
changed, and does not record it. -/
theorem foldl_syncActive_changed {es : List MethodEntry} {m e : MethodEntry} (hm : m ∈ es)
    (hne : e.signatureHash ≠ m.signatureHash) :
    ∀ {t : MethodIdTable} {d : List MethodEntry}, t.Valid → (es.map MethodEntry.name).Nodup →
      (∀ a ∈ es, a.signatureHash ≠ 0) → t.findByName m.name = some e →
      (∀ y ∈ d, y.id.toNat ≠ e.id.toNat) →
      (∃ y, (es.foldl syncActive (t, d)).1.entries[e.id.toNat]? = some y ∧ y.state = .removed) ∧
        ∀ y ∈ (es.foldl syncActive (t, d)).2, y.id.toNat ≠ e.id.toNat := by
  induction es with
  | nil => exact absurd hm List.not_mem_nil
  | cons a es ih =>
    intro t d h hnodup hes hfind hd
    rw [List.map_cons, List.nodup_cons] at hnodup
    have hhash := hes a List.mem_cons_self
    have hes' : ∀ b ∈ es, b.signatureHash ≠ 0 := fun b hb => hes b (List.mem_cons_of_mem _ hb)
    have hvalid := (syncActive_valid (t, d) a h).1
    have hget := (h.findByName hfind).1
    have hrec := syncActive_recorded h hhash (List.getElem?_eq_some_iff.mp hget).1 hd
    rw [List.foldl_cons]
    rcases List.mem_cons.mp hm with rfl | hm
    · -- this step puts the tombstone
      have hremoved : ∃ y, (syncActive (t, d) m).1.entries[e.id.toNat]? = some y ∧
          y.state = .removed := by
        rcases syncActive_cases h d hhash with ⟨-, hsame⟩ | ⟨hname, s, hs, -, hcases, heq⟩
        · rcases hsame with hempty | ⟨current, hcurrent, hsame⟩
          · obtain ⟨-, hactive, hename⟩ := h.findByName hfind
            exact absurd (hename.trans hempty) (h.name_ne hget hactive)
          · obtain rfl := Option.some.inj (hfind.symm.trans hcurrent)
            exact absurd hsame hne
        · rcases hcases with ⟨hnone, -⟩ | ⟨current, hcurrent, -, rfl⟩
          · exact absurd (hfind.symm.trans hnone) (by simp)
          · obtain rfl := Option.some.inj (hfind.symm.trans hcurrent)
            obtain ⟨y, hy, hsucc⟩ := MethodIdTable.append_extends hs m.name m.signatureHash
              e.id.toNat _ (MethodIdTable.getElem?_tombstone.mpr ⟨e, hget, by rw [if_pos rfl]⟩)
            rw [heq]
            exact ⟨y, hy, hsucc.removed rfl⟩
      obtain ⟨y, hy, hyremoved⟩ := hremoved
      exact foldl_syncActive_removed hvalid hes' hy hyremoved hrec
    · have hother : m.name ≠ a.name :=
        fun heq => hnodup.1 (heq ▸ List.mem_map_of_mem (f := MethodEntry.name) hm)
      exact ih hm hvalid hnodup.2 hes'
        ((findByName_syncActive_ne h d hhash hother).trans hfind) hrec

/-- The last loop leaves it unrecorded. -/
theorem foldl_syncRemoved_removed (ns : List Name) :
    ∀ {t : MethodIdTable} {d : List MethodEntry} {x : MethodEntry}, t.Valid →
      t.entries[i]? = some x → x.state = .removed → (∀ y ∈ d, y.id.toNat ≠ i) →
      (∃ y, (ns.foldl syncRemoved (t, d)).1.entries[i]? = some y ∧ y.state = .removed) ∧
        ∀ y ∈ (ns.foldl syncRemoved (t, d)).2, y.id.toNat ≠ i := by
  induction ns with
  | nil => intro t d x _ hx hremoved hd; exact ⟨⟨x, hx, hremoved⟩, hd⟩
  | cons n ns ih =>
    intro t d x h hx hremoved hd
    obtain ⟨hvalid, hext⟩ := syncRemoved_valid (t, d) n h
    obtain ⟨y, hy, hsucc⟩ := hext i x hx
    have hrec : ∀ z ∈ (syncRemoved (t, d) n).2, z.id.toNat ≠ i := by
      rcases syncRemoved_cases h d n with ⟨heq, -⟩ | ⟨current, hcurrent, heq⟩
      · rw [heq]
        exact hd
      · rw [heq]
        intro z hz
        rcases List.mem_append.mp hz with hz | hz
        · exact hd z hz
        · -- what the last loop removes was active
          obtain rfl := List.mem_singleton.mp hz
          rintro rfl
          obtain ⟨hget, hactive, -⟩ := h.findByName hcurrent
          obtain rfl := Option.some.inj (hget.symm.trans hx)
          exact absurd (hactive.symm.trans hremoved) (by simp)
    exact ih hvalid hy (hsucc.removed hremoved) hrec

end Changed

/-- A mirror never reaches the table of a server on which a signature has changed. -/
theorem applyRemoteDelta_changed {T : MethodIdTable} (h : T.Valid) {es : List MethodEntry}
    (hnodup : (es.map MethodEntry.name).Nodup) (hhash : ∀ a ∈ es, a.signatureHash ≠ 0)
    {m e : MethodEntry} (hm : m ∈ es) (hfind : T.findByName m.name = some e)
    (hne : e.signatureHash ≠ m.signatureHash) (version : UInt64) :
    T.applyRemoteDelta (syncMethodTable T es).2 version ≠ some (syncMethodTable T es).1 := by
  intro happly
  obtain ⟨hget, hactive, -⟩ := h.findByName hfind
  obtain ⟨⟨x, hx, hxremoved⟩, hrec⟩ := foldl_syncActive_changed hm hne h hnodup hhash hfind
    (d := []) (fun y hy => absurd hy List.not_mem_nil)
  have hvalid : (es.foldl syncActive (T, [])).1.Valid :=
    (AppendOnly.Extends.foldl (MethodIdTable.entries ∘ Prod.fst) syncActive_valid es (T, []) h).1
  obtain ⟨⟨y, hy, hyremoved⟩, hrec'⟩ :=
    foldl_syncRemoved_removed (removedNames (es.foldl syncActive (T, [])).1 es) hvalid hx
      hxremoved hrec
  obtain ⟨-, -, -, -, -, c, hc, hentries⟩ := MethodIdTable.applyRemoteDelta_spec h happly
  -- the mirror still has the entry active
  have hc' := MethodIdTable.installDelta_getElem? hc hget hrec'
  rw [← hentries] at hc'
  have heq : some e = some y := hc'.symm.trans hy
  obtain rfl := Option.some.inj heq
  exact absurd (hactive.symm.trans hyremoved) (by simp)

/-! ## New tables -/

/-- A table that `k` methods were added to since it was new, all of them among the `names`. -/
structure Grown (names : List Name) (t : MethodIdTable) (k : ℕ) : Prop where
  valid : t.Valid
  length_eq : t.entries.length = k
  version_eq : t.version.toNat = k
  minimum_eq : k ≠ 0 → t.minimumCompatibleVersion = initialTableVersion
  name_mem : ∀ x ∈ t.entries, x.name ∈ names

section Grown

variable {names : List Name} {t : MethodIdTable} {k : ℕ}

theorem Grown.append (h : Grown names t k) {name : Name} {hash : UInt64} (hmem : name ∈ names)
    (hname : name ≠ []) (hhash : hash ≠ 0) (hfree : t.nameToId name = none) :
    Grown names (t.append name hash).1 (min (k + 1) t.maxEntries.toNat) := by
  have hvalid := MethodIdTable.append_valid h.valid hname hhash hfree
  have hle := h.valid.length_le
  have hlength := h.length_eq
  rcases MethodIdTable.append_spec h.valid name hash with
    ⟨heq, hfull⟩ | ⟨t', e, heq, he, hentries, hversion, hmin, hmax, hroom⟩
  · rw [heq, show min (k + 1) t.maxEntries.toNat = k by omega]
    exact h
  · rw [heq] at hvalid ⊢
    rw [show min (k + 1) t.maxEntries.toNat = k + 1 by omega]
    have hcap := t.maxEntries.toNat_lt
    have hsize : UInt64.size = 2 ^ 64 := rfl
    refine ⟨hvalid, ?_, ?_, fun _ => ?_, ?_⟩
    · rw [hentries, List.length_append, List.length_singleton, hlength]
    · rw [hversion, MethodIdTable.bumpVersion_version, h.version_eq]
      omega
    · rw [hmin]
      by_cases hzero : t.version = 0
      · unfold MethodIdTable.bumpVersion
        rw [if_pos hzero]
      · rw [(MethodIdTable.bumpVersion_window t).minimum_eq hzero]
        refine h.minimum_eq fun hk => hzero (UInt64.toNat_inj.mp ?_)
        rw [h.version_eq, hk, UInt64.toNat_zero]
    · intro x hx
      rw [hentries] at hx
      rcases List.mem_append.mp hx with hx | hx
      · exact h.name_mem x hx
      · rw [List.mem_singleton.mp hx, he]
        exact hmem

/-- The first loop on a table that knows none of the methods. -/
theorem Grown.foldl_syncActive {es : List MethodEntry} :
    ∀ {t : MethodIdTable} {k : ℕ} {d : List MethodEntry}, Grown names t k →
      (es.map MethodEntry.name).Nodup →
      (∀ a ∈ es, a.name ∈ names ∧ a.signatureHash ≠ 0 ∧ t.findByName a.name = none) →
      Grown names (es.foldl syncActive (t, d)).1
        (min (k + (es.filter (·.name ≠ [])).length) t.maxEntries.toNat) := by
  induction es with
  | nil =>
    intro t k d h _ _
    have hle := h.valid.length_le
    rw [h.length_eq] at hle
    rw [List.filter_nil, List.length_nil, Nat.add_zero, Nat.min_eq_left hle]
    exact h
  | cons a es ih =>
    intro t k d h hnodup hes
    rw [List.map_cons, List.nodup_cons] at hnodup
    obtain ⟨hmem, hhash, hnone⟩ := hes a List.mem_cons_self
    have hrest : ∀ b ∈ es, b.name ∈ names ∧ b.signatureHash ≠ 0 ∧
        (syncActive (t, d) a).1.findByName b.name = none := by
      intro b hb
      obtain ⟨hbmem, hbhash, hbnone⟩ := hes b (List.mem_cons_of_mem _ hb)
      have hne : b.name ≠ a.name :=
        fun heq => hnodup.1 (heq ▸ List.mem_map_of_mem (f := MethodEntry.name) hb)
      exact ⟨hbmem, hbhash, (findByName_syncActive_ne h.valid d hhash hne).trans hbnone⟩
    rw [List.foldl_cons]
    rcases syncActive_cases h.valid d hhash with ⟨heq, hcase⟩ | ⟨hname, s, -, hfree, hcases, heq⟩
    · have hname : a.name = [] := hcase.resolve_right fun ⟨current, hcurrent, _⟩ =>
        absurd (hnone.symm.trans hcurrent) (by simp)
      rw [heq] at hrest ⊢
      rw [List.filter_cons_of_neg (by simp [hname])]
      exact ih h hnodup.2 hrest
    · rcases hcases with ⟨-, rfl⟩ | ⟨current, hcurrent, -⟩
      · have hgrown := h.append hmem hname hhash hfree
        have hcap := MethodIdTable.append_maxEntries h.valid a.name a.signatureHash
        have hk := h.valid.length_le
        rw [h.length_eq] at hk
        rw [heq] at hrest ⊢
        have hfold := ih (d := d ++ (s.append a.name a.signatureHash).2.toList) hgrown hnodup.2
          hrest
        rw [hcap] at hfold
        rw [List.filter_cons_of_pos (by simp [hname]), List.length_cons]
        convert hfold using 1
        omega
      · exact absurd (hnone.symm.trans hcurrent) (by simp)

end Grown

/-- **A new table.** It takes the registered methods that have a name, as far as there is room,
and counts them. -/
theorem syncMethodTable_new {T : MethodIdTable} (h : T.Valid) (hversion : T.version = 0)
    (hempty : T.entries = []) {es : List MethodEntry} (hnodup : (es.map MethodEntry.name).Nodup)
    (hhash : ∀ a ∈ es, a.signatureHash ≠ 0) :
    Grown (es.map MethodEntry.name) (syncMethodTable T es).1
      (min (es.filter (·.name ≠ [])).length T.maxEntries.toNat) := by
  have hnew : Grown (es.map MethodEntry.name) T 0 :=
    ⟨h, by rw [hempty, List.length_nil], by rw [hversion, UInt64.toNat_zero],
      fun hk => absurd rfl hk, fun x hx => by rw [hempty] at hx; exact absurd hx List.not_mem_nil⟩
  have hnone : ∀ name, T.findByName name = none := by
    intro name
    rw [Option.eq_none_iff_forall_ne_some]
    intro e he
    have hget := (h.findByName he).1
    rw [hempty] at hget
    exact absurd hget (by simp)
  have hgrown := hnew.foldl_syncActive (d := []) hnodup
    fun a ha => ⟨List.mem_map_of_mem ha, hhash a ha, hnone a.name⟩
  rw [Nat.zero_add] at hgrown
  have hremoved : removedNames (es.foldl syncActive (T, [])).1 es = [] := by
    rw [List.eq_nil_iff_forall_not_mem]
    intro n hn
    obtain ⟨x, hx, hxn⟩ := List.mem_map.mp hn
    exact not_mem_of_removedNames hn (hxn ▸ hgrown.name_mem x (List.mem_of_mem_filter hx))
  unfold syncMethodTable
  simp only
  rw [hremoved]
  exact hgrown

/-! ## Reachable tables -/

/-- A table with entries has a version. -/
def MethodIdTable.Versioned (t : MethodIdTable) : Prop := t.version = 0 → t.entries = []

namespace MethodIdTable

theorem bumpVersion_ne_zero (t : MethodIdTable) : t.bumpVersion.version ≠ 0 := by
  intro hzero
  have hbump := bumpVersion_version t
  rw [hzero, UInt64.toNat_zero] at hbump
  have hsize : UInt64.size = 2 ^ 64 := rfl
  omega

theorem append_versioned {t : MethodIdTable} (h : t.Valid) (hv : t.Versioned) (name : Name)
    (hash : UInt64) : (t.append name hash).1.Versioned := by
  rcases append_spec h name hash with ⟨heq, -⟩ | ⟨t', e, heq, -, -, hversion, -⟩
  · rw [heq]
    exact hv
  · rw [heq]
    exact fun hzero => absurd (hversion.symm.trans hzero) (bumpVersion_ne_zero t)

/-- The entries of a table that is being reset have a version. -/
theorem resetValidated_versioned {t : MethodIdTable} {es : List MethodEntry} {version : UInt64}
    (h : t.validTable es version true = true) : (t.resetValidated es version).Versioned := by
  obtain ⟨hentries, hversion, -⟩ := resetValidated_spec h
  intro hzero
  have hne := ((validTable_iff t es version).mp h).2.1
  rw [hversion] at hzero
  split_ifs at hzero with hes
  · rw [hentries, hes, List.map_nil]
  · exact absurd hzero (hne hes)

end MethodIdTable

theorem TableUpdate.apply_versioned {t : MethodIdTable} (h : t.Valid) (hv : t.Versioned)
    (op : TableUpdate) : (op.apply t).1.Versioned := by
  have hassign : ∀ r : Option MethodIdTable, (∀ t', r = some t' → t'.Versioned) →
      (assign t r).1.Versioned := by
    intro r hr
    cases r with
    | none => exact hv
    | some candidate => exact hr candidate rfl
  cases op with
  | clear => exact fun _ => rfl
  | reset entries version =>
    show (t.reset entries version).Versioned
    unfold MethodIdTable.reset
    split_ifs with hvalid
    · exact MethodIdTable.resetValidated_versioned hvalid
    · exact fun _ => rfl
  | applyRemoteTable entries version =>
    refine hassign _ fun t' ht' => ?_
    unfold MethodIdTable.applyRemoteTable at ht'
    split_ifs at ht' with hvalid
    obtain rfl := Option.some.inj ht'
    exact MethodIdTable.resetValidated_versioned ((MethodIdTable.validTable_iff _ _ _).mpr
      ((MethodIdTable.validTable_iff t _ _).mp hvalid))
  | applyRemoteDelta entries version =>
    refine hassign _ fun t' ht' => ?_
    obtain ⟨-, hne, hversion, -⟩ := MethodIdTable.applyRemoteDelta_spec h ht'
    exact fun hzero => absurd (hversion.symm.trans hzero) hne
  | upsert name hash =>
    show (t.upsert name hash).1.Versioned
    unfold MethodIdTable.upsert
    by_cases hname : name = []
    · rw [if_pos hname]
      exact hv
    rw [if_neg hname]
    generalize (if hash = 0 then MethodIdTable.signatureHash name [] else hash) = hash'
    cases hid : t.nameToId name with
    | none => exact MethodIdTable.append_versioned h hv name hash'
    | some id =>
      simp only
      split_ifs
      · exact hv
      · exact MethodIdTable.append_versioned (h.tombstone hid)
          (fun hzero => List.modify_eq_nil_iff.mpr (hv hzero)) name hash'
  | remove name =>
    show (t.remove name).1.Versioned
    unfold MethodIdTable.remove
    cases t.nameToId name with
    | none => exact hv
    | some id => exact fun hzero => absurd hzero (MethodIdTable.bumpVersion_ne_zero _)
  | setMinimumCompatibleVersion version => exact hv

theorem updates_versioned {ops : List TableUpdate} : ∀ {t : MethodIdTable}, t.Valid →
    t.Versioned → (t.updates ops).Versioned := by
  induction ops with
  | nil => intro t _ hv; exact hv
  | cons op ops ih => intro t h hv; exact ih (op.apply_valid h).1 (op.apply_versioned h hv)

/-! ## The registered methods -/

/-- What a dispatcher lists: its handlers are a map by name, so every name comes once. -/
structure MethodCatalog where
  methods : List MethodMetadata
  nodup : (methods.map MethodMetadata.name).Nodup

namespace MethodCatalog

variable (catalog : MethodCatalog)

/-- The entries `refreshMethodCatalog` synchronises with. -/
def entries : List MethodEntry := methodEntries catalog.methods

/-- The methods a table can hold. -/
def named : List MethodMetadata := catalog.methods.filter (·.name ≠ [])

/-- No active entry has the name of a registered method with another signature. -/
def SignaturesKept (t : MethodIdTable) : Prop :=
  ∀ m ∈ catalog.methods, ∀ e, t.findByName m.name = some e →
    e.signatureHash = MethodIdTable.signatureHash m.name m.signature

end MethodCatalog

theorem methodEntriesFrom_map_name (ms : List MethodMetadata) : ∀ id,
    (methodEntriesFrom id ms).map MethodEntry.name = ms.map MethodMetadata.name := by
  induction ms with
  | nil => intro id; rfl
  | cons m ms ih => intro id; rw [methodEntriesFrom, List.map_cons, List.map_cons, ih]

theorem mem_methodEntriesFrom {ms : List MethodMetadata} {e : MethodEntry} : ∀ {id},
    e ∈ methodEntriesFrom id ms → ∃ m ∈ ms, e.name = m.name ∧
      e.signatureHash = MethodIdTable.signatureHash m.name m.signature := by
  induction ms with
  | nil => intro id h; exact absurd h List.not_mem_nil
  | cons m ms ih =>
    intro id h
    rcases List.mem_cons.mp h with rfl | h
    · exact ⟨m, List.mem_cons_self, rfl, rfl⟩
    · obtain ⟨x, hx, heq⟩ := ih h
      exact ⟨x, List.mem_cons_of_mem _ hx, heq⟩

theorem exists_mem_methodEntriesFrom {ms : List MethodMetadata} {m : MethodMetadata}
    (hm : m ∈ ms) : ∀ id, ∃ e ∈ methodEntriesFrom id ms, e.name = m.name ∧
      e.signatureHash = MethodIdTable.signatureHash m.name m.signature := by
  induction ms with
  | nil => exact absurd hm List.not_mem_nil
  | cons x ms ih =>
    intro id
    rcases List.mem_cons.mp hm with rfl | hm
    · exact ⟨_, List.mem_cons_self, rfl, rfl⟩
    · obtain ⟨e, he, heq⟩ := ih hm (id + 1)
      exact ⟨e, List.mem_cons_of_mem _ he, heq⟩

namespace MethodCatalog

variable (catalog : MethodCatalog)

theorem entries_nodup : (catalog.entries.map MethodEntry.name).Nodup := by
  rw [entries, methodEntries, methodEntriesFrom_map_name]
  exact catalog.nodup

theorem entries_hash {e : MethodEntry} (he : e ∈ catalog.entries) : e.signatureHash ≠ 0 := by
  obtain ⟨m, -, -, heq⟩ := mem_methodEntriesFrom he
  rw [heq]
  exact MethodIdTable.signatureHash_ne_zero _ _

theorem length_named :
    (catalog.entries.filter (·.name ≠ [])).length = catalog.named.length := by
  have hmap := congrArg (fun ns : List Name => (ns.filter (· ≠ [])).length)
    (methodEntriesFrom_map_name catalog.methods 0)
  simp only [List.filter_map, List.length_map] at hmap
  exact hmap

end MethodCatalog

/-! ## Delta synchronisation against full synchronisation -/

/-- **Delta synchronisation.** Take any table of a server, and the methods registered now. A
mirror of the table that gets the delta at the new version accepts it and becomes the server's
new table exactly when no signature has changed, and the old table has a version and a minimum
compatible version, or is new and takes a single method. -/
theorem delta_refines_iff (maxEntries : UInt64) (ops : List TableUpdate)
    (catalog : MethodCatalog) :
    let T := MethodIdTable.updates { maxEntries := maxEntries } ops
    let T' := (syncMethodTable T catalog.entries).1
    let delta := (syncMethodTable T catalog.entries).2
    T.applyRemoteDelta delta T'.version = some T' ↔
      catalog.SignaturesKept T ∧
        ((T.version ≠ 0 ∧ T.minimumCompatibleVersion ≠ 0) ∨
          (T.version = 0 ∧ min catalog.named.length maxEntries.toNat = 1)) := by
  intro T T' delta
  obtain ⟨hT, hmax⟩ : T.Valid ∧ T.maxEntries = maxEntries :=
    updates_valid (MethodIdTable.clear_valid { maxEntries := maxEntries })
  have hversioned : T.Versioned :=
    updates_versioned (MethodIdTable.clear_valid { maxEntries := maxEntries }) fun _ => rfl
  have hhash : ∀ a ∈ catalog.entries, a.signatureHash ≠ 0 := fun a ha => catalog.entries_hash ha
  by_cases hkept : catalog.SignaturesKept T
  · have hreplays : Replays T _ T' delta :=
      replays_syncMethodTable hT catalog.entries_nodup hhash fun a ha current hcurrent => by
        obtain ⟨m, hm, hname, heq⟩ := mem_methodEntriesFrom ha
        rw [heq]
        exact hkept m hm current (hname ▸ hcurrent)
    have hwindow : MethodIdTable.Window T T' := syncMethodTable_window hT hhash
    rw [hreplays.applyRemoteDelta_iff hT hwindow.version_le, and_iff_right hkept]
    by_cases hzero : T.version = 0
    · have hgrown := syncMethodTable_new hT hzero (hversioned hzero) catalog.entries_nodup hhash
      rw [catalog.length_named, hmax] at hgrown
      have hversion' : T'.version.toNat = min catalog.named.length maxEntries.toNat :=
        hgrown.version_eq
      have hmin : T.minimumCompatibleVersion = 0 := by
        have hle := UInt64.le_iff_toNat_le.mp hT.minimum_le
        rw [hzero, UInt64.toNat_zero] at hle
        exact UInt64.toNat_inj.mp (by rw [UInt64.toNat_zero]; omega)
      rw [if_pos hmin]
      constructor
      · rintro ⟨hne, heq⟩
        have hk : min catalog.named.length maxEntries.toNat ≠ 0 := fun hk =>
          hne (UInt64.toNat_inj.mp (by rw [hversion', hk, UInt64.toNat_zero]))
        rw [hgrown.minimum_eq hk] at heq
        exact Or.inr ⟨hzero, by rw [← hversion', ← heq]; rfl⟩
      · rintro (⟨hne, -⟩ | ⟨-, hone⟩)
        · exact absurd hzero hne
        · have heq : T'.version = initialTableVersion :=
            UInt64.toNat_inj.mp (by rw [hversion', hone]; rfl)
          exact ⟨by rw [heq]; decide, by rw [heq, hgrown.minimum_eq (by omega)]⟩
    · have hmin := hwindow.minimum_eq hzero
      constructor
      · rintro ⟨hne, heq⟩
        refine Or.inl ⟨hzero, fun hmzero => hne ?_⟩
        rw [if_pos hmzero, hmin, hmzero] at heq
        exact heq.symm
      · rintro (⟨-, hmzero⟩ | ⟨hzero', -⟩)
        · exact ⟨hwindow.version_ne hzero, by rw [if_neg hmzero]; exact hmin⟩
        · exact absurd hzero' hzero
  · refine iff_of_false ?_ fun h => hkept h.1
    unfold MethodCatalog.SignaturesKept at hkept
    push Not at hkept
    obtain ⟨m, hm, e, hfind, hne⟩ := hkept
    obtain ⟨a, ha, hname, heq⟩ := exists_mem_methodEntriesFrom hm 0
    exact applyRemoteDelta_changed hT catalog.entries_nodup hhash ha (hname ▸ hfind)
      (heq ▸ hne) _

/-- The delta of a changed signature is refused by the mirror. -/
theorem delta_refines_fails :
    let T := MethodIdTable.updates { maxEntries := 4 } [.upsert [97] 1]
    let s := syncMethodTable T (MethodCatalog.entries ⟨[⟨[97], [105]⟩], by decide⟩)
    ¬T.applyRemoteDelta s.2 s.1.version = some s.1 := by
  intro T s h
  have hnone : (T.applyRemoteDelta s.2 s.1.version).isNone = true := by decide +kernel
  rw [h] at hnone
  exact absurd hnone (by simp)

end NekoProto.Rpc
