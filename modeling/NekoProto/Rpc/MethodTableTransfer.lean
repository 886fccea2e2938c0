import NekoProto.Rpc.DeltaRefinement

/-!
# Method table transfer

A server that finds room for its table in an extension area sends it; the client parses the
extension and takes the table over. `table_transfer_iff`: the client ends with the same entries
exactly when every name fits its 16-bit size and the client has room for them. The encoder leaves
an entry with a longer name out and the others keep their ids, so the client sees a gap or misses
the last entries.
-/

namespace NekoProto.Rpc

/-! ## Encoded tables parse -/

/-- Encoded entries are read back. -/
theorem parseMethodEntries_encode : ∀ {es : List MethodEntry},
    (∀ e ∈ es, e.shortName = true) → (∀ e ∈ es, e.state ≠ .active → e.state = .removed) →
      parseMethodEntries es.length (es.flatMap encodeMethodEntry) = some (es, []) := by
  intro es
  induction es with
  | nil => intro _ _; rfl
  | cons e es ih =>
    intro hes hknown
    have he : ¬(e.state ≠ .active ∧ e.state ≠ .removed) := fun h =>
      h.2 (hknown e List.mem_cons_self h.1)
    rw [List.flatMap_cons, List.length_cons, parseMethodEntries_cons (hes e List.mem_cons_self),
      if_neg he, ih (fun x hx => hes x (List.mem_cons_of_mem _ hx)) fun x hx =>
        hknown x (List.mem_cons_of_mem _ hx)]
    rfl

/-- An encoded table whose count does not wrap is read back. -/
theorem parseMethodEntriesValue_encode {es : List MethodEntry}
    (hknown : ∀ e ∈ es, e.state ≠ .active → e.state = .removed)
    (hcount : (es.filter MethodEntry.shortName).length < 256 ^ 4) :
    parseMethodEntriesValue (encodeMethodEntriesValue es) =
      some (es.filter MethodEntry.shortName) := by
  unfold parseMethodEntriesValue encodeMethodEntriesValue
  set short := es.filter MethodEntry.shortName with hshort
  have hformat : readInteger 1 (integerValue 1 methodTableFormatVersion ++
      (integerValue 4 short.length ++ short.flatMap encodeMethodEntry)) 0 =
        methodTableFormatVersion :=
    @readInteger_append 1 _ 0 (by decide) [] List.length_nil _
  have hread : readInteger 4 (integerValue 1 methodTableFormatVersion ++
      (integerValue 4 short.length ++ short.flatMap encodeMethodEntry)) 1 = short.length :=
    readInteger_append hcount (length_integerValue 1 _) _
  have hdrop : (integerValue 1 methodTableFormatVersion ++ (integerValue 4 short.length ++
      short.flatMap encodeMethodEntry)).drop 5 = short.flatMap encodeMethodEntry := by
    rw [← List.append_assoc]
    exact List.drop_left' (by simp)
  simp only
  rw [if_neg (by simp; omega), if_pos ⟨by simp; omega, hformat⟩, hread, hdrop,
    parseMethodEntries_encode (fun e he => (List.mem_filter.mp he).2) fun e he =>
      hknown e (List.mem_filter.mp he).1]

theorem length_encodeMethodEntriesValue (es : List MethodEntry) :
    5 + (es.filter MethodEntry.shortName).length ≤ (encodeMethodEntriesValue es).length := by
  have hflat : ∀ short : List MethodEntry,
      short.length ≤ (short.flatMap encodeMethodEntry).length := by
    intro short
    induction short with
    | nil => exact Nat.zero_le _
    | cons e short ih =>
      rw [List.flatMap_cons, List.length_append, List.length_cons]
      have hone : 1 ≤ (encodeMethodEntry e).length := by
        simp [encodeMethodEntry]
        omega
      omega
  have hle := hflat (es.filter MethodEntry.shortName)
  unfold encodeMethodEntriesValue
  simp only [List.length_append, length_integerValue]
  omega

/-! ## Extensions that fit -/

/-- A value that passes `_extensionWireSize` fits its 16-bit size. -/
theorem length_le_of_extensionWireSizeFrom {m : ExtensionMap} : ∀ {size total : ℕ},
    extensionWireSizeFrom size m = some total → ∀ {type value},
      ExtensionMap.find type m = some value → value.length ≤ 65535 := by
  induction m with
  | nil => intro size total _ type value h; exact absurd h (by simp [ExtensionMap.find])
  | cons entry m ih =>
    obtain ⟨t, v⟩ := entry
    intro size total h type value hfind
    unfold extensionWireSizeFrom at h
    split_ifs at h with hbad
    unfold ExtensionMap.find at hfind
    split_ifs at hfind with heq
    · obtain rfl := Option.some.inj hfind
      omega
    · exact ih h hfind

/-- A table that fits the budget has fewer entries than its 32-bit count can express. -/
theorem count_lt_of_fits {options : Options} {context : ServerContext}
    (h : extensionsFitAutoBudget options (methodIdTableExtensions context true) = true) :
    (context.methodTable.entries.filter MethodEntry.shortName).length < 256 ^ 4 := by
  unfold extensionsFitAutoBudget at h
  cases hsize : extensionWireSize (methodIdTableExtensions context true) with
  | none => rw [hsize] at h; exact absurd h (by simp)
  | some size =>
    have hle := length_le_of_extensionWireSizeFrom hsize (find_methodIdTableExtensions context).1
    have hlen := length_encodeMethodEntriesValue context.methodTable.entries
    omega

/-! ## The transfer -/

/-- The entries of a valid table have their hashes already. -/
theorem map_withHash {t : MethodIdTable} (h : t.Valid) :
    t.entries.map MethodEntry.withHash = t.entries := by
  refine (List.map_congr_left fun e he => ?_).trans (List.map_id _)
  by_cases hname : e.name = []
  · unfold MethodEntry.withHash
    rw [if_neg fun hc => hc.2 hname]
    rfl
  · exact (MethodIdTable.withHash_spec e).2.2.2 hname (h.hashed e he hname)

/-- Taking over the entries of a valid table. -/
theorem applyRemoteTable_isSome {t client : MethodIdTable} (h : t.Valid) (hv : t.Versioned)
    (hlen : t.entries.length ≤ client.maxEntries.toNat) :
    ∃ t', client.applyRemoteTable t.entries t.version = some t' := by
  unfold MethodIdTable.applyRemoteTable
  rw [if_pos ((MethodIdTable.validTable_iff _ _ _).mpr
    ⟨hlen, fun hne hzero => hne (hv hzero), h.numbered, h.unambiguous⟩)]
  exact ⟨_, rfl⟩

/-- What a client makes of a published table. -/
theorem transfer_iff {context : ServerContext} (h : context.methodTable.Valid)
    (hv : context.methodTable.Versioned) {options : Options}
    (hfits : extensionsFitAutoBudget options (methodIdTableExtensions context true) = true)
    (client : MethodIdTable) :
    (∃ entries t', parseMethodEntriesTlv (methodIdTableExtensions context true) .methodTable =
        some entries ∧ client.applyRemoteTable entries context.methodTable.version = some t' ∧
        t'.entries = context.methodTable.entries) ↔
      (∀ e ∈ context.methodTable.entries, e.name.length ≤ 65535) ∧
        context.methodTable.entries.length ≤ client.maxEntries.toNat := by
  have hparse : parseMethodEntriesTlv (methodIdTableExtensions context true) .methodTable =
      some (context.methodTable.entries.filter MethodEntry.shortName) := by
    rw [parseMethodEntriesTlv, (find_methodIdTableExtensions context).1, Option.bind_some]
    refine parseMethodEntriesValue_encode (fun e he => ?_) (count_lt_of_fits hfits)
    obtain ⟨i, hi⟩ := List.mem_iff_getElem?.mp he
    exact h.known hi
  constructor
  · rintro ⟨entries, t', hentries, happly, heq⟩
    obtain rfl := Option.some.inj (hparse.symm.trans hentries)
    obtain ⟨htaken, -, hvalid⟩ := MethodIdTable.applyRemoteTable_spec happly
    -- as many entries as before: none was left out
    have hlength : (context.methodTable.entries.filter MethodEntry.shortName).length =
        context.methodTable.entries.length := by
      have hlen := congrArg List.length (htaken.symm.trans heq)
      rwa [List.length_map] at hlen
    refine ⟨fun e he => ?_, ?_⟩
    · have hall := List.length_filter_eq_length_iff.mp hlength e he
      simpa [MethodEntry.shortName] using hall
    · rw [← heq, ← MethodIdTable.applyRemoteTable_maxEntries happly]
      exact hvalid.length_le
  · rintro ⟨hshort, hlen⟩
    have hall : context.methodTable.entries.filter MethodEntry.shortName =
        context.methodTable.entries :=
      List.filter_eq_self.mpr fun e he => by simpa [MethodEntry.shortName] using hshort e he
    rw [hall] at hparse
    obtain ⟨t', ht'⟩ := applyRemoteTable_isSome h hv hlen
    exact ⟨_, t', hparse, ht',
      (MethodIdTable.applyRemoteTable_spec ht').1.trans (map_withHash h)⟩

/-- **Method table transfer.** Take any table of a server, reached by any updates, that fits the
automatic budget. The client parses the extension and ends with the same entries exactly when
every name fits its 16-bit size and the client has room for the entries. -/
theorem table_transfer_iff (options : Options) (maxEntries : UInt64) (ops : List TableUpdate)
    (client : MethodIdTable) :
    let context : ServerContext := {
      options := options
      methodTable := MethodIdTable.updates { maxEntries := maxEntries } ops }
    extensionsFitAutoBudget options (methodIdTableExtensions context true) = true →
      ((∃ entries t', parseMethodEntriesTlv (methodIdTableExtensions context true) .methodTable =
          some entries ∧ client.applyRemoteTable entries context.methodTable.version = some t' ∧
          t'.entries = context.methodTable.entries) ↔
        (∀ e ∈ context.methodTable.entries, e.name.length ≤ 65535) ∧
          context.methodTable.entries.length ≤ client.maxEntries.toNat) := by
  intro context hfits
  have hnew := MethodIdTable.clear_valid { maxEntries := maxEntries }
  exact transfer_iff (updates_valid hnew).1 (updates_versioned hnew fun _ => rfl) hfits client

/-- A table with one method. -/
theorem table_transfer_one :
    (∃ entries t', parseMethodEntriesTlv (methodIdTableExtensions
          { options := {}, methodTable := MethodIdTable.updates { maxEntries := 4 }
              [.upsert [97] 1] } true) .methodTable = some entries ∧
        MethodIdTable.applyRemoteTable { maxEntries := 4 } entries
          (MethodIdTable.updates { maxEntries := 4 } [.upsert [97] 1]).version = some t' ∧
        t'.entries = (MethodIdTable.updates { maxEntries := 4 } [.upsert [97] 1]).entries) ↔
      (∀ e ∈ (MethodIdTable.updates { maxEntries := 4 } [.upsert [97] 1]).entries,
          e.name.length ≤ 65535) ∧
        (MethodIdTable.updates { maxEntries := 4 } [.upsert [97] 1]).entries.length ≤ 4 :=
  table_transfer_iff {} 4 [.upsert [97] 1] { maxEntries := 4 } (by decide +kernel)

/-- A new table with one method. -/
theorem updates_upsert_entries {name : Name} (hname : name ≠ []) :
    (MethodIdTable.updates { maxEntries := 4 } [.upsert name 1]).entries =
      [{ id := 0, name := name, signatureHash := 1 }] := by
  have hnew := MethodIdTable.clear_valid { maxEntries := 4 }
  show (MethodIdTable.upsert { maxEntries := 4 } name 1).1.entries = _
  unfold MethodIdTable.upsert
  rw [if_neg hname]
  rcases MethodIdTable.append_spec hnew name 1 with ⟨-, hfull⟩ | ⟨t', e, heq, rfl, hentries, -⟩
  · exact absurd hfull (by decide)
  · have happend : MethodIdTable.append { maxEntries := 4 } name 1 = (t', _) := heq
    simp only [show ((1 : UInt64) = 0) = False from eq_false (by decide), if_false, happend]
    exact hentries

/-- A name that is too long leaves the client without the entry. -/
theorem transfer_of_long {name : Name} (hlong : 65535 < name.length) :
    let context : ServerContext := {
      options := {}
      methodTable := MethodIdTable.updates { maxEntries := 4 } [.upsert name 1] }
    extensionsFitAutoBudget {} (methodIdTableExtensions context true) = true ∧
      ¬∃ entries t', parseMethodEntriesTlv (methodIdTableExtensions context true) .methodTable =
          some entries ∧ MethodIdTable.applyRemoteTable { maxEntries := 4 } entries
            context.methodTable.version = some t' ∧
          t'.entries = context.methodTable.entries := by
  intro context
  have hnew := MethodIdTable.clear_valid { maxEntries := 4 }
  have hentries : context.methodTable.entries =
      [{ id := 0, name := name, signatureHash := 1 }] :=
    updates_upsert_entries (List.ne_nil_of_length_pos (by omega))
  have hfilter : context.methodTable.entries.filter MethodEntry.shortName = [] := by
    rw [hentries, List.filter_cons_of_neg (by simp [MethodEntry.shortName, hlong]),
      List.filter_nil]
  have hfits : extensionsFitAutoBudget {} (methodIdTableExtensions context true) = true := by
    have hvalue : encodeMethodEntriesValue context.methodTable.entries = [2, 0, 0, 0, 0] := by
      unfold encodeMethodEntriesValue
      rw [hfilter]
      decide
    unfold methodIdTableExtensions
    rw [hvalue]
    simp [ExtensionMap.set, extensionsFitAutoBudget, extensionWireSize, extensionWireSizeFrom,
      maxExtensionBytes, ExtensionType.methodId, ExtensionType.methodTableVersion,
      ExtensionType.methodMinimumCompatibleVersion, ExtensionType.methodTable]
  refine ⟨hfits, fun htransfer => ?_⟩
  have hshort := ((transfer_iff (updates_valid hnew).1 (updates_versioned hnew fun _ => rfl) hfits
    _).mp htransfer).1 _ (by rw [hentries]; exact List.mem_singleton_self _)
  exact absurd hshort (Nat.not_le.mpr hlong)

/-- The table of a method whose name has 65536 bytes. -/
theorem table_transfer_fails :
    let context : ServerContext := {
      options := {}
      methodTable := MethodIdTable.updates { maxEntries := 4 }
        [.upsert (List.replicate 65536 97) 1] }
    extensionsFitAutoBudget {} (methodIdTableExtensions context true) = true ∧
      ¬∃ entries t', parseMethodEntriesTlv (methodIdTableExtensions context true) .methodTable =
          some entries ∧ MethodIdTable.applyRemoteTable { maxEntries := 4 } entries
            context.methodTable.version = some t' ∧
          t'.entries = context.methodTable.entries :=
  transfer_of_long (by rw [List.length_replicate]; decide)

end NekoProto.Rpc
