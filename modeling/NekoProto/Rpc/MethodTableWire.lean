import NekoProto.Rpc.MethodIdTable

/-!
# Method tables on the wire

The value of the `MethodTable` and `MethodTableDelta` extensions: a format version, a 32-bit
count, and for each entry its id, state, hash and name with a 16-bit size. The encoder leaves out
entries whose name is longer than that. What parses from an encoded table is exactly the entries
that were not left out (`parse_encode_methodEntries`).
-/

namespace NekoProto.Rpc

/-- `MethodTableFormatVersion`. -/
def methodTableFormatVersion : ℕ := 2

/-- The names the encoder can express. -/
def MethodEntry.shortName (entry : MethodEntry) : Bool := entry.name.length ≤ 65535

/-- The wire value of `NekoRpcMethodState`. -/
def MethodState.toNat : MethodState → ℕ
  | .active => 0
  | .removed => 1
  | .other value _ => value.toNat

/-- One entry of `encode_method_entries_value`. -/
def encodeMethodEntry (entry : MethodEntry) : MessageType :=
  integerValue 8 entry.id.toNat ++ (integerValue 1 entry.state.toNat ++
    (integerValue 8 entry.signatureHash.toNat ++ (integerValue 2 entry.name.length ++ entry.name)))

/-- `encode_method_entries_value`, with its 32-bit counter. -/
def encodeMethodEntriesValue (entries : List MethodEntry) : MessageType :=
  let short := entries.filter MethodEntry.shortName
  integerValue 1 methodTableFormatVersion ++ (integerValue 4 short.length ++
    short.flatMap encodeMethodEntry)

/-- The loop of `parse_method_entries_value` over the bytes from its `offset` on: the entries,
and the bytes left. -/
def parseMethodEntries : ℕ → MessageType → Option (List MethodEntry × MessageType)
  | 0, rest => some ([], rest)
  | count + 1, rest =>
    if rest.length < 19 then none
    else
      let id := readInteger 8 rest 0
      let rawState := readInteger 1 rest 8
      if rawState ≠ 0 ∧ rawState ≠ 1 then none
      else
        let hash := readInteger 8 rest 9
        let nameSize := readInteger 2 rest 17
        let rest := rest.drop 19
        if rest.length < nameSize then none
        else
          let entry : MethodEntry := {
            id := UInt64.ofNat id
            name := rest.take nameSize
            signatureHash := UInt64.ofNat hash
            state := if rawState = 0 then .active else .removed }
          match parseMethodEntries count (rest.drop nameSize) with
          | none => none
          | some (entries, rest) => some (entry :: entries, rest)

/-- `parse_method_entries_value`. -/
def parseMethodEntriesValue (value : MessageType) : Option (List MethodEntry) :=
  if value.length < 4 then none
  else if 5 ≤ value.length ∧ readInteger 1 value 0 = methodTableFormatVersion then
    match parseMethodEntries (readInteger 4 value 1) (value.drop 5) with
    | some (entries, []) => some entries
    | _ => none
  else none

/-- `parse_method_entries`. -/
def parseMethodEntriesTlv (extensions : ExtensionMap) (type : ExtensionType) :
    Option (List MethodEntry) :=
  (extensions.find type).bind parseMethodEntriesValue

/-! ## The round trip -/

theorem MethodState.toNat_lt (state : MethodState) : state.toNat < 256 ^ 1 := by
  cases state with
  | active => decide
  | removed => decide
  | other value h => exact value.toNat_lt

theorem MethodState.toNat_ne_iff {state : MethodState} :
    (state.toNat ≠ 0 ∧ state.toNat ≠ 1) ↔ state ≠ .active ∧ state ≠ .removed := by
  cases state with
  | active => decide
  | removed => decide
  | other value h =>
    have hlt : 1 < value.toNat := UInt8.lt_iff_toNat_lt.mp h
    simp only [toNat, ne_eq, reduceCtorEq, not_false_eq_true, and_self, iff_true]
    omega

theorem MethodState.ofRaw_toNat {state : MethodState} (h : ¬(state ≠ .active ∧ state ≠ .removed)) :
    (if state.toNat = 0 then MethodState.active else .removed) = state := by
  cases state with
  | active => rfl
  | removed => rfl
  | other value hvalue => simp at h

/-- The fields of an encoded entry, at their offsets. -/
theorem readInteger_encodeMethodEntry (e : MethodEntry) (he : e.shortName = true)
    (rest : MessageType) :
    readInteger 8 (encodeMethodEntry e ++ rest) 0 = e.id.toNat ∧
      readInteger 1 (encodeMethodEntry e ++ rest) 8 = e.state.toNat ∧
      readInteger 8 (encodeMethodEntry e ++ rest) 9 = e.signatureHash.toNat ∧
      readInteger 2 (encodeMethodEntry e ++ rest) 17 = e.name.length ∧
      (encodeMethodEntry e ++ rest).drop 19 = e.name ++ rest := by
  have hname : e.name.length < 256 ^ 2 := by
    have : e.name.length ≤ 65535 := by simpa [MethodEntry.shortName] using he
    omega
  have h8 := length_integerValue 8 e.id.toNat
  have h9 : (integerValue 8 e.id.toNat ++ integerValue 1 e.state.toNat).length = 9 := by simp
  have h17 : (integerValue 8 e.id.toNat ++ integerValue 1 e.state.toNat ++
      integerValue 8 e.signatureHash.toNat).length = 17 := by simp
  have h19 : (integerValue 8 e.id.toNat ++ integerValue 1 e.state.toNat ++
      integerValue 8 e.signatureHash.toNat ++ integerValue 2 e.name.length).length = 19 := by simp
  refine ⟨?_, ?_, ?_, ?_, ?_⟩
  · simpa [encodeMethodEntry] using readInteger_append (toNat_lt_bytes e.id) List.length_nil _
  · simpa [encodeMethodEntry] using readInteger_append e.state.toNat_lt h8 _
  · simpa [encodeMethodEntry] using readInteger_append (toNat_lt_bytes e.signatureHash) h9 _
  · simpa [encodeMethodEntry] using readInteger_append hname h17 _
  · have hdrop : _ = e.name ++ rest := List.drop_left' h19
    simpa [encodeMethodEntry] using hdrop

/-- A turn of the loop reads an encoded entry back, if its state is one of the enumerators. -/
theorem parseMethodEntries_cons {e : MethodEntry} (he : e.shortName = true) (count : ℕ)
    (rest : MessageType) :
    parseMethodEntries (count + 1) (encodeMethodEntry e ++ rest) =
      if e.state ≠ .active ∧ e.state ≠ .removed then none
      else (parseMethodEntries count rest).map (fun p => (e :: p.1, p.2)) := by
  obtain ⟨hid, hstate, hhash, hsize, hdrop⟩ := readInteger_encodeMethodEntry e he rest
  have hlen : ¬(encodeMethodEntry e ++ rest).length < 19 := by
    simp [encodeMethodEntry]
    omega
  have hroom : ¬(e.name ++ rest).length < e.name.length := by simp
  conv_lhs => unfold parseMethodEntries
  by_cases hother : e.state ≠ .active ∧ e.state ≠ .removed
  · simp only [if_neg hlen, hstate, if_pos (MethodState.toNat_ne_iff.mpr hother), if_pos hother]
  · simp only [if_neg hlen, hid, hstate, hhash, hsize, hdrop, if_neg hroom, if_neg hother,
      if_neg (mt MethodState.toNat_ne_iff.mp hother), MethodState.ofRaw_toNat hother,
      List.take_left', List.drop_left', UInt64.ofNat_toNat]
    cases parseMethodEntries count rest <;> rfl

/-- Reading a number of entries from encoded ones. -/
theorem parseMethodEntries_eq (es : List MethodEntry) : ∀ (count : ℕ),
    (∀ e ∈ es, e.shortName = true) → ∀ {es' : List MethodEntry} {rest : MessageType},
    parseMethodEntries count (es.flatMap encodeMethodEntry) = some (es', rest) →
      es' = es.take count ∧ rest = (es.drop count).flatMap encodeMethodEntry := by
  induction es with
  | nil =>
    intro count _ es' rest h
    cases count with
    | zero => cases h; exact ⟨rfl, rfl⟩
    | succ count => exact absurd h (by simp [parseMethodEntries])
  | cons e es ih =>
    intro count hshort es' rest h
    cases count with
    | zero => cases h; exact ⟨rfl, rfl⟩
    | succ count =>
      rw [List.flatMap_cons, parseMethodEntries_cons (hshort e List.mem_cons_self)] at h
      split_ifs at h
      obtain ⟨⟨es₁, rest₁⟩, hparse, heq⟩ := Option.map_eq_some_iff.mp h
      obtain ⟨rfl, rfl⟩ := ih count (fun x hx => hshort x (List.mem_cons_of_mem _ hx)) hparse
      cases heq
      exact ⟨rfl, rfl⟩

/-- **The wire round trip.** What parses from an encoded table is the entries with short names. -/
theorem parse_encode_methodEntries {es es' : List MethodEntry}
    (h : parseMethodEntriesValue (encodeMethodEntriesValue es) = some es') :
    es' = es.filter MethodEntry.shortName := by
  unfold parseMethodEntriesValue encodeMethodEntriesValue at h
  set short := es.filter MethodEntry.shortName with hshort
  have hdrop : (integerValue 1 methodTableFormatVersion ++ (integerValue 4 short.length ++
      short.flatMap encodeMethodEntry)).drop 5 = short.flatMap encodeMethodEntry := by
    rw [← List.append_assoc]
    exact List.drop_left' (by simp)
  rw [hdrop] at h
  split_ifs at h
  split at h
  · rename_i es₁ hparse
    obtain rfl := Option.some.inj h
    obtain ⟨hes, hrest⟩ :=
      parseMethodEntries_eq short _ (fun e he => (List.mem_filter.mp he).2) hparse
    -- no byte is left, so no entry is left
    have hnone : short.drop (readInteger 4 (integerValue 1 methodTableFormatVersion ++
        (integerValue 4 short.length ++ short.flatMap encodeMethodEntry)) 1) = [] := by
      cases hd : short.drop (readInteger 4 (integerValue 1 methodTableFormatVersion ++
        (integerValue 4 short.length ++ short.flatMap encodeMethodEntry)) 1) with
      | nil => rfl
      | cons e tail =>
        rw [hd, List.flatMap_cons] at hrest
        have := congrArg List.length hrest
        simp [encodeMethodEntry] at this
        omega
    rw [hes, List.take_of_length_le (List.drop_eq_nil_iff.mp hnone)]
  · exact absurd h (by simp)

end NekoProto.Rpc
