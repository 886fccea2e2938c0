import NekoProto.Json.ReadBack

/-!
# Values that survive JSON

Which values are read back as what was written for them, from a text whose doubles are read as a
function says. `Survives` says it of each type, by recursion on the type; what it excludes is what
JSON does not keep apart: a null inside a value that is there, fields that are not written, and
members under one name.
-/

namespace NekoProto.Json

open Binary Parsing JsonValue
open Outcome (bind_eq_ok)

section

variable (nullForEmpty : Bool) (conv : Conversions) (env : Env) (f : BitVec 64 → BitVec 64)

mutual

/-- A value survives, where the target of the read holds `old`. -/
def Survives : (T : Ty) → Tags → (old value : T.Value) → Prop
  | .arithmetic T, _, _, value => SurvivesArithmetic f conv T value
  | .string, _, _, _ => True
  | .enumeration _ _ names, _, _, value => SurvivesEnumeration names value
  | .null _, _, _, _ => True
  | .optional _, _, _, none => True
  | .optional T, tags, _, some value =>
    (parserWrite nullForEmpty conv T tags value).isNull = false ∧
      Survives T tags (env.default T) value
  | .pointer _ _, _, _, none => True
  | .pointer _ T, tags, _, some value =>
    (parserWrite nullForEmpty conv T tags value).isNull = false ∧
      Survives T tags (env.default T) value
  | .sequence unique T, _, _, values =>
    List.Forall (Survives T {} (env.default T)) values ∧ Takes unique (env.equivalent T) values
  | .array _ T, _, old, values => List.Forall₂ (Survives T {}) old.1 values.1
  | .tuple Ts, _, old, values => SurvivesTuple Ts old values
  | .pair T U, _, old, (first, second) => Survives T {} old.1 first ∧ Survives U {} old.2 second
  | .variant Ts, tags, _, value =>
    (if tags.unionEncoding = .untagged then
      findAlternatives conv env Ts tags.payload
        (mapDoubles f (writeActive nullForEmpty conv Ts tags.payload value)) 0 0 0 =
          (1, Ts.index value)
    else Ts.index value < 2 ^ 64) ∧ SurvivesActive Ts tags.payload value
  | .stringMap T, _, _, entries =>
    ∀ entry ∈ entries.1, Survives T {} (env.default T) entry.2
  | .entryMap unique K T, _, _, entries =>
    List.Forall (fun entry : K.Value × T.Value =>
        Survives K {} (env.default K) entry.1 ∧ Survives T {} (env.default T) entry.2) entries ∧
      Takes unique (fun later earlier : K.Value × T.Value =>
        env.equivalent K later.1 earlier.1) entries
  | .object unframed fields, _, old, values =>
    SurvivesFields fields (writeFields nullForEmpty conv fields values)
      (if fields.copyable then old else env.default (.object unframed fields)) values
  | .record fields, _, old, values =>
    SurvivesRecord fields (if fields.copyable then old else env.default (.record fields)) values

/-- The elements of a tuple. -/
def SurvivesTuple : (Ts : Tys) → (olds values : Ts.Values) → Prop
  | .nil, _, _ => True
  | .cons T Ts, (old, olds), (value, values) =>
    Survives T {} old value ∧ SurvivesTuple Ts olds values

/-- The active alternative. -/
def SurvivesActive : (Ts : Alternatives) → Tags → Ts.Value → Prop
  | .one T, tags, value => Survives T tags (env.default T) value
  | .cons T _, tags, .inl value => Survives T tags (env.default T) value
  | .cons _ Ts, tags, .inr value => SurvivesActive Ts tags value

/-- The fields of a reflected class, among the members of the object. -/
def SurvivesFields : (fields : Fields) → List (Bytes × JsonValue) →
    (olds values : fields.Values) → Prop
  | .nil, _, _, _ => True
  | .cons name tags T rest, members, (old, olds), (value, values) =>
    (if tags.ignore then old = value
    else if tags.flat && T.isObject then SurvivesFlat T members old value
    else
      SurvivesField T.setNull tags.skippable (findMember (tags.fieldName name) members)
        (parserWrite nullForEmpty conv T tags value) (Survives T tags old value)
        (fun w => parserRead conv env T tags (mapDoubles f w) old = .ok value) old value) ∧
      SurvivesFields rest members olds values

/-- The fields of a flattened class, among the members of the object that holds them. -/
def SurvivesFlat : (T : Ty) → List (Bytes × JsonValue) → (old value : T.Value) → Prop
  | .object _ fields, members, old, value => SurvivesFields fields members old value
  | _, _, old, value => old = value

/-- The elements of a reflected class without names. -/
def SurvivesRecord : (fields : Fields) → (olds values : fields.Values) → Prop
  | .nil, _, _ => True
  | .cons _ tags T rest, (old, olds), (value, values) =>
    (if tags.ignore then old = value else Survives T tags old value) ∧
      SurvivesRecord rest olds values

end

end

/-! ## Reading what was written -/

section

variable {nullForEmpty : Bool} {conv : Conversions} {env : Env} {f : BitVec 64 → BitVec 64}

/-- A value that is read as an alternative is one of it. -/
theorem readAlternative_index : ∀ (Ts : Alternatives) {tags : Tags} {v : JsonValue} {k : ℕ}
    {value : Ts.Value}, readAlternative conv env Ts tags v k = .ok value → Ts.index value = k
  | .one T, tags, v, k, value, h => by
    cases k with
    | zero => rfl
    | succ k =>
      rw [readAlternative] at h
      exact absurd h fail_ne_ok
  | .cons T Ts, tags, v, k, value, h => by
    cases k with
    | zero =>
      rw [readAlternative, bind_eq_ok] at h
      obtain ⟨a, -, heq⟩ := h
      obtain rfl := Except.ok.inj heq
      rfl
    | succ k =>
      rw [readAlternative, bind_eq_ok] at h
      obtain ⟨a, ha, heq⟩ := h
      obtain rfl := Except.ok.inj heq
      exact congrArg (· + 1) (readAlternative_index Ts ha)

/-- Two parts that are read one after the other. -/
theorem pair_eq_ok {α β δ ε : Type} {x : ParseM ε α} {y : α → ParseM δ β} {whole : α → δ → ε}
    {a : α} {b : β} :
    (x >>= fun a' => within (whole a') (y a') >>= fun b' => (.ok (a', b') : ParseM ε (α × β))) =
      .ok (a, b) ↔ x = .ok a ∧ y a = .ok b := by
  rw [bind_eq_ok]
  constructor
  · rintro ⟨a', ha, h⟩
    obtain ⟨b', hb, heq⟩ := bind_eq_ok.mp h
    obtain ⟨rfl, rfl⟩ := Prod.mk.inj (Except.ok.inj heq)
    exact ⟨ha, within_eq_ok.mp hb⟩
  · rintro ⟨ha, hb⟩
    exact ⟨a, ha, bind_eq_ok.mpr ⟨b, within_eq_ok.mpr hb, rfl⟩⟩

/-- Elements in the number that is expected. -/
theorem sized_eq_ok {ε α : Type} {x : Except ε (List JsonValue)} {elements : List JsonValue}
    {size : ℕ} {refuse next : List JsonValue → Except ε α} {a : α} (hx : x = .ok elements)
    (hsize : elements.length = size) :
    (x >>= fun elements => if elements.length ≠ size then refuse elements else next elements) =
      .ok a ↔ next elements = .ok a := by
  rw [hx, bind_eq_ok]
  constructor
  · rintro ⟨elements', helements, h⟩
    obtain rfl := Except.ok.inj helements
    rw [if_neg (not_not.mpr hsize)] at h
    exact h
  · intro h
    exact ⟨elements, rfl, by rw [if_neg (not_not.mpr hsize)]; exact h⟩

theorem writeTuple_length : ∀ (Ts : Tys) (values : Ts.Values),
    (writeTuple nullForEmpty conv Ts values).length = Ts.length
  | .nil, _ => rfl
  | .cons _ Ts, (_, values) => congrArg (· + 1) (writeTuple_length Ts values)

theorem writeRecord_length : ∀ (fields : Fields) (values : fields.Values),
    (writeRecord nullForEmpty conv fields values).length = fields.count
  | .nil, _ => rfl
  | .cons _ tags _ rest, (_, values) => by
    rw [writeRecord, Fields.count]
    split_ifs
    · rw [writeRecord_length rest values, Nat.zero_add]
    · rw [List.length_cons, writeRecord_length rest values, Nat.add_comm]

theorem readNullable_iff {α : Type} {text : String} {read : JsonValue → Except Error α}
    {v : JsonValue} {value : α} :
    readNullable text read v = .ok (some value) ↔ v.isNull = false ∧ read v = .ok value := by
  unfold readNullable
  cases v.isNull with
  | true => simp
  | false =>
    cases h : read v with
    | error e => simp [context, Except.map]
    | ok a => simp [context, Except.map]

/-- **An untagged variant** is read where exactly the active alternative reads. -/
theorem untagged_eq_ok {Ts : Alternatives} {tags : Tags} {v : JsonValue} {value : Ts.Value} :
    (if (findAlternatives conv env Ts tags v 0 0 0).1 = 0 then
        fail .parseError "No variant alternative matched the input value"
      else if (findAlternatives conv env Ts tags v 0 0 0).1 ≠ 1 then
        fail .parseError "Untagged variant input matches more than one alternative"
      else readAlternative conv env Ts tags v (findAlternatives conv env Ts tags v 0 0 0).2) =
        .ok value ↔
      findAlternatives conv env Ts tags v 0 0 0 = (1, Ts.index value) ∧
        readAlternative conv env Ts tags v (Ts.index value) = .ok value := by
  constructor
  · intro h
    split_ifs at h with hzero hone
    · exact absurd h fail_ne_ok
    · exact absurd h fail_ne_ok
    · have hindex := readAlternative_index Ts h
      rw [hindex]
      exact ⟨Prod.ext (not_not.mp hone) rfl, h⟩
  · rintro ⟨hfound, h⟩
    rw [hfound]
    exact h

/-- **A tagged variant** is read by its index, if that is a `size_t`. -/
theorem tagged_eq_ok {Ts : Alternatives} {tags : Tags} {v : JsonValue} {value : Ts.Value} :
    (do
        let elements ← context "Variant must be encoded as [index, value]: "
          (toArray (mapDoubles f
            (.array [.integer (integerOf false .w64 (BitVec.ofNat 64 (Ts.index value))), v])))
        if elements.length ≠ 2 then
          fail .invalidLength "Variant array must contain exactly two elements"
        else do
          let index ← context "Failed to parse variant index: "
            (toBasicUnsigned .w64 (elements.headD .null))
          readAlternative conv env Ts tags (elements.tail.headD .null) index.toNat) = .ok value ↔
      Ts.index value < 2 ^ 64 ∧
        readAlternative conv env Ts tags (mapDoubles f v) (Ts.index value) = .ok value := by
  have hread := toBasicUnsigned_integerOf .w64 (BitVec.ofNat 64 (Ts.index value))
  have hindex : (BitVec.ofNat 64 (Ts.index value)).toNat = Ts.index value % 2 ^ 64 :=
    BitVec.toNat_ofNat _ _
  have helements : context "Variant must be encoded as [index, value]: " (toArray (mapDoubles f
      (.array [.integer (integerOf false .w64 (BitVec.ofNat 64 (Ts.index value))), v]))) =
      .ok [.integer (integerOf false .w64 (BitVec.ofNat 64 (Ts.index value))), mapDoubles f v] :=
    rfl
  refine (sized_eq_ok helements rfl).trans (bind_eq_ok.trans ?_)
  constructor
  · rintro ⟨index, hok, h⟩
    obtain rfl := Except.ok.inj (hread.symm.trans (context_eq_ok.mp hok))
    have heq : Ts.index value = Ts.index value % 2 ^ 64 := (readAlternative_index Ts h).trans hindex
    have hk : readAlternative conv env Ts tags (mapDoubles f v)
        (BitVec.ofNat 64 (Ts.index value)).toNat = .ok value := h
    rw [hindex, ← heq] at hk
    exact ⟨by omega, hk⟩
  · rintro ⟨hlt, h⟩
    refine ⟨_, context_eq_ok.mpr hread, ?_⟩
    show readAlternative conv env Ts tags (mapDoubles f v)
      (BitVec.ofNat 64 (Ts.index value)).toNat = .ok value
    rw [hindex, Nat.mod_eq_of_lt hlt]
    exact h

mutual

/-- **What was written for a value is read as that value exactly where it survives.** -/
theorem parserRead_parserWrite_iff : ∀ (T : Ty) (tags : Tags) (old value : T.Value),
    parserRead conv env T tags (mapDoubles f (parserWrite nullForEmpty conv T tags value)) old =
      .ok value ↔ Survives nullForEmpty conv env f T tags old value
  | .arithmetic T, tags, old, value => by
    rw [parserWrite, parserRead, Survives]
    exact keeping_eq_ok.trans (toBasicType_fromBasicType_iff T value)
  | .string, tags, old, value => by
    rw [parserWrite, parserRead, Survives]
    exact ⟨fun _ => trivial, fun _ => rfl⟩
  | .enumeration signed width names, tags, old, value => by
    rw [parserWrite, parserRead, Survives]
    exact keeping_eq_ok.trans (readEnumeration_writeEnumeration_iff signed width names value)
  | .null monostate, tags, old, value => by
    rw [parserWrite, parserRead, Survives]
    exact ⟨fun _ => trivial, fun _ => rfl⟩
  | .optional T, tags, old, none => by
    rw [parserWrite, parserRead, Survives]
    exact ⟨fun _ => trivial, fun _ => rfl⟩
  | .optional T, tags, old, some value => by
    rw [parserWrite, parserRead, Survives]
    refine (keeping_eq_ok.trans readNullable_iff).trans (and_congr ?_ (result_eq_ok.trans ?_))
    · rw [mapDoubles_isNull]
    · exact parserRead_parserWrite_iff T tags (env.default T) value
  | .pointer shared T, tags, old, none => by
    rw [parserWrite, parserRead, Survives]
    exact ⟨fun _ => trivial, fun _ => rfl⟩
  | .pointer shared T, tags, old, some value => by
    rw [parserWrite, parserRead, Survives]
    refine (keeping_eq_ok.trans readNullable_iff).trans (and_congr ?_ (result_eq_ok.trans ?_))
    · rw [mapDoubles_isNull]
    · exact parserRead_parserWrite_iff T tags (env.default T) value
  | .sequence unique T, tags, old, values => by
    rw [parserWrite, parserRead, Survives,
      mapDoubles_array_map f (parserWrite nullForEmpty conv T {}) values]
    refine (keeping_eq_ok.trans readSequence_iff).trans (and_congr ?_ Iff.rfl)
    refine Iff.trans (forall₂_congr fun value _ => result_eq_ok.trans ?_)
      List.forall_iff_forall_mem.symm
    exact parserRead_parserWrite_iff T {} (env.default T) value
  | .array size T, tags, old, values => by
    rw [parserWrite, parserRead, Survives,
      mapDoubles_array_map f (parserWrite nullForEmpty conv T {}) values.1]
    have hcongr : ∀ old value, parserRead conv env T {}
        (mapDoubles f (parserWrite nullForEmpty conv T {} value)) old = .ok value ↔
        Survives nullForEmpty conv env f T {} old value :=
      parserRead_parserWrite_iff T {}
    refine readArray_iff.trans ⟨List.Forall₂.imp fun old value => (hcongr old value).mp, ?_⟩
    exact List.Forall₂.imp fun old value => (hcongr old value).mpr
  | .tuple Ts, tags, old, values => by
    rw [parserWrite, parserRead, Survives, mapDoubles, mapDoublesList_eq]
    refine (sized_eq_ok rfl ?_).trans (readTuple_writeTuple_iff Ts 0 old values)
    exact (List.length_map _).trans (writeTuple_length Ts values)
  | .pair T U, tags, old, (first, second) => by
    rw [parserWrite, parserRead, Survives]
    refine readPair_iff.trans (and_congr ?_ ?_)
    · exact parserRead_parserWrite_iff T {} old.1 first
    · exact parserRead_parserWrite_iff U {} old.2 second
  | .variant Ts, tags, old, value => by
    rw [parserWrite, parserRead, Survives, ← readAlternative_writeActive_iff Ts tags.payload value]
    refine keeping_eq_ok.trans ?_
    by_cases huntagged : tags.unionEncoding = .untagged
    · simp only [huntagged, if_true]
      exact untagged_eq_ok
    · simp only [huntagged, if_false]
      exact tagged_eq_ok
  | .stringMap T, tags, old, entries => by
    rw [parserWrite, parserRead, Survives,
      mapDoubles_object_map f (parserWrite nullForEmpty conv T {}) entries.1]
    refine (keeping_eq_ok.trans (readStringMap_iff fun value =>
      mapDoubles f (parserWrite nullForEmpty conv T {} value))).trans ?_
    refine forall₂_congr fun entry _ => result_eq_ok.trans ?_
    exact parserRead_parserWrite_iff T {} (env.default T) entry.2
  | .entryMap unique K T, tags, old, entries => by
    rw [parserWrite, parserRead, Survives,
      mapDoubles_array_map f (fun entry : K.Value × T.Value =>
        .object [(keyName, parserWrite nullForEmpty conv K {} entry.1),
          (valueName, parserWrite nullForEmpty conv T {} entry.2)]) entries]
    refine (keeping_eq_ok.trans (readEntryMap_iff
      (fun key => mapDoubles f (parserWrite nullForEmpty conv K {} key))
      fun value => mapDoubles f (parserWrite nullForEmpty conv T {} value))).trans
      (and_congr ?_ Iff.rfl)
    refine Iff.trans ?_ List.forall_iff_forall_mem.symm
    refine forall₂_congr fun entry _ => and_congr ?_ ?_
    · exact parserRead_parserWrite_iff K {} (env.default K) entry.1
    · exact parserRead_parserWrite_iff T {} (env.default T) entry.2
  | .object unframed fields, tags, old, values => by
    rw [parserWrite, parserRead, Survives]
    refine (keeping_eq_ok.trans bind_eq_ok).trans ?_
    refine Iff.trans ?_ (readFields_writeFields_iff fields _ _ values)
    constructor
    · rintro ⟨members, -, h⟩
      exact result_eq_ok.mp h
    · intro h
      exact ⟨_, rfl, result_eq_ok.mpr h⟩
  | .record fields, tags, old, values => by
    rw [parserWrite, parserRead, Survives, mapDoubles, mapDoublesList_eq]
    refine (keeping_eq_ok.trans (sized_eq_ok rfl ?_)).trans
      (result_eq_ok.trans (readRecord_writeRecord_iff fields 0 _ values))
    exact (List.length_map _).trans (writeRecord_length fields values)

theorem readTuple_writeTuple_iff : ∀ (Ts : Tys) (index : ℕ) (olds values : Ts.Values),
    readTuple conv env Ts index ((writeTuple nullForEmpty conv Ts values).map (mapDoubles f))
      olds = .ok values ↔ SurvivesTuple nullForEmpty conv env f Ts olds values
  | .nil, index, olds, values => by
    rw [readTuple, SurvivesTuple]
    exact ⟨fun _ => trivial, fun _ => rfl⟩
  | .cons T Ts, index, (old, olds), (value, values) => by
    rw [writeTuple, readTuple, SurvivesTuple, List.map_cons]
    refine pair_eq_ok.trans (and_congr (contextWithin_eq_ok.trans ?_) ?_)
    · exact parserRead_parserWrite_iff T {} old value
    · exact readTuple_writeTuple_iff Ts (index + 1) olds values

theorem readAlternative_writeActive_iff : ∀ (Ts : Alternatives) (tags : Tags) (value : Ts.Value),
    readAlternative conv env Ts tags
      (mapDoubles f (writeActive nullForEmpty conv Ts tags value)) (Ts.index value) =
      .ok value ↔ SurvivesActive nullForEmpty conv env f Ts tags value
  | .one T, tags, value => by
    rw [writeActive, SurvivesActive]
    refine Iff.trans ?_ (parserRead_parserWrite_iff T tags (env.default T) value)
    exact context_eq_ok.trans result_eq_ok
  | .cons T Ts, tags, .inl value => by
    rw [writeActive, SurvivesActive, Alternatives.index, readAlternative]
    refine bind_eq_ok.trans (Iff.trans ?_
      (parserRead_parserWrite_iff T tags (env.default T) value))
    constructor
    · rintro ⟨a, ha, heq⟩
      obtain rfl := Sum.inl.inj (Except.ok.inj heq)
      exact result_eq_ok.mp (context_eq_ok.mp ha)
    · intro h
      exact ⟨value, context_eq_ok.mpr (result_eq_ok.mpr h), rfl⟩
  | .cons T Ts, tags, .inr value => by
    rw [writeActive, SurvivesActive, Alternatives.index, readAlternative]
    refine bind_eq_ok.trans (Iff.trans ?_ (readAlternative_writeActive_iff Ts tags value))
    constructor
    · rintro ⟨a, ha, heq⟩
      obtain rfl := Sum.inr.inj (Except.ok.inj heq)
      exact ha
    · intro h
      exact ⟨value, h, rfl⟩

theorem readFields_writeFields_iff : ∀ (fields : Fields) (members : List (Bytes × JsonValue))
    (olds values : fields.Values),
    readFields conv env fields (.object (mapDoublesMembers f members)) olds = .ok values ↔
      SurvivesFields nullForEmpty conv env f fields members olds values
  | .nil, members, olds, values => by
    rw [readFields, SurvivesFields]
    exact ⟨fun _ => trivial, fun _ => rfl⟩
  | .cons name tags T rest, members, (old, olds), (value, values) => by
    rw [readFields, SurvivesFields]
    refine pair_eq_ok.trans (and_congr (within_eq_ok.trans ?_) ?_)
    · by_cases hignore : tags.ignore = true
      · rw [if_pos hignore, if_pos hignore]
        exact ok_eq_ok
      · rw [if_neg hignore, if_neg hignore]
        by_cases hflat : (tags.flat && T.isObject) = true
        · rw [if_pos hflat, if_pos hflat]
          exact readFlat_writeFlat_iff T members old value
        · rw [if_neg hflat, if_neg hflat]
          refine readReflectField_iff ?_
          exact parserRead_parserWrite_iff T tags old value
    · exact readFields_writeFields_iff rest members olds values

theorem readFlat_writeFlat_iff : ∀ (T : Ty) (members : List (Bytes × JsonValue))
    (old value : T.Value),
    readFlat conv env T (.object (mapDoublesMembers f members)) old = .ok value ↔
      SurvivesFlat nullForEmpty conv env f T members old value
  | .object _ fields, members, old, value => readFields_writeFields_iff fields members old value
  | .arithmetic _, _, _, _ => ok_eq_ok
  | .string, _, _, _ => ok_eq_ok
  | .enumeration _ _ _, _, _, _ => ok_eq_ok
  | .null _, _, _, _ => ok_eq_ok
  | .optional _, _, _, _ => ok_eq_ok
  | .pointer _ _, _, _, _ => ok_eq_ok
  | .sequence _ _, _, _, _ => ok_eq_ok
  | .array _ _, _, _, _ => ok_eq_ok
  | .tuple _, _, _, _ => ok_eq_ok
  | .pair _ _, _, _, _ => ok_eq_ok
  | .variant _, _, _, _ => ok_eq_ok
  | .stringMap _, _, _, _ => ok_eq_ok
  | .entryMap _ _ _, _, _, _ => ok_eq_ok
  | .record _, _, _, _ => ok_eq_ok

theorem readRecord_writeRecord_iff : ∀ (fields : Fields) (index : ℕ)
    (olds values : fields.Values),
    readRecord conv env fields ((writeRecord nullForEmpty conv fields values).map (mapDoubles f))
      index olds = .ok values ↔ SurvivesRecord nullForEmpty conv env f fields olds values
  | .nil, index, olds, values => by
    rw [readRecord, SurvivesRecord]
    exact ⟨fun _ => trivial, fun _ => rfl⟩
  | .cons name tags T rest, index, (old, olds), (value, values) => by
    rw [readRecord, writeRecord, SurvivesRecord]
    by_cases hignore : tags.ignore = true
    · simp only [hignore, if_true]
      refine bind_eq_ok.trans ?_
      rw [← readRecord_writeRecord_iff rest (index + 1) olds values]
      constructor
      · rintro ⟨values', h, heq⟩
        obtain ⟨rfl, rfl⟩ := Prod.mk.inj (Except.ok.inj heq)
        exact ⟨rfl, within_eq_ok.mp h⟩
      · rintro ⟨rfl, h⟩
        exact ⟨values, within_eq_ok.mpr h, rfl⟩
    · simp only [hignore]
      refine pair_eq_ok.trans (and_congr (contextWithin_eq_ok.trans ?_) ?_)
      · exact parserRead_parserWrite_iff T tags old value
      · exact readRecord_writeRecord_iff rest (index + 1) olds values

end

end

end NekoProto.Json
