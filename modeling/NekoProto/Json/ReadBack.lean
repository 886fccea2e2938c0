import NekoProto.Json.Write
import NekoProto.Lib.Outcome

/-!
# Reading back

What the scalars and the loops of the readers give for what was written, in terms of the reads of
the items.

1. Scalars are read back, but for a double that changes.
2. The loops read the items one by one, if the container takes them in that order
   (`readItems_eq_ok`, `readMembers_eq_ok`, `readEntries_eq_ok`).
3. A field is looked up among all members that were written (`readReflectField_iff`).
-/

namespace NekoProto.Json

open Binary Parsing JsonValue
open Outcome (bind_eq_ok)

/-! ## Scalars -/

/-- **Unsigned integers are read back.** -/
theorem toBasicUnsigned_integerOf (width : Width) (value : BitVec width.bits) :
    toBasicUnsigned width (.integer (integerOf false width value)) = .ok value := by
  have hz : (integerOf false width value).1 = value.toNat := rfl
  have hlt : (value.toNat : ℤ) < 2 ^ width.bits := by exact_mod_cast value.isLt
  simp only [toBasicUnsigned]
  rw [if_neg (by omega), if_neg (by omega), hz, BitVec.ofInt_natCast, BitVec.ofNat_toNat,
    BitVec.setWidth_eq]

/-- **Signed integers are read back.** -/
theorem toBasicSigned_integerOf (width : Width) (value : BitVec width.bits) :
    toBasicSigned width (.integer (integerOf true width value)) = .ok value := by
  have hpos : 0 < width.bits := by cases width <;> decide
  have hle : (2 : ℤ) ^ (width.bits - 1) ≤ 2 ^ 63 :=
    pow_le_pow_right₀ (by decide) (Nat.sub_le_sub_right (Width.bits_le width) 1)
  have hz : (integerOf true width value).1 = value.toInt := rfl
  have hlow := BitVec.le_toInt value
  have hhigh := BitVec.toInt_lt (x := value)
  simp only [toBasicSigned]
  rw [if_neg (by omega), if_neg (by omega), hz, BitVec.ofInt_toInt]

section

variable (f : BitVec 64 → BitVec 64) (conv : Conversions)

/-- A number that is read back. -/
def SurvivesArithmetic : (T : Arithmetic) → T.Value → Prop
  | .float, value => conv.narrow (f (conv.widen value)) = value
  | .double, value => f value = value
  | _, _ => True

/-- A value of an enumeration whose name, if it has one, is not that of another value too. -/
def SurvivesEnumeration {n : ℕ} (names : List (Bytes × BitVec n)) (value : BitVec n) : Prop :=
  enumerationName names value ≠ [] →
    (names.reverse.find? fun entry => entry.1 = enumerationName names value).map Prod.snd =
      some value

variable {f conv}

theorem toBasicType_fromBasicType_iff (T : Arithmetic) (value : T.Value) :
    toBasicType conv T (mapDoubles f (fromBasicType conv T value)) = .ok value ↔
      SurvivesArithmetic f conv T value := by
  cases T with
  | bool => exact ⟨fun _ => trivial, fun _ => rfl⟩
  | integer signed width =>
    refine ⟨fun _ => trivial, fun _ => ?_⟩
    cases signed with
    | true => exact toBasicSigned_integerOf width value
    | false => exact toBasicUnsigned_integerOf width value
  | float =>
    show Except.ok (conv.narrow (f (conv.widen value))) = Except.ok value ↔ _
    rw [Except.ok.injEq]
    rfl
  | double =>
    show Except.ok (f value) = Except.ok value ↔ _
    rw [Except.ok.injEq]
    rfl

theorem readEnumeration_writeEnumeration_iff (signed : Bool) (width : Width)
    (names : List (Bytes × BitVec width.bits)) (value : BitVec width.bits) :
    readEnumeration conv signed width names
        (mapDoubles f (writeEnumeration conv signed width names value)) = .ok value ↔
      SurvivesEnumeration names value := by
  unfold writeEnumeration SurvivesEnumeration
  by_cases hname : enumerationName names value ≠ []
  · rw [if_pos hname]
    simp only [mapDoubles, readEnumeration, toBasicString, ne_eq, hname, not_false_eq_true,
      forall_const]
    cases names.reverse.find? fun entry => entry.1 = enumerationName names value with
    | none => simp
    | some entry => simp
  · rw [if_neg hname]
    refine ⟨fun _ h => absurd h hname, fun _ => ?_⟩
    show context _ (toBasicType conv (.integer signed width) _) = _
    rw [context_eq_ok]
    exact (toBasicType_fromBasicType_iff (.integer signed width) value).mpr trivial

end

/-! ## Loops -/

section

variable {α β : Type}

/-- A container takes the items one after the other. -/
def Takes (unique : Bool) (equivalent : α → α → Bool) (items : List α) : Prop :=
  unique = true → items.Pairwise fun earlier later => equivalent later earlier = false

theorem insertItem_eq_some {unique : Bool} {equivalent : α → α → Bool} {parsed parsed' : List α}
    {item : α} : insertItem unique equivalent parsed item = some parsed' ↔
      (unique = true → ∀ p ∈ parsed, equivalent item p = false) ∧ parsed' = parsed ++ [item] := by
  unfold insertItem
  cases unique with
  | false =>
    simp only [Bool.false_and, Bool.false_eq_true, if_false, Option.some.injEq, false_implies,
      true_and]
    exact eq_comm
  | true =>
    by_cases hany : parsed.any (equivalent item) = true
    · obtain ⟨p, hp, heq⟩ := List.any_eq_true.mp hany
      simp only [hany, Bool.and_self, if_true]
      constructor
      · intro h
        cases h
      · rintro ⟨h, -⟩
        rw [h trivial p hp] at heq
        cases heq
    · have hno : ∀ p ∈ parsed, equivalent item p = false := by
        intro p hp
        by_contra hne
        exact hany (List.any_eq_true.mpr ⟨p, hp, by simpa using hne⟩)
      simp only [hany, Bool.and_false, Bool.false_eq_true, if_false, Option.some.injEq]
      exact ⟨fun h => ⟨fun _ => hno, h.symm⟩, fun h => h.2.symm⟩

/-- **The items of a sequence**, behind those that were read before. -/
theorem readItems_eq_ok {read : JsonValue → Except Error α} {unique : Bool}
    {equivalent : α → α → Bool} {elements : List JsonValue} {index : ℕ} {parsed out : List α} :
    readItems read (insertItem unique equivalent) index elements parsed = .ok out ↔
      ∃ items, out = parsed ++ items ∧ List.Forall₂ (fun v a => read v = .ok a) elements items ∧
        Takes unique equivalent items ∧
        (unique = true → ∀ item ∈ items, ∀ p ∈ parsed, equivalent item p = false) := by
  induction elements generalizing index parsed with
  | nil =>
    simp only [readItems, Except.ok.injEq, List.forall₂_nil_left_iff]
    constructor
    · rintro rfl
      exact ⟨[], (List.append_nil _).symm, rfl, fun _ => .nil, fun _ _ h => by cases h⟩
    · rintro ⟨items, rfl, rfl, -⟩
      exact (List.append_nil _).symm
  | cons v elements ih =>
    rw [readItems, bind_eq_ok]
    constructor
    · rintro ⟨item, hitem, hrest⟩
      rw [context_eq_ok] at hitem
      cases hinsert : insertItem unique equivalent parsed item with
      | none =>
        rw [hinsert] at hrest
        exact absurd hrest fail_ne_ok
      | some parsed' =>
        obtain ⟨hnew, rfl⟩ := insertItem_eq_some.mp hinsert
        rw [hinsert] at hrest
        obtain ⟨items, rfl, hread, htakes, hold⟩ := ih.mp hrest
        refine ⟨item :: items, by rw [List.append_assoc, List.singleton_append],
          .cons hitem hread, fun hu => List.pairwise_cons.mpr ⟨fun b hb => ?_, htakes hu⟩,
          fun hu b hb p hp => ?_⟩
        · exact hold hu b hb item (List.mem_append_right _ (List.mem_singleton_self item))
        · obtain rfl | hb := List.mem_cons.mp hb
          · exact hnew hu p hp
          · exact hold hu b hb p (List.mem_append_left _ hp)
    · rintro ⟨items, rfl, hread, htakes, hold⟩
      cases hread with
      | cons hitem hread =>
        rename_i item items
        have hinsert : insertItem unique equivalent parsed item = some (parsed ++ [item]) :=
          insertItem_eq_some.mpr ⟨fun hu => hold hu item List.mem_cons_self, rfl⟩
        refine ⟨item, context_eq_ok.mpr hitem, ?_⟩
        rw [hinsert]
        refine ih.mpr ⟨items, by rw [List.append_assoc, List.singleton_append], hread,
          fun hu => (List.pairwise_cons.mp (htakes hu)).2, fun hu b hb p hp => ?_⟩
        obtain hp | hp := List.mem_append.mp hp
        · exact hold hu b (List.mem_cons_of_mem _ hb) p hp
        · obtain rfl := List.mem_singleton.mp hp
          exact (List.pairwise_cons.mp (htakes hu)).1 b hb

theorem forall₂_map_iff {write : α → JsonValue} {r : JsonValue → α → Prop} {values : List α} :
    List.Forall₂ r (values.map write) values ↔ ∀ value ∈ values, r (write value) value := by
  rw [List.forall₂_map_left_iff, List.forall₂_same]

/-- **A sequence is read back** where its items are and it takes them. -/
theorem readSequence_iff {read : JsonValue → Except Error α} {write : α → JsonValue}
    {unique : Bool} {equivalent : α → α → Bool} {values : List α} :
    readSequence read (insertItem unique equivalent) (.array (values.map write)) = .ok values ↔
      (∀ value ∈ values, read (write value) = .ok value) ∧ Takes unique equivalent values := by
  show readItems read _ 0 (values.map write) [] = _ ↔ _
  rw [readItems_eq_ok]
  constructor
  · rintro ⟨items, rfl, hread, htakes, -⟩
    exact ⟨forall₂_map_iff.mp hread, htakes⟩
  · rintro ⟨hread, htakes⟩
    exact ⟨values, rfl, forall₂_map_iff.mpr hread, htakes, fun _ _ _ _ h => by cases h⟩

theorem readArrayItems_iff {read : JsonValue → α → ParseM α α} {write : α → JsonValue}
    {index : ℕ} {olds values : List α} (h : values.length = olds.length) :
    readArrayItems read index (values.map write) olds = .ok ⟨values, h⟩ ↔
      List.Forall₂ (fun old value => read (write value) old = .ok value) olds values := by
  induction olds generalizing index values with
  | nil =>
    obtain rfl := List.eq_nil_of_length_eq_zero h
    exact ⟨fun _ => .nil, fun _ => rfl⟩
  | cons old olds ih =>
    cases values with
    | nil => cases h
    | cons value values =>
      have hlength : values.length = olds.length := Nat.succ.inj h
      rw [List.forall₂_cons, List.map_cons, readArrayItems, bind_eq_ok]
      constructor
      · rintro ⟨value', hvalue, hrest⟩
        obtain ⟨values', hread, heq⟩ := bind_eq_ok.mp hrest
        rw [contextWithin_eq_ok] at hvalue
        rw [within_eq_ok] at hread
        obtain ⟨rfl, rfl⟩ := List.cons.inj (congrArg Subtype.val (Except.ok.inj heq))
        exact ⟨hvalue, (ih hlength).mp hread⟩
      · rintro ⟨hvalue, hvalues⟩
        exact ⟨value, contextWithin_eq_ok.mpr hvalue, bind_eq_ok.mpr
          ⟨⟨values, hlength⟩, within_eq_ok.mpr ((ih hlength).mpr hvalues), rfl⟩⟩

/-- **A fixed array is read back** where its items are, each in its own place. -/
theorem readArray_iff {size : ℕ} {read : JsonValue → α → ParseM α α} {write : α → JsonValue}
    {old values : FixedArray α size} :
    readArray read (.array (values.1.map write)) old = .ok values ↔
      List.Forall₂ (fun old value => read (write value) old = .ok value) old.1 values.1 := by
  have hsize : ¬(values.1.map write).length ≠ size := by
    rw [List.length_map, values.2]
    exact fun h => h rfl
  have hitems : readArrayItems read 0 (values.1.map write) old.1 = .ok _ ↔ _ :=
    readArrayItems_iff (values.2.trans old.2.symm)
  rw [← hitems]
  unfold readArray
  rw [bind_eq_ok]
  constructor
  · rintro ⟨elements, helements, h⟩
    obtain rfl := Except.ok.inj helements
    rw [if_neg hsize] at h
    obtain ⟨values', hvalues, heq⟩ := bind_eq_ok.mp h
    rw [within_eq_ok] at hvalues
    obtain rfl := Except.ok.inj heq
    exact hvalues
  · intro h
    refine ⟨_, rfl, ?_⟩
    rw [if_neg hsize]
    exact bind_eq_ok.mpr ⟨_, within_eq_ok.mpr h, rfl⟩

theorem emplace_eq_some {parsed parsed' : Entries α} {name : Bytes} {value : α} :
    parsed.emplace name value = some parsed' ↔ parsed'.1 = parsed.1 ++ [(name, value)] := by
  unfold Entries.emplace
  constructor
  · intro h
    split at h
    · cases h
    · exact congrArg Subtype.val (Option.some.inj h).symm
  · intro h
    have hnew : name ∉ parsed.1.map Prod.fst := by
      have hnodup := parsed'.2
      rw [h, List.map_append, List.nodup_append] at hnodup
      exact fun hmem => hnodup.2.2 name hmem name (List.mem_singleton_self name) rfl
    rw [dif_neg hnew]
    exact congrArg some (Subtype.ext h.symm)

/-- **The entries of a string-keyed map**, behind those that were read before. -/
theorem readMembers_eq_ok {read : JsonValue → Except Error α} {members : List (Bytes × JsonValue)}
    {parsed out : Entries α} :
    readMembers read members parsed = .ok out ↔
      ∃ items, out.1 = parsed.1 ++ items ∧
        List.Forall₂ (fun member item => item.1 = member.1 ∧ read member.2 = .ok item.2) members
          items := by
  induction members generalizing parsed with
  | nil =>
    constructor
    · intro h
      obtain rfl := Except.ok.inj h
      exact ⟨[], (List.append_nil _).symm, .nil⟩
    · rintro ⟨items, hout, hitems⟩
      cases hitems
      exact congrArg Except.ok (Subtype.ext (hout.trans (List.append_nil _)).symm)
  | cons member members ih =>
    obtain ⟨name, field⟩ := member
    rw [readMembers, bind_eq_ok]
    constructor
    · rintro ⟨value, hvalue, hrest⟩
      rw [context_eq_ok] at hvalue
      cases hemplace : parsed.emplace name value with
      | none =>
        rw [hemplace] at hrest
        exact absurd hrest fail_ne_ok
      | some parsed' =>
        rw [hemplace] at hrest
        obtain ⟨items, hout, hitems⟩ := ih.mp hrest
        refine ⟨(name, value) :: items, ?_, .cons ⟨rfl, hvalue⟩ hitems⟩
        rw [hout, emplace_eq_some.mp hemplace, List.append_assoc, List.singleton_append]
    · rintro ⟨items, hout, hitems⟩
      cases hitems with
      | cons hitem hitems =>
        rename_i item items
        obtain ⟨name', value⟩ := item
        obtain ⟨rfl, hvalue⟩ := hitem
        have hcons : out.1 = parsed.1 ++ [(name', value)] ++ items := by
          rw [hout, List.append_assoc, List.singleton_append]
        have hnodup : ((parsed.1 ++ [(name', value)]).map Prod.fst).Nodup := by
          have hout := out.2
          rw [hcons, List.map_append, List.nodup_append] at hout
          exact hout.1
        have hemplace : parsed.emplace name' value = some ⟨parsed.1 ++ [(name', value)], hnodup⟩ :=
          emplace_eq_some.mpr rfl
        refine ⟨value, context_eq_ok.mpr hvalue, ?_⟩
        simp only [hemplace]
        exact ih.mpr ⟨items, hcons, hitems⟩

/-- **A string-keyed map is read back** where its values are. -/
theorem readStringMap_iff {read : JsonValue → Except Error α} (write : α → JsonValue)
    {entries : Entries α} :
    readStringMap read (.object (entries.1.map fun entry => (entry.1, write entry.2))) =
        .ok entries ↔ ∀ entry ∈ entries.1, read (write entry.2) = .ok entry.2 := by
  show readMembers read _ ⟨[], List.nodup_nil⟩ = _ ↔ _
  rw [readMembers_eq_ok]
  constructor
  · rintro ⟨items, rfl, hitems⟩
    rw [List.forall₂_map_left_iff, List.forall₂_same] at hitems
    exact fun entry hentry => (hitems entry hentry).2
  · intro h
    refine ⟨entries.1, rfl, ?_⟩
    rw [List.forall₂_map_left_iff, List.forall₂_same]
    exact fun entry hentry => ⟨rfl, h entry hentry⟩

theorem toObject_eq_ok {v : JsonValue} {members : List (Bytes × JsonValue)} :
    toObject v = .ok members ↔ v = .object members := by
  cases v with
  | object members' => simp [toObject]
  | _ => simp [toObject]

theorem readRequired_eq_ok {whole : α → β} {members : List (Bytes × JsonValue)} {name : Bytes}
    {missing text : String} {read : JsonValue → α → ParseM α α} {old value : α} :
    readRequired whole members name missing text read old = .ok value ↔
      ∃ v, findMember name members = some v ∧ read v old = .ok value := by
  unfold readRequired
  cases findMember name members with
  | none => simp
  | some v => simp

/-- An entry that is read from an element. -/
def ReadsEntry (readKey : JsonValue → α → ParseM α α) (initialKey : α)
    (readValue : JsonValue → β → ParseM β β) (initialValue : β) (v : JsonValue) (entry : α × β) :
    Prop :=
  ∃ members, v = .object members ∧
    (∃ key, findMember keyName members = some key ∧ readKey key initialKey = .ok entry.1) ∧
    ∃ value, findMember valueName members = some value ∧
      readValue value initialValue = .ok entry.2

section

variable {readKey : JsonValue → α → ParseM α α} {initialKey : α}
  {readValue : JsonValue → β → ParseM β β} {initialValue : β} {unique : Bool}
  {equivalent : α → α → Bool}

/-- One turn of the loop. -/
theorem readEntries_cons_eq_ok {v : JsonValue} {elements : List JsonValue} {index : ℕ}
    {parsed out : List (α × β)} :
    readEntries readKey initialKey readValue initialValue unique equivalent index (v :: elements)
        parsed = .ok out ↔
      ∃ entry, ReadsEntry readKey initialKey readValue initialValue v entry ∧
        (unique = true → ∀ p ∈ parsed, equivalent entry.1 p.1 = false) ∧
        readEntries readKey initialKey readValue initialValue unique equivalent (index + 1) elements
          (parsed ++ [entry]) = .ok out := by
  rw [readEntries]
  simp only [bind_eq_ok, context_eq_ok, result_eq_ok, toObject_eq_ok, readRequired_eq_ok]
  constructor
  · rintro ⟨members, rfl, key, hkey, value, hvalue, hrest⟩
    split at hrest
    · exact absurd hrest fail_ne_ok
    · rename_i hnew
      refine ⟨(key, value), ⟨members, rfl, hkey, hvalue⟩, fun hu p hp => ?_, hrest⟩
      by_contra hne
      exact hnew (by
        rw [hu, Bool.true_and]
        exact List.any_eq_true.mpr ⟨p, hp, by simpa using hne⟩)
  · rintro ⟨⟨key, value⟩, ⟨members, rfl, hkey, hvalue⟩, hnew, hrest⟩
    refine ⟨members, rfl, key, hkey, value, hvalue, ?_⟩
    rw [if_neg]
    · exact hrest
    · rw [Bool.and_eq_true, List.any_eq_true]
      rintro ⟨hu, p, hp, heq⟩
      rw [hnew hu p hp] at heq
      cases heq

/-- **The entries of a map that is an array**, behind those that were read before. -/
theorem readEntries_eq_ok {elements : List JsonValue} {index : ℕ} {parsed out : List (α × β)} :
    readEntries readKey initialKey readValue initialValue unique equivalent index elements
        parsed = .ok out ↔
      ∃ entries, out = parsed ++ entries ∧
        List.Forall₂ (ReadsEntry readKey initialKey readValue initialValue) elements entries ∧
        Takes unique (fun later earlier : α × β => equivalent later.1 earlier.1) entries ∧
        (unique = true → ∀ entry ∈ entries, ∀ p ∈ parsed, equivalent entry.1 p.1 = false) := by
  induction elements generalizing index parsed with
  | nil =>
    simp only [readEntries, Except.ok.injEq, List.forall₂_nil_left_iff]
    constructor
    · rintro rfl
      exact ⟨[], (List.append_nil _).symm, rfl, fun _ => .nil, fun _ _ h => by cases h⟩
    · rintro ⟨entries, rfl, rfl, -⟩
      exact (List.append_nil _).symm
  | cons v elements ih =>
    rw [readEntries_cons_eq_ok]
    constructor
    · rintro ⟨entry, hentry, hnew, hrest⟩
      obtain ⟨entries, rfl, hread, htakes, hold⟩ := ih.mp hrest
      refine ⟨entry :: entries, by rw [List.append_assoc, List.singleton_append],
        .cons hentry hread, fun hu => List.pairwise_cons.mpr ⟨fun b hb => ?_, htakes hu⟩,
        fun hu b hb p hp => ?_⟩
      · exact hold hu b hb entry (List.mem_append_right _ (List.mem_singleton_self entry))
      · obtain rfl | hb := List.mem_cons.mp hb
        · exact hnew hu p hp
        · exact hold hu b hb p (List.mem_append_left _ hp)
    · rintro ⟨entries, rfl, hread, htakes, hold⟩
      cases hread with
      | cons hentry hread =>
        rename_i entry entries
        refine ⟨entry, hentry, fun hu => hold hu entry List.mem_cons_self, ih.mpr
          ⟨entries, by rw [List.append_assoc, List.singleton_append], hread,
            fun hu => (List.pairwise_cons.mp (htakes hu)).2, fun hu b hb p hp => ?_⟩⟩
        obtain hp | hp := List.mem_append.mp hp
        · exact hold hu b (List.mem_cons_of_mem _ hb) p hp
        · obtain rfl := List.mem_singleton.mp hp
          exact (List.pairwise_cons.mp (htakes hu)).1 b hb

/-- **A map that is an array is read back** where its keys and values are and it takes the keys. -/
theorem readEntryMap_iff (writeKey : α → JsonValue) (writeValue : β → JsonValue)
    {entries : List (α × β)} :
    readEntryMap readKey initialKey readValue initialValue unique equivalent
        (.array (entries.map fun entry =>
          .object [(keyName, writeKey entry.1), (valueName, writeValue entry.2)])) = .ok entries ↔
      (∀ entry ∈ entries, readKey (writeKey entry.1) initialKey = .ok entry.1 ∧
        readValue (writeValue entry.2) initialValue = .ok entry.2) ∧
        Takes unique (fun later earlier : α × β => equivalent later.1 earlier.1) entries := by
  have hentry : ∀ entry : α × β, ReadsEntry readKey initialKey readValue initialValue
      (.object [(keyName, writeKey entry.1), (valueName, writeValue entry.2)]) entry ↔
      readKey (writeKey entry.1) initialKey = .ok entry.1 ∧
        readValue (writeValue entry.2) initialValue = .ok entry.2 := by
    intro entry
    constructor
    · rintro ⟨members, hmembers, ⟨key, hkey, hreadKey⟩, value, hvalue, hreadValue⟩
      obtain rfl := JsonValue.object.inj hmembers
      obtain rfl := Option.some.inj hkey
      obtain rfl := Option.some.inj hvalue
      exact ⟨hreadKey, hreadValue⟩
    · rintro ⟨hkey, hvalue⟩
      exact ⟨_, rfl, ⟨_, rfl, hkey⟩, _, rfl, hvalue⟩
  show readEntries readKey initialKey readValue initialValue unique equivalent 0 _ [] = _ ↔ _
  rw [readEntries_eq_ok]
  constructor
  · rintro ⟨entries, rfl, hread, htakes, -⟩
    exact ⟨fun entry h => (hentry entry).mp (forall₂_map_iff.mp hread entry h), htakes⟩
  · rintro ⟨hread, htakes⟩
    exact ⟨entries, rfl, forall₂_map_iff.mpr fun entry h => (hentry entry).mpr (hread entry h),
      htakes, fun _ _ _ _ h => by cases h⟩

end

theorem readPair_iff {readFirst : JsonValue → α → ParseM α α}
    {readSecond : JsonValue → β → ParseM β β} {first second : JsonValue} {old value : α × β} :
    readPair readFirst readSecond (.object [(firstName, first), (secondName, second)]) old =
        .ok value ↔
      readFirst first old.1 = .ok value.1 ∧ readSecond second old.2 = .ok value.2 := by
  unfold readPair
  simp only [bind_eq_ok, keeping_eq_ok, toObject_eq_ok, readRequired_eq_ok]
  constructor
  · rintro ⟨members, hmembers, a, ⟨v, hv, ha⟩, b, ⟨w, hw, hb⟩, heq⟩
    obtain rfl := JsonValue.object.inj hmembers
    obtain rfl := Option.some.inj hv
    obtain rfl := Option.some.inj hw
    obtain rfl := Except.ok.inj heq
    exact ⟨ha, hb⟩
  · rintro ⟨ha, hb⟩
    exact ⟨_, rfl, _, ⟨_, rfl, ha⟩, _, ⟨_, rfl, hb⟩, rfl⟩

end

/-! ## Fields -/

section

variable {α : Type}

/-- A field survives among the members that were written, where `own` is what was written for it:
one that is not there keeps what it had or becomes null, and so does a null; any other is read
back, or stands behind another member of its name that reads as the same value. -/
def SurvivesField (null : Option α) (skippable : Bool) (member : Option JsonValue)
    (own : JsonValue) (survives : Prop) (reads : JsonValue → Prop) (old value : α) : Prop :=
  match member with
  | none => if skippable then old = value else null = some value
  | some w =>
    if w.isNull ∧ null.isSome then null = some value
    else w = own ∧ survives ∨ w ≠ own ∧ reads w

theorem readMissingField_eq_ok {null : Option α} {name : Bytes} {tags : Tags} {old value : α} :
    readMissingField null name tags old = .ok value ↔
      if tags.skippable then old = value else null = some value := by
  unfold readMissingField
  cases tags.skippable with
  | true => simp
  | false =>
    cases null with
    | none => simp
    | some null => simp

theorem readPresentField_eq_ok {null : Option α} {name : Bytes}
    {read : JsonValue → α → ParseM α α} {v : JsonValue} {old value : α} :
    readPresentField null name read v old = .ok value ↔
      if v.isNull ∧ null.isSome then null = some value else read v old = .ok value := by
  unfold readPresentField
  cases v.isNull with
  | true =>
    cases null with
    | none => simp
    | some null => simp
  | false => simp

theorem readReflectField_object (null : Option α) (name : Bytes) (tags : Tags)
    (read : JsonValue → α → ParseM α α) (members : List (Bytes × JsonValue)) (old : α) :
    readReflectField null name tags read (.object members) old =
      (findMember (tags.fieldName name) members).elim
        (readMissingField null (tags.fieldName name) tags old)
        fun field => readPresentField null (tags.fieldName name) read field old := by
  simp only [readReflectField, toObject, keeping, Except.mapError, bind, Except.bind]
  cases findMember (tags.fieldName name) members <;> rfl

/-- **A field is read back** where it survives. -/
theorem readReflectField_iff {null : Option α} {name : Bytes} {tags : Tags}
    {read : JsonValue → α → ParseM α α} {f : BitVec 64 → BitVec 64}
    {members : List (Bytes × JsonValue)} {own : JsonValue} {survives : Prop} {old value : α}
    (hown : read (mapDoubles f own) old = .ok value ↔ survives) :
    readReflectField null name tags read (.object (mapDoublesMembers f members)) old =
        .ok value ↔
      SurvivesField null tags.skippable (findMember (tags.fieldName name) members) own survives
        (fun w => read (mapDoubles f w) old = .ok value) old value := by
  rw [readReflectField_object, findMember_mapDoubles]
  unfold SurvivesField
  cases findMember (tags.fieldName name) members with
  | none => exact readMissingField_eq_ok
  | some w =>
    simp only [Option.map_some, Option.elim_some, readPresentField_eq_ok, mapDoubles_isNull]
    by_cases hnull : w.isNull = true ∧ null.isSome = true
    · rw [if_pos hnull, if_pos hnull]
    · rw [if_neg hnull, if_neg hnull]
      by_cases hw : w = own
      · subst hw
        simp [hown]
      · simp [hw]

end

end NekoProto.Json
