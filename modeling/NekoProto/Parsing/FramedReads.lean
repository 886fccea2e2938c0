import NekoProto.Parsing.ReadKeeps
import NekoProto.Parsing.StringMap

/-!
# Reads that keep to their value

A class without a frame takes its fields from one value after the other, unless it is handed an
object: then it is read like any other class. So a read keeps to the value it was given, and leaves
the offset where it is, as long as every value that it hands to such a class is an object.

1. `FramedOn` says so by recursion on the type and the value.
2. A read of such a value moves no offset (`parserRead_stays`).
3. A type that needs a value for its read (`Ty.takes`) is never read from a handle that cannot be
   used (`parserRead_unusable`).
-/

namespace NekoProto.Binary.InputValue

/-- A null. -/
def isNull : InputValue → Bool
  | node _ n => n.tag = .null
  | _ => false

/-- The handle carries an error. -/
def failed : InputValue → Bool
  | node _ _ => false
  | raw _ e => e.isSome
  | error _ => true

/-- The member of an object that a field of this name is read from. -/
def fieldOf (object : InputValue) (name : Bytes) : Option InputValue :=
  if object.tag = .idObject ∧ useHashedFieldId name then Reader.findId object (fieldId name)
  else Reader.findName object name

end NekoProto.Binary.InputValue

namespace NekoProto.Parsing

open Binary Binary.Reader Outcome

/-! ## Types that need a value -/

mutual

/-- A read of the type needs a value. Only a class without a frame that has no field to read needs
none. -/
def Ty.takes : Ty → Tags → Bool
  | .optional T, tags => T.takes tags
  | .pointer _ T, tags => T.takes tags
  | .variant Ts, tags => tags.unionEncoding ≠ .untagged || Ts.takes tags.payload
  | .object unframed fields, tags => !tags.rawFixedData && (!unframed || fields.takes)
  | _, _ => true

/-- All alternatives need a value. -/
def Alternatives.takes : Alternatives → Tags → Bool
  | .one T, tags => T.takes tags
  | .cons T Ts, tags => T.takes tags && Ts.takes tags

/-- The first field that is read needs a value. -/
def Fields.takes : Fields → Bool
  | .nil => false
  | .cons _ tags T rest => if tags.ignore then rest.takes else T.takes tags

end

/-! ## Values of types -/

section

variable (inp : Input)

mutual

/-- Every value that a read of the type hands to a class without a frame is an object. A null under
an optional is not handed on. -/
def FramedOn : Ty → Tags → InputValue → Prop
  | .optional T, tags, v => v.isNull = true ∧ T.takes tags = true ∨ FramedOn T tags v
  | .pointer _ T, tags, v => v.isNull = true ∧ T.takes tags = true ∨ FramedOn T tags v
  | .sequence _ T, _, v => ∀ w ∈ v.elements, FramedOn T {} w
  | .array _ T, _, v => ∀ w ∈ v.elements, FramedOn T {} w
  | .tuple Ts, _, v => FramedTuple Ts v 0
  | .pair T U, _, v =>
    (∀ w, v.fieldOf firstName = some w → FramedOn T {} w) ∧
      ∀ w, v.fieldOf secondName = some w → FramedOn U {} w
  | .variant Ts, tags, v =>
    if tags.unionEncoding = .untagged then FramedUnion Ts tags.payload v
    else ∀ index payload, v.elements[0]? = some index → v.elements[1]? = some payload →
      ∀ s i t, Returns (readArithmetic inp (.integer false .w64) {} index) s i t →
        FramedAlternative Ts tags.payload payload (BitVec.toNat i)
  | .stringMap T, _, v => ∀ m ∈ v.members, FramedOn T {} m.value
  | .entryMap _ K T, _, v =>
    ∀ entry ∈ v.elements, (∀ w, entry.fieldOf keyName = some w → FramedOn K {} w) ∧
      ∀ w, entry.fieldOf valueName = some w → FramedOn T {} w
  | .object unframed fields, tags, v =>
    tags.rawFixedData = true ∨
      (unframed = true → v.failed = true ∨ isFramedObject v = true) ∧ FramedFields fields v
  | .record fields, _, v => FramedRecord fields v 0
  | _, _, _ => True

/-- The elements of a tuple. -/
def FramedTuple : Tys → InputValue → ℕ → Prop
  | .nil, _, _ => True
  | .cons T Ts, array, index =>
    (∀ w, array.elements[index]? = some w → FramedOn T {} w) ∧ FramedTuple Ts array (index + 1)

/-- All alternatives of an untagged variant are tried on the value. -/
def FramedUnion : Alternatives → Tags → InputValue → Prop
  | .one T, tags, v => FramedOn T tags v
  | .cons T Ts, tags, v => FramedOn T tags v ∧ FramedUnion Ts tags v

/-- The payload of a variant, by the index of its alternative. -/
def FramedAlternative : Alternatives → Tags → InputValue → ℕ → Prop
  | .one T, tags, v, 0 => FramedOn T tags v
  | .one _, _, _, _ + 1 => True
  | .cons T _, tags, v, 0 => FramedOn T tags v
  | .cons _ Ts, tags, v, index + 1 => FramedAlternative Ts tags v index

/-- The members that the fields are read from. A null is taken from a field before its parser is
called. -/
def FramedFields : Fields → InputValue → Prop
  | .nil, _ => True
  | .cons name tags T rest, v =>
    (tags.ignore = false → (if tags.flat && T.isObject then FramedFlat T v
      else ∀ w, v.fieldOf (tags.fieldName name) = some w →
        w.isNull = true ∧ T.takes tags = true ∨ FramedOn T tags w)) ∧ FramedFields rest v

/-- The fields of a flattened class. -/
def FramedFlat : Ty → InputValue → Prop
  | .object _ fields, v => FramedFields fields v
  | _, _ => True

/-- The elements of a class without names. -/
def FramedRecord : Fields → InputValue → ℕ → Prop
  | .nil, _, _ => True
  | .cons _ tags T rest, array, index =>
    if tags.ignore then FramedRecord rest array index
    else (∀ w, array.elements[index]? = some w → FramedOn T tags w) ∧
      FramedRecord rest array (index + 1)

end

end

/-! ## The values a read hands on -/

section

variable {inp : Input} {s t : State} {v w array : InputValue}

theorem isRaw_arrayElement {index : ℕ} : isRaw (arrayElement inp s array index) = false := by
  unfold arrayElement
  cases validateHandle inp s array with
  | some e => rfl
  | none =>
    cases array with
    | raw p e => rfl
    | error e => rfl
    | node p n =>
      simp only [InputValue.elements, List.getElem?_map]
      cases n.elements[index]? with
      | none => rfl
      | some m =>
        simp only [Option.map_some]
        split_ifs <;> rfl

/-- An element that is read is one of the array, or an error. -/
theorem arrayElement_cases {index : ℕ} :
    (∃ e, arrayElement inp s array index = .error e) ∨
      array.elements[index]? = some (arrayElement inp s array index) := by
  unfold arrayElement
  cases validateHandle inp s array with
  | some e => exact .inl ⟨e, rfl⟩
  | none =>
    cases array.elements[index]? with
    | none => exact .inl ⟨_, rfl⟩
    | some w =>
      simp only
      split_ifs with htag
      · exact .inr rfl
      · exact .inl ⟨_, rfl⟩

theorem isRaw_member {m : Member InputValue} (h : m ∈ v.members) : isRaw m.value = false := by
  cases v with
  | raw p e => exact (List.not_mem_nil h).elim
  | error e => exact (List.not_mem_nil h).elim
  | node p n =>
    obtain ⟨m', -, rfl⟩ := List.mem_map.mp h
    rfl

theorem isRaw_fieldOf {name : Bytes} (h : v.fieldOf name = some w) : isRaw w = false := by
  unfold InputValue.fieldOf findId findName at h
  split_ifs at h with hid
  all_goals
    obtain ⟨m, hm, rfl⟩ := Option.map_eq_some_iff.mp h
    exact isRaw_member (List.mem_of_find?_eq_some hm)

theorem fieldOr_eq_ok {name : Bytes} {found : Option InputValue} :
    fieldOr name found = .ok w ↔ found = some w := by
  cases found with
  | none => simp [fieldOr]
  | some v => simp [fieldOr]

theorem fieldOf_of_objectField {name : Bytes} (h : objectField inp s v name = .ok w) :
    v.fieldOf name = some w := by
  unfold objectField at h
  unfold InputValue.fieldOf
  cases hvalid : validateHandle inp s v with
  | some e => simp [hvalid] at h
  | none =>
    simp only [hvalid] at h
    split_ifs at h with hnamed hobject hid
    · rw [if_neg fun h => by simp [hnamed] at h]
      exact fieldOr_eq_ok.mp h
    · rw [if_pos ⟨hobject, hid⟩]
      exact fieldOr_eq_ok.mp h
    · rw [if_neg fun h => hid h.2]
      exact fieldOr_eq_ok.mp h

end

variable (inp : Input)

mutual

/-- There is no value under an error. -/
theorem framedOn_error (e : Error) : ∀ (T : Ty) (tags : Tags), FramedOn inp T tags (.error e)
  | .arithmetic _, _ => trivial
  | .string, _ => trivial
  | .enumeration _ _ _, _ => trivial
  | .null _, _ => trivial
  | .optional T, tags => .inr (framedOn_error e T tags)
  | .pointer _ T, tags => .inr (framedOn_error e T tags)
  | .sequence _ _, _ => nofun
  | .array _ _, _ => nofun
  | .tuple Ts, _ => framedTuple_error e Ts 0
  | .pair _ _, _ => ⟨nofun, nofun⟩
  | .variant Ts, tags => by
    unfold FramedOn
    split_ifs with huntagged
    · exact framedUnion_error e Ts tags.payload
    · nofun
  | .stringMap _, _ => nofun
  | .entryMap _ _ _, _ => nofun
  | .object _ fields, _ => .inr ⟨fun _ => .inl rfl, framedFields_error e fields⟩
  | .record fields, _ => framedRecord_error e fields 0

theorem framedTuple_error (e : Error) : ∀ (Ts : Tys) (index : ℕ),
    FramedTuple inp Ts (.error e) index
  | .nil, _ => trivial
  | .cons _ Ts, index => ⟨nofun, framedTuple_error e Ts (index + 1)⟩

theorem framedUnion_error (e : Error) : ∀ (Ts : Alternatives) (tags : Tags),
    FramedUnion inp Ts tags (.error e)
  | .one T, tags => framedOn_error e T tags
  | .cons T Ts, tags => ⟨framedOn_error e T tags, framedUnion_error e Ts tags⟩

theorem framedAlternative_error (e : Error) : ∀ (Ts : Alternatives) (tags : Tags) (index : ℕ),
    FramedAlternative inp Ts tags (.error e) index
  | .one T, tags, 0 => framedOn_error e T tags
  | .one _, _, _ + 1 => trivial
  | .cons T _, tags, 0 => framedOn_error e T tags
  | .cons _ Ts, tags, index + 1 => framedAlternative_error e Ts tags index

theorem framedFields_error (e : Error) : ∀ fields : Fields, FramedFields inp fields (.error e)
  | .nil => trivial
  | .cons name tags T rest => by
    refine ⟨fun _ => ?_, framedFields_error e rest⟩
    split_ifs with hflat
    · exact framedFlat_error e T
    · nofun

theorem framedFlat_error (e : Error) : ∀ T : Ty, FramedFlat inp T (.error e)
  | .object _ fields => framedFields_error e fields
  | .arithmetic _ => trivial
  | .string => trivial
  | .enumeration _ _ _ => trivial
  | .null _ => trivial
  | .optional _ => trivial
  | .pointer _ _ => trivial
  | .sequence _ _ => trivial
  | .array _ _ => trivial
  | .tuple _ => trivial
  | .pair _ _ => trivial
  | .variant _ => trivial
  | .stringMap _ => trivial
  | .entryMap _ _ _ => trivial
  | .record _ => trivial

theorem framedRecord_error (e : Error) : ∀ (fields : Fields) (index : ℕ),
    FramedRecord inp fields (.error e) index
  | .nil, _ => trivial
  | .cons _ tags T rest, index => by
    unfold FramedRecord
    split_ifs with hignore
    · exact framedRecord_error e rest index
    · exact ⟨nofun, framedRecord_error e rest (index + 1)⟩

end

mutual

/-- A type without such a class has no value to hand on. -/
theorem framedOn_of_framed : ∀ (T : Ty) (tags : Tags) (v : InputValue), T.framed = true →
    FramedOn inp T tags v
  | .arithmetic _, _, _, _ => trivial
  | .string, _, _, _ => trivial
  | .enumeration _ _ _, _, _, _ => trivial
  | .null _, _, _, _ => trivial
  | .optional T, tags, v, h => .inr (framedOn_of_framed T tags v h)
  | .pointer _ T, tags, v, h => .inr (framedOn_of_framed T tags v h)
  | .sequence _ T, _, _, h => fun w _ => framedOn_of_framed T {} w h
  | .array _ T, _, _, h => fun w _ => framedOn_of_framed T {} w h
  | .tuple Ts, _, v, h => framedTuple_of_framed Ts v 0 h
  | .pair T U, _, _, h => by
    obtain ⟨hT, hU⟩ := Bool.and_eq_true_iff.mp h
    exact ⟨fun w _ => framedOn_of_framed T {} w hT, fun w _ => framedOn_of_framed U {} w hU⟩
  | .variant Ts, tags, v, h => by
    unfold FramedOn
    split_ifs with huntagged
    · exact framedUnion_of_framed Ts tags.payload v h
    · exact fun _ payload _ _ _ i _ _ => framedAlternative_of_framed Ts tags.payload payload _ h
  | .stringMap T, _, _, h => fun m _ => framedOn_of_framed T {} m.value h
  | .entryMap _ K T, _, _, h => by
    obtain ⟨hK, hT⟩ := Bool.and_eq_true_iff.mp h
    exact fun entry _ =>
      ⟨fun w _ => framedOn_of_framed K {} w hK, fun w _ => framedOn_of_framed T {} w hT⟩
  | .object unframed fields, _, v, h => by
    obtain ⟨hunframed, hfields⟩ := Bool.and_eq_true_iff.mp h
    refine .inr ⟨fun h => ?_, framedFields_of_framed fields v hfields⟩
    rw [h] at hunframed
    exact absurd hunframed Bool.false_ne_true
  | .record fields, _, v, h => framedRecord_of_framed fields v 0 h

theorem framedTuple_of_framed : ∀ (Ts : Tys) (array : InputValue) (index : ℕ), Ts.framed = true →
    FramedTuple inp Ts array index
  | .nil, _, _, _ => trivial
  | .cons T Ts, array, index, h => by
    obtain ⟨hT, hTs⟩ := Bool.and_eq_true_iff.mp h
    exact ⟨fun w _ => framedOn_of_framed T {} w hT, framedTuple_of_framed Ts array _ hTs⟩

theorem framedUnion_of_framed : ∀ (Ts : Alternatives) (tags : Tags) (v : InputValue),
    Ts.framed = true → FramedUnion inp Ts tags v
  | .one T, tags, v, h => framedOn_of_framed T tags v h
  | .cons T Ts, tags, v, h => by
    obtain ⟨hT, hTs⟩ := Bool.and_eq_true_iff.mp h
    exact ⟨framedOn_of_framed T tags v hT, framedUnion_of_framed Ts tags v hTs⟩

theorem framedAlternative_of_framed : ∀ (Ts : Alternatives) (tags : Tags) (v : InputValue)
    (index : ℕ), Ts.framed = true → FramedAlternative inp Ts tags v index
  | .one T, tags, v, 0, h => framedOn_of_framed T tags v h
  | .one _, _, _, _ + 1, _ => trivial
  | .cons T _, tags, v, 0, h => framedOn_of_framed T tags v (Bool.and_eq_true_iff.mp h).1
  | .cons _ Ts, tags, v, index + 1, h =>
    framedAlternative_of_framed Ts tags v index (Bool.and_eq_true_iff.mp h).2

theorem framedFields_of_framed : ∀ (fields : Fields) (v : InputValue), fields.framed = true →
    FramedFields inp fields v
  | .nil, _, _ => trivial
  | .cons name tags T rest, v, h => by
    obtain ⟨hT, hrest⟩ := Bool.and_eq_true_iff.mp h
    refine ⟨fun _ => ?_, framedFields_of_framed rest v hrest⟩
    split_ifs with hflat
    · exact framedFlat_of_framed T v hT
    · exact fun w _ => .inr (framedOn_of_framed T tags w hT)

theorem framedFlat_of_framed : ∀ (T : Ty) (v : InputValue), T.framed = true → FramedFlat inp T v
  | .object _ fields, v, h => framedFields_of_framed fields v (Bool.and_eq_true_iff.mp h).2
  | .arithmetic _, _, _ => trivial
  | .string, _, _ => trivial
  | .enumeration _ _ _, _, _ => trivial
  | .null _, _, _ => trivial
  | .optional _, _, _ => trivial
  | .pointer _ _, _, _ => trivial
  | .sequence _ _, _, _ => trivial
  | .array _ _, _, _ => trivial
  | .tuple _, _, _ => trivial
  | .pair _ _, _, _ => trivial
  | .variant _, _, _ => trivial
  | .stringMap _, _, _ => trivial
  | .entryMap _ _ _, _, _ => trivial
  | .record _, _, _ => trivial

theorem framedRecord_of_framed : ∀ (fields : Fields) (array : InputValue) (index : ℕ),
    fields.framed = true → FramedRecord inp fields array index
  | .nil, _, _, _ => trivial
  | .cons name tags T rest, array, index, h => by
    obtain ⟨hT, hrest⟩ := Bool.and_eq_true_iff.mp h
    unfold FramedRecord
    split_ifs with hignore
    · exact framedRecord_of_framed rest array index hrest
    · exact ⟨fun w _ => framedOn_of_framed T tags w hT,
        framedRecord_of_framed rest array (index + 1) hrest⟩

end

mutual

theorem takes_of_framed : ∀ (T : Ty) (tags : Tags), T.framed = true → tags.rawFixedData = false →
    T.takes tags = true
  | .arithmetic _, _, _, _ => rfl
  | .string, _, _, _ => rfl
  | .enumeration _ _ _, _, _, _ => rfl
  | .null _, _, _, _ => rfl
  | .optional T, tags, h, htags => takes_of_framed T tags h htags
  | .pointer _ T, tags, h, htags => takes_of_framed T tags h htags
  | .sequence _ _, _, _, _ => rfl
  | .array _ _, _, _, _ => rfl
  | .tuple _, _, _, _ => rfl
  | .pair _ _, _, _, _ => rfl
  | .variant Ts, tags, h, htags =>
    Bool.or_eq_true_iff.mpr (.inr (unionTakes_of_framed Ts tags.payload h htags))
  | .stringMap _, _, _, _ => rfl
  | .entryMap _ _ _, _, _, _ => rfl
  | .object unframed fields, tags, h, htags => by
    obtain ⟨hunframed, -⟩ := Bool.and_eq_true_iff.mp h
    simp [Ty.takes, htags, (Bool.not_eq_true' _).mp hunframed]
  | .record _, _, _, _ => rfl

theorem unionTakes_of_framed : ∀ (Ts : Alternatives) (tags : Tags), Ts.framed = true →
    tags.rawFixedData = false → Ts.takes tags = true
  | .one T, tags, h, htags => takes_of_framed T tags h htags
  | .cons T Ts, tags, h, htags => by
    obtain ⟨hT, hTs⟩ := Bool.and_eq_true_iff.mp h
    exact Bool.and_eq_true_iff.mpr
      ⟨takes_of_framed T tags hT htags, unionTakes_of_framed Ts tags hTs htags⟩

end

/-! ## Handles that cannot be used -/

section

variable {inp : Input} {v : InputValue} {s t : State} {α : Type} {a : α}

theorem validateHandle_failed (h : v.failed = true) : validateHandle inp s v ≠ none := by
  intro hnone
  unfold validateHandle at hnone
  split_ifs at hnone
  cases herror : s.error with
  | some e => simp [herror] at hnone
  | none =>
    cases v with
    | node p n => exact absurd h Bool.false_ne_true
    | raw p e =>
      simp only [herror] at hnone
      exact absurd h (by simp [InputValue.failed, hnone])
    | error e => simp [herror] at hnone

theorem validate_failed (h : v.failed = true) : validate inp s v ≠ none := fun hnone =>
  validateHandle_failed h (validateHandle_of_validate hnone)

theorem isEmpty_unusable (hv : validate inp s v ≠ none) : Returns (isEmpty inp v) s false s := by
  unfold isEmpty
  rw [returns_get_bind, if_pos (.inl (Option.isSome_iff_ne_none.mpr hv))]
  exact returns_pure.mpr ⟨rfl, rfl⟩

theorem requireValid_unusable {f : Unit → ReadM α} (hv : validate inp s v ≠ none) :
    ¬Returns (requireValid inp v >>= f) s a t := by
  rw [returns_bind]
  rintro ⟨u, s', h, -⟩
  exact hv (requireValid_returns.mp h).1

theorem toBasicString_unusable (hv : validate inp s v ≠ none) :
    ∃ e, toBasicString inp v s = .error (.error e) s := by
  obtain ⟨e, he⟩ := Option.ne_none_iff_exists'.mp hv
  have hrequire : requireValid inp v s = .error (.error e) s := by
    unfold requireValid
    rw [get_bind_apply, he]
    rfl
  exact ⟨e, bind_error hrequire⟩

theorem toArray_unusable {f : InputValue → ReadM α} (hv : validate inp s v ≠ none) :
    ¬Returns (toArray inp v >>= f) s a t := by
  rw [returns_bind]
  rintro ⟨array, s', h, -⟩
  exact requireValid_unusable hv h

theorem toObject_unusable {f : InputValue → ReadM α} (hv : validate inp s v ≠ none) :
    ¬Returns (toObject inp v >>= f) s a t := by
  rw [returns_bind]
  rintro ⟨object, s', h, -⟩
  exact requireValid_unusable hv h

theorem readArithmetic_unusable {T : Arithmetic} {tags : Tags} {a : T.Value}
    (hv : validate inp s v ≠ none) : ¬Returns (readArithmetic inp T tags v) s a t := by
  unfold readArithmetic
  cases tags.fixedLengthOf T with
  | none => exact requireValid_unusable hv
  | some size =>
    by_cases hsize : size ≠ T.size
    · simp only [if_pos hsize]
      exact returns_fail
    · simp only [if_neg hsize]
      exact requireValid_unusable hv

theorem readNullable_unusable (hv : validate inp s v ≠ none) {text : String} {read : ReadM α}
    {a : Option α} (hread : ∀ a t, ¬Returns read s a t) :
    ¬Returns (readNullable inp text read v) s a t := by
  unfold readNullable
  rw [returns_bind]
  rintro ⟨empty, s', hempty, h⟩
  obtain ⟨rfl, rfl⟩ := (isEmpty_unusable hv).unique hempty
  obtain ⟨value, s', hvalue, -⟩ := returns_bind.mp h
  exact hread _ _ (context_returns.mp hvalue)

theorem tryAlternative_true {x : ReadM α} (h : Returns (tryAlternative x v) s true t) :
    ∃ a u, Returns x s a u := by
  unfold tryAlternative at h
  rw [returns_get_bind] at h
  obtain ⟨tried, u, htried, h⟩ := returns_bind.mp h
  obtain ⟨_, w, -, h⟩ := returns_bind.mp h
  cases tried with
  | ok a => exact ⟨a, u, result_returns_ok.mp htried⟩
  | error e => exact absurd (returns_pure.mp h).1 (by simp)

/-- A try goes back to the state before it, but for what the Reader does not restore. -/
theorem tryAlternative_state {x : ReadM α} {found : Bool}
    (h : Returns (tryAlternative x v) s found t) : ∃ u, t = restore (checkpoint s v) u := by
  unfold tryAlternative at h
  rw [returns_get_bind] at h
  obtain ⟨tried, u, -, h⟩ := returns_bind.mp h
  obtain ⟨_, w, hw, h⟩ := returns_bind.mp h
  refine ⟨u, ?_⟩
  cases tried with
  | ok a => exact (returns_pure.mp h).2.trans (returns_modify.mp hw)
  | error e => exact (returns_pure.mp h).2.trans (returns_modify.mp hw)

theorem id_mem_nodes {id : NodeId} (h : v.id = some id) : id ∈ nodes v := by
  cases v with
  | node p n =>
    obtain rfl := Option.some.inj h
    cases n
    exact List.mem_map.mpr ⟨_, List.mem_cons_self, rfl⟩
  | raw p e =>
    obtain rfl := Option.some.inj h
    exact List.mem_singleton_self _
  | error e => cases h

/-- After a try the handle can be used as before. -/
theorem tryAlternative_validate {x : ReadM α} {found : Bool} (hx : Keeps (kept true) x s)
    (h : Returns (tryAlternative x v) s found t) : validate inp t v = validate inp s v := by
  have herror : t.error = s.error := (Prod.mk.inj ((tryAlternative_keeps hx).returns h)).1
  have hhandle : validateHandle inp t v = validateHandle inp s v := by
    unfold validateHandle
    rw [herror]
  have hconsumed : isConsumed t v = isConsumed s v := by
    obtain ⟨u, rfl⟩ := tryAlternative_state h
    unfold isConsumed
    cases hid : v.id with
    | none => rfl
    | some id => simp only [mem_restore, id_mem_nodes hid, not_true, false_and, true_and, false_or]
  unfold validate
  rw [hhandle, hconsumed]

end

section

variable {inp : Input} (env : Env)

mutual

/-- What needs a value is not read from a handle that cannot be used. -/
theorem parserRead_unusable : ∀ (T : Ty) (tags : Tags) (v : InputValue) (old : T.Value)
    {s t : State} {a : T.Value}, T.takes tags = true → validate inp s v ≠ none →
    ¬Returns (parserRead inp env T tags v old) s a t
  | .arithmetic _, _, _, _, _, _, _, _, hv => readArithmetic_unusable hv
  | .string, _, _, _, _, _, _, _, hv => fun h => requireValid_unusable hv (context_returns.mp h)
  | .enumeration _ _ _, _, _, _, _, _, _, _, hv => by
    intro h
    obtain ⟨name, s', hname, hread⟩ := returns_bind.mp h
    obtain ⟨e, he⟩ := toBasicString_unusable hv
    obtain ⟨rfl, rfl⟩ := (result_returns_error.mpr he).unique hname
    exact readArithmetic_unusable hv (context_returns.mp hread)
  | .null _, _, _, _, _, _, _, _, hv => by
    intro h
    obtain ⟨empty, s', hempty, hfail⟩ := returns_bind.mp h
    obtain ⟨rfl, rfl⟩ := (isEmpty_unusable hv).unique hempty
    exact returns_fail hfail
  | .optional T, tags, v, _, _, _, _, h, hv =>
    readNullable_unusable hv fun _ _ => parserRead_unusable T tags v (env.default T) h hv
  | .pointer _ T, tags, v, _, _, _, _, h, hv =>
    readNullable_unusable hv fun _ _ => parserRead_unusable T tags v (env.default T) h hv
  | .sequence _ _, _, _, _, _, _, _, _, hv => toArray_unusable hv
  | .array _ _, _, _, _, _, _, _, _, hv => toArray_unusable hv
  | .tuple _, _, _, _, _, _, _, _, hv => toArray_unusable hv
  | .pair _ _, _, _, _, _, _, _, _, hv => toObject_unusable hv
  | .variant Ts, tags, v, old, s, t, a, h, hv => by
    intro hr
    by_cases huntagged : tags.unionEncoding = .untagged
    · simp only [parserRead, huntagged, if_true] at hr
      obtain ⟨⟨matchCount, matchIndex⟩, u, hfound, hr⟩ := returns_bind.mp hr
      have htakes : Ts.takes tags.payload = true := by simpa [Ty.takes, huntagged] using h
      have hcount := findAlternatives_unusable Ts tags.payload v 0 0 0 htakes hv hfound
      simp only at hcount hr
      rw [if_pos hcount] at hr
      exact returns_fail hr
    · simp only [parserRead, huntagged, if_false] at hr
      obtain ⟨array, u, harray, -⟩ := returns_bind.mp hr
      exact requireValid_unusable hv (context_returns.mp harray)
  | .stringMap _, _, _, _, _, _, _, _, hv => toObject_unusable hv
  | .entryMap _ _ _, _, _, _, _, _, _, _, hv => toArray_unusable hv
  | .object unframed fields, tags, v, old, s, t, a, h, hv => by
    obtain ⟨hraw, hfields⟩ := Bool.and_eq_true_iff.mp h
    rw [Bool.not_eq_true'] at hraw
    simp only [parserRead, hraw, Bool.false_eq_true, if_false]
    by_cases hunframed : (unframed && !isFramedObject v) = true
    · simp only [hunframed]
      refine readUnframed_unusable fields v _ ?_ hv
      simpa [(Bool.and_eq_true_iff.mp hunframed).1] using hfields
    · simp only [hunframed]
      exact toObject_unusable hv
  | .record _, _, _, _, _, _, _, _, hv => toArray_unusable hv

theorem findAlternatives_unusable : ∀ (Ts : Alternatives) (tags : Tags) (v : InputValue)
    (index matchCount matchIndex : ℕ) {s t : State} {found : ℕ × ℕ}, Ts.takes tags = true →
    validate inp s v ≠ none →
    Returns (findAlternatives inp env Ts tags v index matchCount matchIndex) s found t →
    found.1 = matchCount
  | .one T, tags, v, index, matchCount, matchIndex, s, t, found, h, hv, hr => by
    obtain ⟨matched, u, htry, hr⟩ := returns_bind.mp hr
    obtain ⟨rfl, -⟩ := returns_pure.mp hr
    cases matched with
    | false => rfl
    | true =>
      obtain ⟨a, u, hread⟩ := tryAlternative_true htry
      exact absurd hread (parserRead_unusable T tags v (env.default T) h hv)
  | .cons T Ts, tags, v, index, matchCount, matchIndex, s, t, found, h, hv, hr => by
    obtain ⟨hT, hTs⟩ := Bool.and_eq_true_iff.mp h
    obtain ⟨matched, u, htry, hr⟩ := returns_bind.mp hr
    cases matched with
    | false =>
      rw [← tryAlternative_validate (parserRead_keeps env T tags v _) htry] at hv
      exact findAlternatives_unusable Ts tags v _ _ _ hTs hv hr
    | true =>
      obtain ⟨a, u, hread⟩ := tryAlternative_true htry
      exact absurd hread (parserRead_unusable T tags v (env.default T) hT hv)

theorem readUnframed_unusable : ∀ (fields : Fields) (v : InputValue) (olds : fields.Values)
    {s t : State} {a : fields.Values}, fields.takes = true → validate inp s v ≠ none →
    ¬Returns (readUnframed inp env fields v olds) s a t
  | .nil, _, _, _, _, _, h, _ => absurd h Bool.false_ne_true
  | .cons name tags T rest, v, (old, olds), s, t, a, h, hv => by
    intro hr
    unfold Fields.takes at h
    by_cases hignore : tags.ignore = true
    · simp only [readUnframed, hignore, if_true] at h hr
      obtain ⟨values, u, hrest, -⟩ := returns_bind.mp hr
      exact readUnframed_unusable rest v olds h hv hrest
    · simp only [readUnframed, hignore] at h hr
      obtain ⟨value, u, hvalue, hr⟩ := returns_bind.mp hr
      obtain ⟨w, u', -, hr⟩ := returns_bind.mp hr
      obtain ⟨value', u'', hthrow, -⟩ := returns_bind.mp hr
      obtain ⟨rfl, -⟩ := orThrow_returns.mp hthrow
      have hread := context_returns.mp (result_returns_ok.mp hvalue)
      exact parserRead_unusable T tags v old h hv hread

end

end

/-! ## Reads that leave the offset -/

section

variable {inp : Input} {v w array object : InputValue} {s t : State} {α β : Type} {x : ReadM α}
  {on on' : InputValue → Prop}

/-- Where the read returns, the offset is as before. -/
def Stays (x : ReadM α) (s : State) : Prop := ∀ a t, Returns x s a t → t.offset = s.offset

theorem Stays.of_keeps (h : Keeps (kept false) x s) : Stays x s := fun _ _ hr =>
  Option.some.inj (Prod.mk.inj (h.returns hr)).2

theorem Stays.pure {a : α} : Stays (pure a) s := .of_keeps .pure

theorem Stays.fail {code : ErrorCode} {text : String} : Stays (fail code text : ReadM α) s :=
  .of_keeps fail_keeps

theorem Stays.bind {f : α → ReadM β} (hx : Stays x s)
    (hf : ∀ a t, Returns x s a t → Stays (f a) t) : Stays (x >>= f) s := by
  intro b u h
  obtain ⟨a, t, ha, hb⟩ := returns_bind.mp h
  exact (hf a t ha b u hb).trans (hx a t ha)

theorem Stays.get_bind {f : State → ReadM α} (h : Stays (f s) s) : Stays (get >>= f) s := h

theorem Stays.ite {p : Prop} [Decidable p] {y : ReadM α} (hx : p → Stays x s)
    (hy : ¬p → Stays y s) : Stays (if p then x else y) s := by
  by_cases h : p
  · rw [if_pos h]
    exact hx h
  · rw [if_neg h]
    exact hy h

theorem Stays.context {text : String} (h : Stays x s) : Stays (context text x) s := fun a t hr =>
  h a t (context_returns.mp hr)

/-- A read that leaves the offset, of the handles in `on`. -/
def StaysOn (on : InputValue → Prop) (read : InputValue → ReadM α) : Prop :=
  ∀ w s, isRaw w = false → on w → Stays (read w) s

/-- The key and the value of a map's entry. -/
def EntryOn (on on' : InputValue → Prop) (entry : InputValue) : Prop :=
  (∀ w, entry.fieldOf keyName = some w → on w) ∧ ∀ w, entry.fieldOf valueName = some w → on' w

theorem toArray_returns_eq (h : Returns (toArray inp v) s w t) : w = v ∧ t = s := by
  obtain ⟨u, s', hvalid, hif⟩ := returns_bind.mp h
  obtain ⟨-, rfl⟩ := requireValid_returns.mp hvalid
  split_ifs at hif with hraw
  · exact absurd hif typeError_returns
  · exact returns_pure.mp hif

/-- After a null has been asked for, it cannot be used any more. -/
theorem isEmpty_null {empty : Bool} (hnull : v.isNull = true)
    (h : Returns (isEmpty inp v) s empty t) : validate inp t v ≠ none := by
  cases v with
  | raw p e => exact absurd hnull Bool.false_ne_true
  | error e => exact absurd hnull Bool.false_ne_true
  | node p n =>
    have htag : n.tag = .null := of_decide_eq_true hnull
    unfold isEmpty at h
    rw [returns_get_bind] at h
    split_ifs at h with hvalid
    · obtain ⟨-, rfl⟩ := returns_pure.mp h
      simpa [isRaw, InputValue.tag, htag, Option.isSome_iff_ne_none] using hvalid
    · obtain ⟨u, s', hconsume, h⟩ := returns_bind.mp h
      obtain ⟨-, rfl⟩ := returns_pure.mp h
      obtain rfl := consume_returns.mp hconsume
      have hconsumed : isConsumed (consumed s p n.begin) (.node p n) = true := by
        simp [isConsumed, InputValue.id, consumed]
      unfold validate
      cases validateHandle inp (consumed s p n.begin) (.node p n) with
      | some e => simp
      | none => simp [hconsumed]

/-! ### Containers -/

section

variable (herror : ∀ e, on (.error e))

include herror

theorem on_arrayElement {index : ℕ} (h : ∀ w, array.elements[index]? = some w → on w) :
    on (arrayElement inp s array index) := by
  obtain ⟨e, he⟩ | hw := @arrayElement_cases inp s array index
  · exact he ▸ herror e
  · exact h _ hw

variable {read : InputValue → α → ReadM α} (hread : ∀ a, StaysOn on fun w => read w a)

include hread

theorem readItems_stays {initial : α} {insert : List α → α → Option (List α)}
    (hall : ∀ w ∈ array.elements, on w) (count : ℕ) : ∀ {index : ℕ} {parsed : List α} {s : State},
    Stays (readItems inp read initial insert array count index parsed) s := by
  induction count with
  | zero => exact .pure
  | succ count ih =>
    intro index parsed s
    have helement : on (arrayElement inp s array index) :=
      on_arrayElement herror fun w hw => hall w (List.mem_of_getElem? hw)
    refine .get_bind (.bind (hread _ _ _ isRaw_arrayElement helement).context fun item _ _ => ?_)
    cases insert parsed item with
    | none => exact .fail
    | some parsed => exact ih

theorem readSequence_stays {initial : α} {insert : List α → α → Option (List α)}
    (hall : ∀ w ∈ v.elements, on w) : Stays (readSequence inp read initial insert v) s := by
  refine .bind (.of_keeps toArray_keeps) fun array _ harray => ?_
  obtain ⟨rfl, -⟩ := toArray_returns_eq harray
  exact readItems_stays herror hread hall _

theorem readArrayItems_stays (hall : ∀ w ∈ array.elements, on w) (values : List α) :
    ∀ {index : ℕ} {s : State}, Stays (readArrayItems inp read array index values) s := by
  induction values with
  | nil => exact .pure
  | cons value values ih =>
    intro index s
    have helement : on (arrayElement inp s array index) :=
      on_arrayElement herror fun w hw => hall w (List.mem_of_getElem? hw)
    refine .get_bind (.bind (hread _ _ _ isRaw_arrayElement helement).context fun item _ _ => ?_)
    exact .bind ih fun rest _ _ => .pure

theorem readArray_stays {size : ℕ} {old : { values : List α // values.length = size }}
    (hall : ∀ w ∈ v.elements, on w) : Stays (readArray inp read v old) s := by
  refine .bind (.of_keeps toArray_keeps) fun array _ harray => .ite (fun _ => .fail) fun _ => ?_
  obtain ⟨rfl, -⟩ := toArray_returns_eq harray
  exact .bind (readArrayItems_stays herror hread hall _) fun _ _ _ => .pure

end

section

variable {readFirst : InputValue → ReadM α} {readSecond : InputValue → ReadM β}
  (hfirst : StaysOn on readFirst) (hsecond : StaysOn on' readSecond)

include hfirst

theorem readRequired_stays {name : Bytes} {missing text : String}
    (hfield : ∀ w, object.fieldOf name = some w → on w) :
    Stays (readRequired inp object name missing text readFirst) s := by
  refine .get_bind ?_
  cases hw : objectField inp s object name with
  | error e => exact .fail
  | ok w =>
    have hw := fieldOf_of_objectField hw
    exact (hfirst w s (isRaw_fieldOf hw) (hfield w hw)).context

theorem readStringMap_stays (hall : ∀ m ∈ v.members, on m.value) :
    Stays (readStringMap inp readFirst v) s := by
  intro entries t h
  have hdecodes : ∀ {ms es s t}, Decodes readFirst ms es s t →
      (∀ m ∈ ms, m ∈ v.members) → t.offset = s.offset := by
    intro ms es s t h
    induction h with
    | nil => exact fun _ => rfl
    | cons first rest ih =>
      intro hms
      have hm := hms _ List.mem_cons_self
      rw [ih fun m hm => hms m (List.mem_cons_of_mem _ hm)]
      exact hfirst _ _ (isRaw_member hm) (hall _ hm) _ _ first
  obtain ⟨-, hobject, -⟩ := readStringMap_returns.mp h
  obtain htag | htag := isFramedObject_iff.mp hobject
  · exact hdecodes (readStringMap_decodes htag h) fun _ => id
  · obtain ⟨-, -, rfl⟩ := (readStringMap_idObject htag).mp h
    rfl

include hsecond

theorem readPair_stays (hv : ∀ w, v.fieldOf firstName = some w → on w)
    (hv' : ∀ w, v.fieldOf secondName = some w → on' w) :
    Stays (readPair inp readFirst readSecond v) s := by
  refine .bind (.of_keeps toObject_keeps) fun object _ hobject => ?_
  obtain ⟨-, -, rfl, -⟩ := toObject_returns_iff.mp hobject
  exact .bind (readRequired_stays hfirst hv) fun _ _ _ =>
    .bind (readRequired_stays hsecond hv') fun _ _ _ => .pure

theorem readEntries_stays {unique : Bool} {equivalent : α → α → Bool}
    (hall : ∀ entry ∈ array.elements, EntryOn on on' entry) (count : ℕ) :
    ∀ {index : ℕ} {parsed : List (α × β)} {s : State}, Stays
      (readEntries inp readFirst readSecond unique equivalent array count index parsed) s := by
  induction count with
  | zero => exact .pure
  | succ count ih =>
    intro index parsed s
    have hentry : EntryOn on on' (arrayElement inp s array index) :=
      on_arrayElement (fun e => ⟨nofun, nofun⟩) fun w hw => hall w (List.mem_of_getElem? hw)
    obtain ⟨hkey, hvalue⟩ := hentry
    refine .get_bind (.bind (.of_keeps (context_keeps toObject_keeps)) fun object _ hobject => ?_)
    obtain ⟨-, -, rfl, -⟩ := toObject_returns_iff.mp (context_returns.mp hobject)
    refine .bind (readRequired_stays hfirst hkey) fun key _ _ => ?_
    refine .bind (readRequired_stays hsecond hvalue) fun value _ _ => ?_
    exact .ite (fun _ => .fail) fun _ => ih

theorem readEntryMap_stays {unique : Bool} {equivalent : α → α → Bool}
    (hall : ∀ entry ∈ v.elements, EntryOn on on' entry) :
    Stays (readEntryMap inp readFirst readSecond unique equivalent v) s := by
  refine .bind (.of_keeps toArray_keeps) fun array _ harray => ?_
  obtain ⟨rfl, -⟩ := toArray_returns_eq harray
  exact readEntries_stays hfirst hsecond hall _

end

/-! ### Nulls -/

/-- A read that is never handed a null, since it needs a value, or that leaves the offset. -/
def Handed (inp : Input) (v : InputValue) (read : ReadM α) : Prop :=
  v.isNull = true ∧ (∀ s a t, validate inp s v ≠ none → ¬Returns read s a t) ∨ ∀ s, Stays read s

variable {read : ReadM α}

theorem Handed.stays (h : Handed inp v read) {empty : Bool}
    (hempty : Returns (isEmpty inp v) s empty t) : Stays read t := by
  obtain ⟨hnull, hread⟩ | hstays := h
  · exact fun a u hr => absurd hr (hread t a u (isEmpty_null hnull hempty))
  · exact hstays t

theorem readNullable_stays (h : Handed inp v read) {text : String} :
    Stays (readNullable inp text read v) s :=
  .bind (.of_keeps isEmpty_keeps) fun _ _ hempty => .ite (fun _ => .pure) fun _ =>
    .bind (h.stays hempty).context fun _ _ _ => .pure

/-! ### Fields -/

section

variable {T : Ty} {name : Bytes} {tags : Tags} {old : T.Value}
  {read : InputValue → T.Value → ReadM T.Value}

theorem readPresentField_stays (h : Handed inp w (read w old)) :
    Stays (readPresentField inp T name read w old) s := by
  refine .bind (.of_keeps isEmpty_keeps) fun empty t hempty => ?_
  split
  · exact .pure
  · exact (h.stays hempty).context

theorem readReflectField_stays
    (h : ∀ w, v.fieldOf (tags.fieldName name) = some w → Handed inp w (read w old)) :
    Stays (readReflectField inp T name tags read v old) s := by
  refine .bind (.of_keeps toObject_keeps) fun object t hobject => .get_bind ?_
  obtain ⟨-, -, rfl, -⟩ := toObject_returns_iff.mp hobject
  cases hw : objectField inp t object (tags.fieldName name) with
  | error e => exact .of_keeps readMissingField_keeps
  | ok w => exact readPresentField_stays (h w (fieldOf_of_objectField hw))

end

theorem tryAlternative_stays : Stays (tryAlternative x v) s := by
  intro found t h
  obtain ⟨u, rfl⟩ := tryAlternative_state h
  rfl

/-- Behind an error there is no next value. -/
theorem next_error {e : Error} (h : Returns (next inp (.error e)) s w t) :
    (∃ e', w = .error e') ∧ t = s := by
  unfold next at h
  rw [returns_get_bind] at h
  obtain ⟨e', he'⟩ := Option.ne_none_iff_exists'.mp (validateHandle_failed (v := .error e) rfl)
  rw [he'] at h
  obtain ⟨rfl, rfl⟩ := returns_pure.mp h
  exact ⟨⟨e', rfl⟩, rfl⟩

end

section

variable {inp : Input} (env : Env)

theorem handed {T : Ty} {tags : Tags} {v : InputValue} {old : T.Value}
    (hstays : FramedOn inp T tags v → ∀ s, Stays (parserRead inp env T tags v old) s)
    (h : v.isNull = true ∧ T.takes tags = true ∨ FramedOn inp T tags v) :
    Handed inp v (parserRead inp env T tags v old) :=
  h.imp (fun h => ⟨h.1, fun _ _ _ hv => parserRead_unusable env T tags v old h.2 hv⟩) hstays

mutual

/-- **A read keeps to its value**, of which it hands only objects to classes without a frame. -/
theorem parserRead_stays : ∀ (T : Ty) (tags : Tags) (v : InputValue) (old : T.Value) {s : State},
    isRaw v = false → FramedOn inp T tags v → Stays (parserRead inp env T tags v old) s
  | .arithmetic _, _, _, _, _, hv, _ => .of_keeps (hv ▸ readArithmetic_keeps)
  | .string, _, _, _, _, hv, _ => .of_keeps (context_keeps (hv ▸ toBasicString_keeps))
  | .enumeration _ _ _, _, _, _, _, hv, _ => .of_keeps (hv ▸ readEnumeration_keeps)
  | .null _, _, _, _, _, _, _ => .of_keeps readNull_keeps
  | .optional T, tags, v, _, _, hv, h =>
    readNullable_stays (handed env (fun h _ => parserRead_stays T tags v (env.default T) hv h) h)
  | .pointer _ T, tags, v, _, _, hv, h =>
    readNullable_stays (handed env (fun h _ => parserRead_stays T tags v (env.default T) hv h) h)
  | .sequence _ T, _, v, _, _, _, h =>
    readSequence_stays (fun e => framedOn_error inp e T {})
      (fun a w _ hw h => parserRead_stays T {} w a hw h) h
  | .array _ T, _, v, _, _, _, h =>
    readArray_stays (fun e => framedOn_error inp e T {})
      (fun a w _ hw h => parserRead_stays T {} w a hw h) h
  | .tuple Ts, _, v, old, s, _, h => by
    refine .bind (.of_keeps toArray_keeps) fun array _ harray => .ite (fun _ => .fail) fun _ => ?_
    obtain ⟨rfl, -⟩ := toArray_returns_eq harray
    exact readTuple_stays Ts array 0 old h
  | .pair T U, _, v, old, _, _, h =>
    readPair_stays (fun w _ hw h => parserRead_stays T {} w old.1 hw h)
      (fun w _ hw h => parserRead_stays U {} w old.2 hw h) h.1 h.2
  | .variant Ts, tags, v, old, s, hv, h => by
    unfold FramedOn at h
    refine .ite (fun huntagged => ?_) fun huntagged => ?_
    · rw [if_pos huntagged] at h
      refine .bind (findAlternatives_stays Ts tags.payload v 0 0 0) fun found _ _ => ?_
      refine .ite (fun _ => .fail) fun _ => .ite (fun _ => .fail) fun _ => ?_
      exact readUnion_stays Ts tags.payload v _ hv h
    · rw [if_neg huntagged] at h
      refine .bind (.of_keeps (context_keeps toArray_keeps)) fun array t harray => ?_
      obtain ⟨rfl, -⟩ := toArray_returns_eq (context_returns.mp harray)
      refine .ite (fun _ => .fail) fun _ => .get_bind ?_
      have hindex : isRaw (arrayElement inp t array 0) = false := isRaw_arrayElement
      refine .bind (.of_keeps (context_keeps (hindex ▸ readArithmetic_keeps)))
        fun index u hread => .get_bind ?_
      refine readAlternative_stays Ts tags.payload _ _ isRaw_arrayElement ?_
      obtain ⟨e, he⟩ | hfirst := @arrayElement_cases inp t array 0
      · rw [he] at hread
        exact absurd (context_returns.mp hread) (readArithmetic_unusable (validate_failed rfl))
      · obtain ⟨e, he⟩ | hsecond := @arrayElement_cases inp u array 1
        · exact he ▸ framedAlternative_error inp e Ts tags.payload _
        · exact h _ _ hfirst hsecond _ _ _ (context_returns.mp hread)
  | .stringMap T, _, v, _, _, _, h =>
    readStringMap_stays (fun w _ hw h => parserRead_stays T {} w (env.default T) hw h) h
  | .entryMap _ K T, _, v, _, _, _, h =>
    readEntryMap_stays (fun w _ hw h => parserRead_stays K {} w (env.default K) hw h)
      (fun w _ hw h => parserRead_stays T {} w (env.default T) hw h) h
  | .object unframed fields, tags, v, old, s, hv, h => by
    refine .ite (fun _ => .ite (fun hraw => ?_) fun _ => .fail) fun hrawFixed => ?_
    · exact absurd (hraw.symm.trans hv) (by decide)
    · obtain ⟨hobject, hfields⟩ := h.resolve_left hrawFixed
      refine .ite (fun hunframed => ?_) fun _ => ?_
      · obtain ⟨hmarked, hnot⟩ := Bool.and_eq_true_iff.mp hunframed
        cases v with
        | node p n =>
          rw [(hobject hmarked).resolve_left Bool.false_ne_true] at hnot
          exact absurd hnot Bool.false_ne_true
        | raw p e => cases hv
        | error e => exact readUnframed_stays fields e _
      · exact .bind (.of_keeps toObject_keeps) fun _ _ _ => readFields_stays fields v _ hfields
  | .record fields, _, v, old, s, _, h => by
    refine .bind (.of_keeps toArray_keeps) fun array _ harray => .ite (fun _ => .fail) fun _ => ?_
    obtain ⟨rfl, -⟩ := toArray_returns_eq harray
    exact readRecord_stays fields array 0 0 _ h

theorem readTuple_stays : ∀ (Ts : Tys) (array : InputValue) (index : ℕ) (olds : Ts.Values)
    {s : State}, FramedTuple inp Ts array index → Stays (readTuple inp env Ts array index olds) s
  | .nil, _, _, _, _, _ => .pure
  | .cons T Ts, array, index, (old, olds), s, ⟨hT, hTs⟩ => by
    have helement : FramedOn inp T {} (arrayElement inp s array index) :=
      on_arrayElement (fun e => framedOn_error inp e T {}) hT
    refine .get_bind (.bind (parserRead_stays T {} _ old isRaw_arrayElement helement).context
      fun _ _ _ => ?_)
    exact .bind (readTuple_stays Ts array _ olds hTs) fun _ _ _ => .pure

theorem findAlternatives_stays : ∀ (Ts : Alternatives) (tags : Tags) (v : InputValue)
    (index matchCount matchIndex : ℕ) {s : State},
    Stays (findAlternatives inp env Ts tags v index matchCount matchIndex) s
  | .one _, _, _, _, _, _, _ => .bind tryAlternative_stays fun _ _ _ => .pure
  | .cons _ Ts, tags, v, _, _, _, _ => .bind tryAlternative_stays fun _ _ _ =>
    .ite (fun _ => findAlternatives_stays Ts tags v _ _ _) fun _ =>
      findAlternatives_stays Ts tags v _ _ _

theorem readUnion_stays : ∀ (Ts : Alternatives) (tags : Tags) (v : InputValue) (index : ℕ)
    {s : State}, isRaw v = false → FramedUnion inp Ts tags v →
    Stays (readAlternative inp env Ts tags v index) s
  | .one T, tags, v, 0, _, hv, h => (parserRead_stays T tags v (env.default T) hv h).context
  | .one _, _, _, _ + 1, _, _, _ => .fail
  | .cons T _, tags, v, 0, _, hv, h =>
    .bind (parserRead_stays T tags v (env.default T) hv h.1).context fun _ _ _ => .pure
  | .cons _ Ts, tags, v, index + 1, _, hv, h =>
    .bind (readUnion_stays Ts tags v index hv h.2) fun _ _ _ => .pure

theorem readAlternative_stays : ∀ (Ts : Alternatives) (tags : Tags) (v : InputValue) (index : ℕ)
    {s : State}, isRaw v = false → FramedAlternative inp Ts tags v index →
    Stays (readAlternative inp env Ts tags v index) s
  | .one T, tags, v, 0, _, hv, h => (parserRead_stays T tags v (env.default T) hv h).context
  | .one _, _, _, _ + 1, _, _, _ => .fail
  | .cons T _, tags, v, 0, _, hv, h =>
    .bind (parserRead_stays T tags v (env.default T) hv h).context fun _ _ _ => .pure
  | .cons _ Ts, tags, v, index + 1, _, hv, h =>
    .bind (readAlternative_stays Ts tags v index hv h) fun _ _ _ => .pure

theorem readFields_stays : ∀ (fields : Fields) (v : InputValue) (olds : fields.Values) {s : State},
    FramedFields inp fields v → Stays (readFields inp env fields v olds) s
  | .nil, _, _, _, _ => .pure
  | .cons name tags T rest, v, (old, olds), s, ⟨hT, hrest⟩ => by
    have htail : ∀ (value : T.Value) (t : State), Stays
        (readFields inp env rest v olds >>= fun values => pure (value, values)) t :=
      fun value t => .bind (readFields_stays rest v olds hrest) fun _ _ _ => .pure
    refine .ite (fun _ => .bind .pure fun _ _ _ => htail _ _) fun hignore => ?_
    have hT := hT (by simpa using hignore)
    refine .ite (fun hflat => ?_) fun hflat => ?_
    · rw [if_pos hflat] at hT
      exact .bind (readFlat_stays T v old hT) fun _ _ _ => htail _ _
    · rw [if_neg hflat] at hT
      refine .bind (readReflectField_stays fun w hw => ?_) fun _ _ _ => htail _ _
      exact handed env (fun h _ => parserRead_stays T tags w old (isRaw_fieldOf hw) h) (hT w hw)

theorem readFlat_stays : ∀ (T : Ty) (v : InputValue) (old : T.Value) {s : State},
    FramedFlat inp T v → Stays (readFlat inp env T v old) s
  | .object _ fields, v, old, _, h =>
    .bind (.of_keeps toObject_keeps) fun _ _ _ => readFields_stays fields v old h
  | .arithmetic _, _, _, _, _ => .pure
  | .string, _, _, _, _ => .pure
  | .enumeration _ _ _, _, _, _, _ => .pure
  | .null _, _, _, _, _ => .pure
  | .optional _, _, _, _, _ => .pure
  | .pointer _ _, _, _, _, _ => .pure
  | .sequence _ _, _, _, _, _ => .pure
  | .array _ _, _, _, _, _ => .pure
  | .tuple _, _, _, _, _ => .pure
  | .pair _ _, _, _, _, _ => .pure
  | .variant _, _, _, _, _ => .pure
  | .stringMap _, _, _, _, _ => .pure
  | .entryMap _ _ _, _, _, _, _ => .pure
  | .record _, _, _, _, _ => .pure

/-- Behind an error the fields of a class without a frame are read from errors. -/
theorem readUnframed_stays : ∀ (fields : Fields) (e : Error) (olds : fields.Values) {s : State},
    Stays (readUnframed inp env fields (.error e) olds) s
  | .nil, _, _, _ => .pure
  | .cons name tags T rest, e, (old, olds), s => by
    have hread : ∀ s, Stays (parserRead inp env T tags (.error e) old) s := fun s =>
      parserRead_stays T tags (.error e) old rfl (framedOn_error inp e T tags)
    refine .ite (fun _ => .bind (readUnframed_stays rest e olds) fun _ _ _ => .pure) fun _ => ?_
    intro values u h
    obtain ⟨outcome, t, houtcome, h₁⟩ := returns_bind.mp h
    obtain ⟨w, t', hnext, h₂⟩ := returns_bind.mp h₁
    obtain ⟨⟨e', rfl⟩, rfl⟩ := next_error hnext
    obtain ⟨value, t'', hvalue, h₃⟩ := returns_bind.mp h₂
    obtain ⟨rfl, rfl⟩ := orThrow_returns.mp hvalue
    obtain ⟨values', u', hrest, h₄⟩ := returns_bind.mp h₃
    obtain ⟨-, rfl⟩ := returns_pure.mp h₄
    rw [readUnframed_stays rest e' olds _ _ hrest]
    exact hread s _ _ (context_returns.mp (result_returns_ok.mp houtcome))

theorem readRecord_stays : ∀ (fields : Fields) (array : InputValue) (index elementIndex : ℕ)
    (olds : fields.Values) {s : State}, FramedRecord inp fields array elementIndex →
    Stays (readRecord inp env fields array index elementIndex olds) s
  | .nil, _, _, _, _, _, _ => .pure
  | .cons name tags T rest, array, index, elementIndex, (old, olds), s, h => by
    unfold FramedRecord at h
    refine .ite (fun hignore => ?_) fun hignore => .get_bind ?_
    · rw [if_pos hignore] at h
      exact .bind (readRecord_stays rest array _ _ olds h) fun _ _ _ => .pure
    · rw [if_neg hignore] at h
      have helement : FramedOn inp T tags (arrayElement inp s array elementIndex) :=
        on_arrayElement (fun e => framedOn_error inp e T tags) h.1
      refine .bind (parserRead_stays T tags _ old isRaw_arrayElement helement).context
        fun _ _ _ => ?_
      exact .bind (readRecord_stays rest array _ _ olds h.2) fun _ _ _ => .pure

end

end

end NekoProto.Parsing
