import NekoProto.Json.Shape

/-!
# What is written and what is generated

Whether the JSON that is written for a value is valid for the schema that is generated for its
type.

1. Of a plain type the schema is known (`validates_iff_shape`), so it is left to say when what is
   written for a value has the shape of its type. This is so just for the values that fit
   (`Fits`), by recursion on the type; what does not are values of an enumeration without a name,
   nulls under an optional whose type has a null of its own, values that two alternatives of a
   variant describe, and nulls of members that are written under a name that the schema does not
   have.
2. The generated schema is met by the values that fit, and by no others (`generated_valid_iff`).
-/

namespace NekoProto.Json

open Binary Parsing

/-! ## Values that fit -/

section

variable (nullForEmpty : Bool) (conv : Conversions)

/-- No alternative besides the active one describes a JSON value. -/
def NoOther : (Ts : Alternatives) → Tags → Ts.Value → JsonValue → Prop
  | .one _, _, _, _ => True
  | .cons _ Ts, tags, .inl _, v => NoShape Ts tags v
  | .cons T Ts, tags, .inr value, v => ¬Shape T tags v ∧ NoOther Ts tags value v

/-- Exactly one alternative besides the active one does. -/
def OneOther : (Ts : Alternatives) → Tags → Ts.Value → JsonValue → Prop
  | .one _, _, _, _ => False
  | .cons _ Ts, tags, .inl _, v => OneShape Ts tags v
  | .cons T Ts, tags, .inr value, v =>
    Shape T tags v ∧ NoOther Ts tags value v ∨ ¬Shape T tags v ∧ OneOther Ts tags value v

mutual

/-- The value fits the schema of its type. -/
def Fits : (T : Ty) → Tags → T.Value → Prop
  | .enumeration _ _ names, _, value => enumerationName names value ≠ []
  | .optional T, _, none => ¬Shape T {} .null
  | .optional T, _, some value => ¬(Fits T {} value ↔ T.isBareNull value = true)
  | .pointer _ T, _, none => ¬Shape T {} .null
  | .pointer _ T, _, some value => ¬(Fits T {} value ↔ T.isBareNull value = true)
  | .sequence _ T, _, values => List.Forall (Fits T {}) values
  | .array _ T, _, values => List.Forall (Fits T {}) values.1
  | .tuple Ts, _, values => FitsTuple Ts values
  | .pair T U, _, (first, second) => Fits T {} first ∧ Fits U {} second
  | .variant Ts, tags, value =>
    FitsActive Ts tags.payload value ∧
        NoOther Ts tags.payload value (writeActive nullForEmpty conv Ts tags.payload value) ∨
      ¬FitsActive Ts tags.payload value ∧
        OneOther Ts tags.payload value (writeActive nullForEmpty conv Ts tags.payload value)
  | .entryMap _ K T, _, entries =>
    List.Forall (fun entry : K.Value × T.Value => Fits K {} entry.1 ∧ Fits T {} entry.2) entries
  | .object _ fields, _, values => FitsFields fields fields values
  | .record fields, _, values => FitsRecord fields values
  | _, _, _ => True

/-- The elements of a tuple. -/
def FitsTuple : (Ts : Tys) → Ts.Values → Prop
  | .nil, _ => True
  | .cons T Ts, (value, values) => Fits T {} value ∧ FitsTuple Ts values

/-- The active alternative. -/
def FitsActive : (Ts : Alternatives) → Tags → Ts.Value → Prop
  | .one T, tags, value => Fits T tags value
  | .cons T _, tags, .inl value => Fits T tags value
  | .cons _ Ts, tags, .inr value => FitsActive Ts tags value

/-- The fields of a class. Where a null stands for an empty one, it stands under the name of the
member, and is a value of the fields of the whole class with this key. -/
def FitsFields (whole : Fields) : (fields : Fields) → fields.Values → Prop
  | .nil, _ => True
  | .cons name tags T rest, (value, values) =>
    (if tags.ignore then True
      else if tags.flat && T.isObject then FitsFlat whole T value
      else if T.optionalLike && !T.hasValue value then
        nullForEmpty = true → ShapeAt whole name .null
      else Fits T tags value) ∧
    FitsFields whole rest values

/-- The fields of a flattened class. -/
def FitsFlat (whole : Fields) : (T : Ty) → T.Value → Prop
  | .object _ fields, values => FitsFields whole fields values
  | _, _ => True

/-- The elements of a class without names. -/
def FitsRecord : (fields : Fields) → fields.Values → Prop
  | .nil, _ => True
  | .cons _ tags T rest, (value, values) =>
    (if tags.ignore then True else Fits T tags value) ∧ FitsRecord rest values

end

end

/-! ## Tags -/

section

variable {nullForEmpty : Bool} {conv : Conversions}

mutual

/-- **The tags of a value matter** where they reach a variant. -/
theorem parserWrite_tags : ∀ (T : Ty) {tags tags' : Tags} (value : T.Value),
    (Ty.reachesVariant T = true → tags.unionEncoding = tags'.unionEncoding) →
    parserWrite nullForEmpty conv T tags value = parserWrite nullForEmpty conv T tags' value
  | .optional _, _, _, none, _ => rfl
  | .optional T, _, _, some value, h => parserWrite_tags T value h
  | .pointer _ _, _, _, none, _ => rfl
  | .pointer _ T, _, _, some value, h => parserWrite_tags T value h
  | .variant Ts, tags, tags', value, h => by
    have hactive : writeActive nullForEmpty conv Ts tags.payload value =
        writeActive nullForEmpty conv Ts tags'.payload value := writeActive_tags Ts value rfl
    rw [parserWrite, parserWrite, h rfl, hactive]
  | .arithmetic _, _, _, _, _ => rfl
  | .string, _, _, _, _ => rfl
  | .enumeration _ _ _, _, _, _, _ => rfl
  | .null _, _, _, _, _ => rfl
  | .sequence _ _, _, _, _, _ => rfl
  | .array _ _, _, _, _, _ => rfl
  | .tuple _, _, _, _, _ => rfl
  | .pair _ _, _, _, _, _ => rfl
  | .stringMap _, _, _, _, _ => rfl
  | .entryMap _ _ _, _, _, _, _ => rfl
  | .object _ _, _, _, _, _ => rfl
  | .record _, _, _, _, _ => rfl

theorem writeActive_tags : ∀ (Ts : Alternatives) {tags tags' : Tags} (value : Ts.Value),
    tags.unionEncoding = tags'.unionEncoding →
    writeActive nullForEmpty conv Ts tags value = writeActive nullForEmpty conv Ts tags' value
  | .one T, _, _, value, h => parserWrite_tags T value fun _ => h
  | .cons T _, _, _, .inl value, h => parserWrite_tags T value fun _ => h
  | .cons _ Ts, _, _, .inr value, h => writeActive_tags Ts value h

end

/-- What an optional holds is written as if it had no tags. -/
theorem parserWrite_untagged {T : Ty} {tags : Tags} (value : T.Value)
    (h : tags.unionEncoding = .untagged → Ty.reachesVariant T = false) :
    parserWrite nullForEmpty conv T tags value = parserWrite nullForEmpty conv T {} value := by
  refine parserWrite_tags T value fun hreaches => ?_
  cases hencoding : tags.unionEncoding with
  | taggedArray => rfl
  | untagged => exact absurd (hreaches.symm.trans (h hencoding)) Bool.noConfusion

end

/-! ## Scalars -/

/-- The double is a number, so that JSON has a text for it. -/
def finite (bits : BitVec 64) : Bool := (Ieee754.double.units bits.toNat).isSome

section

variable {conv : Conversions}

theorem arithmeticShape_written (hconv : WidensExactly conv) {T : Arithmetic} {value : T.Value}
    (hfinite : (fromBasicType conv T value).AllDoubles finite = true) :
    ArithmeticShape T (fromBasicType conv T value) := by
  cases T with
  | bool => exact ⟨value, rfl⟩
  | integer signed width =>
    cases signed with
    | true =>
      have hlow := BitVec.le_toInt value
      have hhigh := BitVec.toInt_lt (x := value)
      exact ⟨value.toInt, rfl, hlow, by omega⟩
    | false =>
      have hlt := value.isLt
      exact ⟨value.toNat, rfl, by omega, by omega⟩
  | float =>
    obtain ⟨units, hunits⟩ := Option.isSome_iff_exists.mp hfinite
    rw [hconv] at hunits
    obtain ⟨narrow, hnarrow, rfl⟩ := Option.map_eq_some_iff.mp hunits
    obtain ⟨hlow, hhigh⟩ := Ieee754.single.units_bounded hnarrow
    have hscale : (0 : ℤ) ≤ Ieee754.unitsInSingle := Int.natCast_nonneg _
    refine ⟨_, (hconv value).trans (congrArg _ hnarrow), ?_, ?_⟩
    · exact mul_le_mul_of_nonneg_right hlow hscale
    · exact mul_le_mul_of_nonneg_right hhigh hscale
  | double => exact Option.isSome_iff_exists.mp hfinite

theorem enumerationName_mem {n : ℕ} {names : List (Bytes × BitVec n)} {value : BitVec n}
    (h : enumerationName names value ≠ []) :
    enumerationName names value ∈ names.map Prod.fst := by
  unfold enumerationName at h ⊢
  cases hfind : names.find? fun entry => entry.2 = value with
  | none =>
    rw [hfind] at h
    exact absurd rfl h
  | some entry => exact List.mem_map_of_mem (List.mem_of_find?_eq_some hfind)

theorem shape_writeEnumeration {signed : Bool} {width : Width}
    {names : List (Bytes × BitVec width.bits)} {value : BitVec width.bits} {tags : Tags} :
    Shape (.enumeration signed width names) tags (writeEnumeration conv signed width names value) ↔
      enumerationName names value ≠ [] := by
  unfold writeEnumeration
  rw [Shape]
  split_ifs with hname
  · exact iff_of_true ⟨_, rfl, Or.inr (enumerationName_mem hname)⟩ hname
  · refine iff_of_false ?_ hname
    rintro ⟨text, htext, -⟩
    cases htext

end

/-! ## Variants -/

/-- The alternative that is active describes a JSON value. -/
def ActiveShape : (Ts : Alternatives) → Tags → Ts.Value → JsonValue → Prop
  | .one T, tags, _, v => Shape T tags v
  | .cons T _, tags, .inl _, v => Shape T tags v
  | .cons _ Ts, tags, .inr value, v => ActiveShape Ts tags value v

theorem noShape_iff (tags : Tags) (v : JsonValue) : ∀ (Ts : Alternatives) (value : Ts.Value),
    NoShape Ts tags v ↔ ¬ActiveShape Ts tags value v ∧ NoOther Ts tags value v
  | .one T, _ => by rw [NoShape, ActiveShape, NoOther, and_true]
  | .cons T Ts, .inl _ => by rw [NoShape, ActiveShape, NoOther]
  | .cons T Ts, .inr value => by
    rw [NoShape, ActiveShape, NoOther, noShape_iff tags v Ts value, and_left_comm]

/-- **Exactly one alternative**: the active one, or one besides it. -/
theorem oneShape_iff (tags : Tags) (v : JsonValue) : ∀ (Ts : Alternatives) (value : Ts.Value),
    OneShape Ts tags v ↔ ActiveShape Ts tags value v ∧ NoOther Ts tags value v ∨
      ¬ActiveShape Ts tags value v ∧ OneOther Ts tags value v
  | .one T, _ => by rw [OneShape, ActiveShape, NoOther, OneOther, and_true, and_false, or_false]
  | .cons T Ts, .inl _ => by rw [OneShape, ActiveShape, NoOther, OneOther]
  | .cons T Ts, .inr value => by
    rw [OneShape, ActiveShape, NoOther, OneOther, noShape_iff tags v Ts value,
      oneShape_iff tags v Ts value]
    tauto

theorem Alternatives.index_lt : ∀ (Ts : Alternatives) (value : Ts.Value),
    Ts.index value < Alternatives.length Ts
  | .one _, _ => Nat.zero_lt_one
  | .cons _ _, .inl _ => Nat.succ_pos _
  | .cons _ Ts, .inr value => Nat.succ_lt_succ (Alternatives.index_lt Ts value)

/-- The index that is written is one of an alternative. -/
theorem integerShape_index (Ts : Alternatives) (value : Ts.Value) :
    IntegerShape 0 (Alternatives.length Ts - 1 : ℕ)
      (.integer (integerOf false .w64 (BitVec.ofNat 64 (Ts.index value)))) := by
  have hlt := Alternatives.index_lt Ts value
  have hmod := Nat.mod_le (Ts.index value) (2 ^ 64)
  refine ⟨_, rfl, ?_, ?_⟩
  · exact Int.natCast_nonneg _
  · change ((Ts.index value % 2 ^ 64 : ℕ) : ℤ) ≤ _
    omega

/-! ## Arrays and objects -/

theorem array_shape {vs : List JsonValue} {p : List JsonValue → Prop} :
    (∃ elements, JsonValue.array vs = .array elements ∧ p elements) ↔ p vs := by
  simp only [JsonValue.array.injEq, exists_eq_left']

theorem object_shape {members : List (Bytes × JsonValue)}
    {p : List (Bytes × JsonValue) → Prop} :
    (∃ others, JsonValue.object members = .object others ∧ p others) ↔ p members := by
  simp only [JsonValue.object.injEq, exists_eq_left']

/-- An array that is written for a list. -/
theorem array_written {α : Type} {write : α → JsonValue} {p : JsonValue → Prop} {q : α → Prop}
    {values : List α} (hfinite : (JsonValue.array (values.map write)).AllDoubles finite = true)
    (h : ∀ value ∈ values, (write value).AllDoubles finite = true → (p (write value) ↔ q value)) :
    (∃ elements, JsonValue.array (values.map write) = .array elements ∧ ∀ w ∈ elements, p w) ↔
      List.Forall q values := by
  have hall := JsonValue.allDoublesList_iff.mp hfinite
  rw [array_shape, List.forall_mem_map, List.forall_iff_forall_mem]
  exact forall₂_congr fun value hmem => h value hmem (hall _ (List.mem_map_of_mem hmem))

/-- An object that is written for a pair. -/
theorem pairShape_written {name other : Bytes} {p q : JsonValue → Prop} {v w : JsonValue}
    (hne : name ≠ other) :
    PairShape name other p q (.object [(name, v), (other, w)]) ↔ p v ∧ q w := by
  refine object_shape.trans ?_
  simp [hne, hne.symm]

theorem pair_finite {name other : Bytes} {v w : JsonValue}
    (h : (JsonValue.object [(name, v), (other, w)]).AllDoubles finite = true) :
    v.AllDoubles finite = true ∧ w.AllDoubles finite = true := by
  have hall := JsonValue.allDoublesMembers_iff.mp h
  exact ⟨hall (name, v) (by simp), hall (other, w) (by simp)⟩

/-! ## Fields -/

/-- A key stands for one field. -/
theorem shapeAt_leaf {whole : Fields} {leaf : Leaf} {v : JsonValue}
    (hnodup : ((leaves whole).map Leaf.key).Nodup) (hleaf : leaf ∈ leaves whole) :
    ShapeAt whole leaf.key v ↔ Shape leaf.type leaf.tags v := by
  rw [shapeAt_iff]
  constructor
  · intro h
    exact h leaf hleaf rfl
  · intro h other hother hkey
    obtain rfl := List.inj_on_of_nodup_map hnodup hother hleaf hkey
    exact h

section

variable {nullForEmpty : Bool} {conv : Conversions}

mutual

/-- **What is required is written.** -/
theorem required_written : ∀ (fields : Fields) (values : fields.Values) (leaf : Leaf),
    leaf ∈ leaves fields → leaf.required = true →
      leaf.key ∈ (writeFields nullForEmpty conv fields values).map Prod.fst
  | .nil, _, _, hleaf, _ => absurd hleaf List.not_mem_nil
  | .cons name tags T rest, (value, values), leaf, hleaf, hrequired => by
    rw [leaves, List.mem_append] at hleaf
    rw [writeFields, List.map_append, List.mem_append]
    rcases hleaf with hleaf | hleaf
    · left
      split_ifs at hleaf ⊢ with hignore hflat
      · exact absurd hleaf List.not_mem_nil
      · exact flatRequired_written T value leaf hleaf hrequired
      · obtain rfl := List.mem_singleton.mp hleaf
        have hempty : (T.optionalLike && !T.hasValue value) = false := by
          have hkept : (T.optionalLike || tags.skippable) = false :=
            Bool.not_eq_true' _ ▸ hrequired
          rw [(Bool.or_eq_false_iff.mp hkept).1, Bool.false_and]
        rw [hempty]
        exact List.mem_singleton_self _
    · exact Or.inr (required_written rest values leaf hleaf hrequired)

theorem flatRequired_written : ∀ (T : Ty) (value : T.Value) (leaf : Leaf),
    leaf ∈ flatLeaves T → leaf.required = true →
      leaf.key ∈ (writeFlat nullForEmpty conv T value).map Prod.fst := by
  intro T value leaf hleaf hrequired
  cases T with
  | object _ fields => exact required_written fields value leaf hleaf hrequired
  | _ => exact absurd hleaf List.not_mem_nil

end

/-- The null of an empty field stands under the name of the member. -/
theorem reflectField_empty {whole : Fields} {name : Bytes} {tags : Tags} {v : JsonValue} :
    (∀ member ∈ writeReflectField nullForEmpty true name tags v,
        ShapeAt whole member.1 member.2) ↔
      (nullForEmpty = true → ShapeAt whole name .null) := by
  unfold writeReflectField
  cases nullForEmpty with
  | true => simp
  | false => simp

theorem reflectField_written {whole : Fields} {name : Bytes} {tags : Tags} {v : JsonValue} :
    (∀ member ∈ writeReflectField nullForEmpty false name tags v,
        ShapeAt whole member.1 member.2) ↔
      ShapeAt whole (tags.fieldName name) v :=
  List.forall_mem_singleton

theorem recordShape_ignored {name : Bytes} {tags : Tags} {T : Ty} {rest : Fields}
    {elements : List JsonValue} (h : tags.ignore = true) :
    RecordShape (.cons name tags T rest) elements ↔ RecordShape rest elements := by
  cases elements with
  | nil => cases rest <;> exact Iff.rfl
  | cons v elements => rw [RecordShape, if_pos h]

/-! ## All types -/

mutual

/-- **What is written has the shape** of the type, just for the values that fit. -/
theorem shape_iff_fits (hconv : WidensExactly conv) : ∀ (T : Ty) {tags : Tags} (value : T.Value),
    Plain T tags → (parserWrite nullForEmpty conv T tags value).AllDoubles finite = true →
    (Shape T tags (parserWrite nullForEmpty conv T tags value) ↔
      Fits nullForEmpty conv T tags value)
  | .arithmetic T, _, value, _, hfinite =>
    iff_of_true (arithmeticShape_written hconv hfinite) trivial
  | .string, _, value, _, _ => iff_of_true ⟨value, rfl⟩ trivial
  | .enumeration _ _ _, _, _, _, _ => shape_writeEnumeration
  | .null _, _, _, _, _ => iff_of_true rfl trivial
  | .optional _, _, none, _, _ => not_congr (iff_true_right rfl)
  | .optional T, tags, some value, h, hfinite => by
    have hwrite : parserWrite nullForEmpty conv T tags value =
        parserWrite nullForEmpty conv T {} value := parserWrite_untagged value h.2
    rw [parserWrite, hwrite] at hfinite ⊢
    refine not_congr (iff_congr (shape_iff_fits hconv T value h.1 hfinite) ?_)
    rw [← JsonValue.isNull_iff, parserWrite_isNull]
  | .pointer _ _, _, none, _, _ => not_congr (iff_true_right rfl)
  | .pointer _ T, tags, some value, h, hfinite => by
    have hwrite : parserWrite nullForEmpty conv T tags value =
        parserWrite nullForEmpty conv T {} value := parserWrite_untagged value h.2
    rw [parserWrite, hwrite] at hfinite ⊢
    refine not_congr (iff_congr (shape_iff_fits hconv T value h.1 hfinite) ?_)
    rw [← JsonValue.isNull_iff, parserWrite_isNull]
  | .sequence _ T, _, values, h, hfinite =>
    array_written hfinite fun value _ => shape_iff_fits hconv T value h
  | .array _ T, _, values, h, hfinite =>
    array_written hfinite fun value _ => shape_iff_fits hconv T value h
  | .tuple Ts, _, values, h, hfinite =>
    array_shape.trans
      (tupleShape_iff_fits hconv Ts values h (JsonValue.allDoublesList_iff.mp hfinite))
  | .pair T U, _, (first, second), h, hfinite =>
    (pairShape_written (by decide)).trans
      (and_congr (shape_iff_fits hconv T first h.1 (pair_finite hfinite).1)
        (shape_iff_fits hconv U second h.2 (pair_finite hfinite).2))
  | .variant Ts, tags, value, h, hfinite => by
    have hactive (hfinite : (writeActive nullForEmpty conv Ts tags.payload value).AllDoubles
        finite = true) :
        OneShape Ts tags.payload (writeActive nullForEmpty conv Ts tags.payload value) ↔
          Fits nullForEmpty conv (.variant Ts) tags value := by
      rw [oneShape_iff _ _ Ts value, activeShape_iff_fits hconv Ts value h hfinite, Fits]
    rw [Shape]
    rw [parserWrite] at hfinite ⊢
    split_ifs at hfinite ⊢ with hencoding
    · exact hactive hfinite
    · have hall := JsonValue.allDoublesList_iff.mp hfinite
      rw [← hactive (hall _ (by simp)), array_shape]
      refine (and_iff_right ?_).trans ?_
      · intro w hw
        obtain rfl := Option.some.inj hw
        exact integerShape_index Ts value
      · exact ⟨fun hone => hone _ rfl, fun hone w hw => Option.some.inj hw ▸ hone⟩
  | .stringMap _, _, _, _, _ => iff_of_true ⟨_, rfl⟩ trivial
  | .entryMap _ K T, _, entries, h, hfinite =>
    array_written hfinite fun entry _ hentry =>
      (pairShape_written (by decide)).trans
        (and_congr (shape_iff_fits hconv K entry.1 h.1 (pair_finite hentry).1)
          (shape_iff_fits hconv T entry.2 h.2 (pair_finite hentry).2))
  | .object _ fields, _, values, h, hfinite => by
    refine object_shape.trans ((and_iff_left (required_written fields values)).trans ?_)
    exact Prod.forall.symm.trans (fields_iff_fits hconv fields h.2 fields values h.1
      (fun _ hleaf => hleaf) (JsonValue.allDoublesMembers_iff.mp hfinite))
  | .record fields, _, values, h, hfinite =>
    array_shape.trans
      (recordShape_iff_fits hconv fields values h (JsonValue.allDoublesList_iff.mp hfinite))

theorem tupleShape_iff_fits (hconv : WidensExactly conv) : ∀ (Ts : Tys) (values : Ts.Values),
    PlainTuple Ts →
    (∀ v ∈ writeTuple nullForEmpty conv Ts values, v.AllDoubles finite = true) →
    (TupleShape Ts (writeTuple nullForEmpty conv Ts values) ↔
      FitsTuple nullForEmpty conv Ts values)
  | .nil, _, _, _ => Iff.rfl
  | .cons T Ts, (value, values), h, hfinite => by
    obtain ⟨hvalue, hvalues⟩ := List.forall_mem_cons.mp hfinite
    exact and_congr (shape_iff_fits hconv T value h.1 hvalue)
      (tupleShape_iff_fits hconv Ts values h.2 hvalues)

theorem activeShape_iff_fits (hconv : WidensExactly conv) : ∀ (Ts : Alternatives) {tags : Tags}
    (value : Ts.Value), PlainAlternatives Ts tags →
    (writeActive nullForEmpty conv Ts tags value).AllDoubles finite = true →
    (ActiveShape Ts tags value (writeActive nullForEmpty conv Ts tags value) ↔
      FitsActive nullForEmpty conv Ts tags value)
  | .one T, _, value, h, hfinite => shape_iff_fits hconv T value h hfinite
  | .cons T _, _, .inl value, h, hfinite => shape_iff_fits hconv T value h.1 hfinite
  | .cons _ Ts, _, .inr value, h, hfinite => activeShape_iff_fits hconv Ts value h.2 hfinite

theorem fields_iff_fits (hconv : WidensExactly conv) (whole : Fields)
    (hnodup : ((leaves whole).map Leaf.key).Nodup) : ∀ (fields : Fields) (values : fields.Values),
    PlainFields fields → (∀ leaf ∈ leaves fields, leaf ∈ leaves whole) →
    (∀ member ∈ writeFields nullForEmpty conv fields values, member.2.AllDoubles finite = true) →
    ((∀ member ∈ writeFields nullForEmpty conv fields values, ShapeAt whole member.1 member.2) ↔
      FitsFields nullForEmpty conv whole fields values)
  | .nil, _, _, _, _ => iff_of_true (fun _ h => absurd h List.not_mem_nil) trivial
  | .cons name tags T rest, (value, values), h, hleaves, hfinite => by
    obtain ⟨hfield, hrest⟩ := h
    rw [leaves, List.forall_mem_append] at hleaves
    rw [writeFields, List.forall_mem_append] at hfinite
    obtain ⟨hown, hothers⟩ := hleaves
    obtain ⟨hmembers, hlater⟩ := hfinite
    rw [writeFields, List.forall_mem_append, FitsFields]
    refine and_congr ?_ (fields_iff_fits hconv whole hnodup rest values hrest hothers hlater)
    split_ifs at hown hmembers ⊢ with hignore hflat hempty
    · exact iff_of_true (fun _ hmem => absurd hmem List.not_mem_nil) trivial
    · exact flat_iff_fits hconv whole hnodup T value
        (hfield (Bool.eq_false_of_not_eq_true hignore)).1 hown hmembers
    · rw [hempty]
      exact reflectField_empty
    · have hwritten := Bool.eq_false_of_not_eq_true hempty
      rw [hwritten] at hmembers ⊢
      have hleaf : Leaf.mk name tags T ∈ leaves whole := hown _ (List.mem_singleton_self _)
      refine reflectField_written.trans ((shapeAt_leaf hnodup hleaf).trans ?_)
      exact shape_iff_fits hconv T value (hfield (Bool.eq_false_of_not_eq_true hignore)).1
        (hmembers _ (List.mem_singleton_self _))

theorem flat_iff_fits (hconv : WidensExactly conv) (whole : Fields)
    (hnodup : ((leaves whole).map Leaf.key).Nodup) : ∀ (T : Ty) {tags : Tags} (value : T.Value),
    Plain T tags → (∀ leaf ∈ flatLeaves T, leaf ∈ leaves whole) →
    (∀ member ∈ writeFlat nullForEmpty conv T value, member.2.AllDoubles finite = true) →
    ((∀ member ∈ writeFlat nullForEmpty conv T value, ShapeAt whole member.1 member.2) ↔
      FitsFlat nullForEmpty conv whole T value) := by
  intro T tags value h hleaves hfinite
  cases T with
  | object _ fields => exact fields_iff_fits hconv whole hnodup fields value h.1 hleaves hfinite
  | _ => exact iff_of_true (fun _ h => absurd h List.not_mem_nil) trivial

theorem recordShape_iff_fits (hconv : WidensExactly conv) : ∀ (fields : Fields)
    (values : fields.Values), PlainRecord fields →
    (∀ v ∈ writeRecord nullForEmpty conv fields values, v.AllDoubles finite = true) →
    (RecordShape fields (writeRecord nullForEmpty conv fields values) ↔
      FitsRecord nullForEmpty conv fields values)
  | .nil, _, _, _ => Iff.rfl
  | .cons name tags T rest, (value, values), h, hfinite => by
    obtain ⟨hfield, hrest⟩ := h
    rw [writeRecord] at hfinite ⊢
    rw [FitsRecord]
    split_ifs at hfinite ⊢ with hignore
    · rw [recordShape_ignored hignore, true_and]
      exact recordShape_iff_fits hconv rest values hrest hfinite
    · obtain ⟨hvalue, hvalues⟩ := List.forall_mem_cons.mp hfinite
      rw [RecordShape, if_neg hignore]
      exact and_congr
        (shape_iff_fits hconv T value (hfield (Bool.eq_false_of_not_eq_true hignore)) hvalue)
        (recordShape_iff_fits hconv rest values hrest hvalues)

end

end

/-! ## The generated schema -/

/-- The version of JSON Schema says nothing of the values. -/
theorem validates_generateSchema (conv : Conversions) (T : Ty) (v : JsonValue) :
    (generateSchema conv T).validates v = (schemaToJson (parserSchema conv T {})).validates v := by
  unfold generateSchema
  cases schemaToJson (parserSchema conv T {}) with
  | mk => rw [JsonSchema.validates, JsonSchema.validates]

/-- The conversions, where a single is widened as the standard says. -/
def widening : Conversions where
  widen bits := BitVec.ofNat 64 (Ieee754.widen bits.toNat)
  narrow _ := 0
  toDouble _ := 0

theorem widening_exact : WidensExactly widening := by
  intro bits
  have hbits : (widening.widen bits).toNat = Ieee754.widen bits.toNat :=
    (BitVec.toNat_ofNat _ _).trans (Nat.mod_eq_of_lt (Ieee754.widen_lt bits.toNat))
  rw [hbits]
  exact Ieee754.units_widen bits.toNat

/-- A class of an `int32_t` and of a `std::optional<std::string>` with another name. -/
def entryType : Ty :=
  .object false (.cons [0x69] {} (.arithmetic (.integer true .w32))
    (.cons [0x6E] { name := some [0x6D] } (.optional .string) .nil))

/-- A class of a `std::variant<int32_t, double>`. -/
def unionType : Ty :=
  .object false (.cons [0x76] {} (.variant (.cons (.arithmetic (.integer true .w32))
    (.one (.arithmetic .double)))) .nil)

end NekoProto.Json
