import NekoProto.Json.Validation

/-!
# The shapes of types

Which JSON values a type describes (`Shape`), in words of the type, and that its generated schema
asks for just these (`validates_iff_shape`), provided that the type is plain (`Plain`): in each
class the keys are distinct and only classes are flattened, and no tag tells an optional how to
write a variant. Otherwise the schema keeps one of the properties under a key, or has properties
for what is written as one member, or is that of the variant written in the other way.
-/

namespace NekoProto.Json

open Binary Parsing

/-! ## Fields that stand for a member -/

/-- A field of a class, or of one that is flattened into it, with a member of its own. -/
structure Leaf where
  name : Bytes
  tags : Tags
  type : Ty

/-- The key of the member. -/
def Leaf.key (leaf : Leaf) : Bytes := leaf.tags.fieldName leaf.name

/-- The schema asks for the member. -/
def Leaf.required (leaf : Leaf) : Bool := !(leaf.type.optionalLike || leaf.tags.skippable)

mutual

/-- The fields with a member of their own. -/
def leaves : Fields → List Leaf
  | .nil => []
  | .cons name tags T rest =>
    (if tags.ignore then []
      else if tags.flat && T.isObject then flatLeaves T
      else [⟨name, tags, T⟩]) ++ leaves rest

/-- Those of a flattened class. -/
def flatLeaves : Ty → List Leaf
  | .object _ fields => leaves fields
  | _ => []

end

/-! ## Shapes -/

/-- The values that an arithmetic type describes. -/
def ArithmeticShape : Arithmetic → JsonValue → Prop
  | .bool, v => ∃ value, v = .bool value
  | .integer true width, v => IntegerShape (-2 ^ (width.bits - 1)) (2 ^ (width.bits - 1) - 1) v
  | .integer false width, v => IntegerShape 0 (2 ^ width.bits - 1 : ℕ) v
  | .float, v => NumberShape (-Ieee754.single.maximum * Ieee754.unitsInSingle)
    (Ieee754.single.maximum * Ieee754.unitsInSingle) v
  | .double, v => ∃ value, v.units = some value

/-- An object that has two members, and the values that it has for them. -/
def PairShape (name other : Bytes) (shape otherShape : JsonValue → Prop) (v : JsonValue) : Prop :=
  ∃ members, v = .object members ∧ (∀ w, (name, w) ∈ members → shape w) ∧
    (∀ w, (other, w) ∈ members → otherShape w) ∧ name ∈ members.map Prod.fst ∧
    other ∈ members.map Prod.fst

mutual

/-- The values that a type describes. -/
def Shape : Ty → Tags → JsonValue → Prop
  | .arithmetic T, _, v => ArithmeticShape T v
  | .string, _, v => ∃ value, v = .string value
  | .enumeration _ _ names, _, v =>
    ∃ value, v = .string value ∧ (names = [] ∨ value ∈ names.map Prod.fst)
  | .null _, _, v => v = .null
  | .optional T, _, v => ¬(Shape T {} v ↔ v = .null)
  | .pointer _ T, _, v => ¬(Shape T {} v ↔ v = .null)
  | .sequence _ T, _, v => ∃ elements, v = .array elements ∧ ∀ w ∈ elements, Shape T {} w
  | .array _ T, _, v => ∃ elements, v = .array elements ∧ ∀ w ∈ elements, Shape T {} w
  | .tuple Ts, _, v => ∃ elements, v = .array elements ∧ TupleShape Ts elements
  | .pair T U, _, v => PairShape firstName secondName (Shape T {}) (Shape U {}) v
  | .variant Ts, tags, v =>
    if tags.unionEncoding = .untagged then OneShape Ts tags.payload v
    else ∃ elements, v = .array elements ∧
      (∀ w, elements[0]? = some w → IntegerShape 0 (Alternatives.length Ts - 1 : ℕ) w) ∧
      ∀ w, elements[1]? = some w → OneShape Ts tags.payload w
  | .stringMap _, _, v => ∃ members, v = .object members
  | .entryMap _ K T, _, v => ∃ elements, v = .array elements ∧ ∀ w ∈ elements,
    PairShape keyName valueName (Shape K {}) (Shape T {}) w
  | .object _ fields, _, v => ∃ members, v = .object members ∧
    (∀ key w, (key, w) ∈ members → ShapeAt fields key w) ∧
    ∀ leaf ∈ leaves fields, leaf.required = true → leaf.key ∈ members.map Prod.fst
  | .record fields, _, v => ∃ elements, v = .array elements ∧ RecordShape fields elements

/-- The elements of a tuple, as far as there are. -/
def TupleShape : Tys → List JsonValue → Prop
  | .cons T Ts, v :: elements => Shape T {} v ∧ TupleShape Ts elements
  | _, _ => True

/-- No alternative of a variant describes the value. -/
def NoShape : Alternatives → Tags → JsonValue → Prop
  | .one T, tags, v => ¬Shape T tags v
  | .cons T Ts, tags, v => ¬Shape T tags v ∧ NoShape Ts tags v

/-- Exactly one alternative does. -/
def OneShape : Alternatives → Tags → JsonValue → Prop
  | .one T, tags, v => Shape T tags v
  | .cons T Ts, tags, v =>
    Shape T tags v ∧ NoShape Ts tags v ∨ ¬Shape T tags v ∧ OneShape Ts tags v

/-- The fields of a class with this key describe the value. -/
def ShapeAt : Fields → Bytes → JsonValue → Prop
  | .nil, _, _ => True
  | .cons name tags T rest, key, v =>
    (if tags.ignore then True
      else if tags.flat && T.isObject then FlatShapeAt T key v
      else tags.fieldName name = key → Shape T tags v) ∧
    ShapeAt rest key v

/-- Those of a flattened class. -/
def FlatShapeAt : Ty → Bytes → JsonValue → Prop
  | .object _ fields, key, v => ShapeAt fields key v
  | _, _, _ => True

/-- The elements of a class without names, as far as there are. -/
def RecordShape : Fields → List JsonValue → Prop
  | .cons _ tags T rest, v :: elements =>
    if tags.ignore then RecordShape rest (v :: elements)
    else Shape T tags v ∧ RecordShape rest elements
  | _, _ => True

end

mutual

/-- **The fields with a key**, as a list. -/
theorem shapeAt_iff (key : Bytes) (v : JsonValue) : ∀ fields : Fields,
    ShapeAt fields key v ↔
      ∀ leaf ∈ leaves fields, leaf.key = key → Shape leaf.type leaf.tags v
  | .nil => ⟨fun _ _ hleaf => absurd hleaf List.not_mem_nil, fun _ => trivial⟩
  | .cons name tags T rest => by
    rw [ShapeAt, leaves, List.forall_mem_append, shapeAt_iff key v rest]
    refine and_congr_left' ?_
    split_ifs
    · simp
    · exact flatShapeAt_iff key v T
    · simp [Leaf.key]

theorem flatShapeAt_iff (key : Bytes) (v : JsonValue) : ∀ T : Ty,
    FlatShapeAt T key v ↔
      ∀ leaf ∈ flatLeaves T, leaf.key = key → Shape leaf.type leaf.tags v := by
  intro T
  cases T with
  | object _ fields => exact shapeAt_iff key v fields
  | _ => exact ⟨fun _ _ hleaf => absurd hleaf List.not_mem_nil, fun _ => trivial⟩

end

/-! ## Plain types -/

/-- The type has the schema of an object. -/
def Ty.describesObject : Ty → Bool
  | .pair _ _ => true
  | .stringMap _ => true
  | .object _ _ => true
  | _ => false

/-- `parser_schema_add_reflect_field` flattens the type. -/
def Ty.flattens : Ty → Bool
  | .optional T => Ty.describesObject T
  | .pointer _ T => Ty.describesObject T
  | T => Ty.describesObject T

/-- The tags of an optional of the type reach a variant. -/
def Ty.reachesVariant : Ty → Bool
  | .optional T => Ty.reachesVariant T
  | .pointer _ T => Ty.reachesVariant T
  | .variant _ => true
  | _ => false

mutual

/-- In each class of the type the keys are distinct, only classes are flattened, and no tag tells
an optional how to write a variant. -/
def Plain : Ty → Tags → Prop
  | .optional T, tags =>
    Plain T {} ∧ (tags.unionEncoding = .untagged → Ty.reachesVariant T = false)
  | .pointer _ T, tags =>
    Plain T {} ∧ (tags.unionEncoding = .untagged → Ty.reachesVariant T = false)
  | .sequence _ T, _ => Plain T {}
  | .array _ T, _ => Plain T {}
  | .tuple Ts, _ => PlainTuple Ts
  | .pair T U, _ => Plain T {} ∧ Plain U {}
  | .variant Ts, tags => PlainAlternatives Ts tags.payload
  | .entryMap _ K T, _ => Plain K {} ∧ Plain T {}
  | .object _ fields, _ => PlainFields fields ∧ ((leaves fields).map Leaf.key).Nodup
  | .record fields, _ => PlainRecord fields
  | _, _ => True

/-- The elements of a tuple. -/
def PlainTuple : Tys → Prop
  | .nil => True
  | .cons T Ts => Plain T {} ∧ PlainTuple Ts

/-- The alternatives of a variant. -/
def PlainAlternatives : Alternatives → Tags → Prop
  | .one T, tags => Plain T tags
  | .cons T Ts, tags => Plain T tags ∧ PlainAlternatives Ts tags

/-- The fields of a class. -/
def PlainFields : Fields → Prop
  | .nil => True
  | .cons _ tags T rest =>
    (tags.ignore = false →
      Plain T tags ∧ (tags.flat = true → Ty.flattens T = true → T.isObject = true)) ∧
    PlainFields rest

/-- The fields of a class without names. -/
def PlainRecord : Fields → Prop
  | .nil => True
  | .cons _ tags T rest => (tags.ignore = false → Plain T tags) ∧ PlainRecord rest

end

/-! ## Properties -/

section

variable {σ : Type}

theorem insertOrAssign_new {entry : Bytes × σ} {properties : List (Bytes × σ)}
    (h : entry.1 ∉ properties.map Prod.fst) :
    insertOrAssign entry properties = properties ++ [entry] := by
  unfold insertOrAssign
  rw [List.filter_eq_self.mpr]
  intro other hother
  exact decide_eq_true fun heq => h (heq ▸ List.mem_map_of_mem hother)

theorem foldl_insertNew : ∀ {entries properties : List (Bytes × σ)},
    (properties.map Prod.fst ++ entries.map Prod.fst).Nodup →
      entries.foldl (fun ps entry => insertNew entry ps) properties = properties ++ entries
  | [], properties, _ => (List.append_nil properties).symm
  | entry :: entries, properties, h => by
    have hnew : ¬(properties.any fun other => other.1 = entry.1) = true := by
      rw [List.any_eq_true]
      rintro ⟨other, hother, heq⟩
      have hmem := List.mem_map_of_mem (f := Prod.fst) hother
      rw [of_decide_eq_true heq] at hmem
      exact List.disjoint_of_nodup_append h hmem List.mem_cons_self
    rw [List.foldl_cons, insertNew, if_neg hnew, foldl_insertNew, List.append_assoc]
    · rfl
    · simpa using h

theorem mem_schemaAddRequired {name other : Bytes} {required : List Bytes} :
    other ∈ schemaAddRequired name required ↔ other ∈ required ∨ other = name := by
  unfold schemaAddRequired
  split_ifs with hany
  · obtain ⟨name', hmem, heq⟩ := List.any_eq_true.mp hany
    obtain rfl := of_decide_eq_true heq
    exact ⟨Or.inl, fun h => h.elim id fun heq => heq ▸ hmem⟩
  · rw [List.mem_append, List.mem_singleton]

theorem mem_foldl_schemaAddRequired {other : Bytes} : ∀ {names required : List Bytes},
    other ∈ names.foldl (fun rs name => schemaAddRequired name rs) required ↔
      other ∈ required ∨ other ∈ names
  | [], required => by simp
  | name :: names, required => by
    rw [List.foldl_cons, mem_foldl_schemaAddRequired, mem_schemaAddRequired, List.mem_cons,
      or_assoc]

end

section

variable {conv : Conversions}

/-- The property of a field. -/
def Leaf.property (conv : Conversions) (leaf : Leaf) : Bytes × Schema :=
  (leaf.key, parserSchema conv leaf.type leaf.tags)

/-- The schema is that of an object. -/
def Schema.isObject : Schema → Bool
  | .object _ _ _ => true
  | _ => false

theorem parserSchema_isObject (T : Ty) (tags : Tags) :
    (parserSchema conv T tags).isObject = Ty.describesObject T := by
  cases T with
  | arithmetic T =>
    cases T with
    | integer signed width => cases signed <;> rfl
    | _ => rfl
  | variant Ts =>
    rw [parserSchema, variantSchema]
    split_ifs <;> rfl
  | _ => rfl

theorem parserSchema_flattens (T : Ty) (tags : Tags) :
    (parserSchema conv T tags).unwrapOptional.isObject = Ty.flattens T := by
  cases T with
  | arithmetic T =>
    cases T with
    | integer signed width => cases signed <;> rfl
    | _ => rfl
  | optional T => exact parserSchema_isObject T {}
  | pointer _ T => exact parserSchema_isObject T {}
  | variant Ts =>
    rw [parserSchema, variantSchema]
    split_ifs <;> rfl
  | _ => rfl

/-- A field that is not flattened is a property. -/
theorem schemaAddReflectField_kept {T : Ty} {name : Bytes} {tags : Tags} {fieldSchema : Schema}
    {object : Properties Schema} (hignore : tags.ignore = false)
    (hflat : tags.flat = true → fieldSchema.unwrapOptional.isObject = false) :
    schemaAddReflectField T name tags fieldSchema object =
      (insertOrAssign (tags.fieldName name, fieldSchema) object.1,
        if T.optionalLike || tags.skippable then object.2
        else schemaAddRequired (tags.fieldName name) object.2) := by
  unfold schemaAddReflectField
  rw [hignore, if_neg Bool.false_ne_true]
  cases htag : tags.flat with
  | false => rfl
  | true =>
    have hobject := hflat htag
    cases hunwrap : fieldSchema.unwrapOptional with
    | object properties required additionalProperties =>
      rw [hunwrap] at hobject
      exact absurd hobject.symm Bool.false_ne_true
    | _ => rfl

/-- What is added to an object with some keys, for fields with other ones. -/
def Adds (conv : Conversions) (added : List Leaf) (object object' : Properties Schema) : Prop :=
  object'.1 = object.1 ++ added.map (Leaf.property conv) ∧
    ∀ name, name ∈ object'.2 ↔
      name ∈ object.2 ∨ ∃ leaf ∈ added, leaf.required = true ∧ leaf.key = name

theorem keys_property (added : List Leaf) :
    (added.map (Leaf.property conv)).map Prod.fst = added.map Leaf.key :=
  List.map_map.trans rfl

theorem Adds.trans {added later : List Leaf} {object object' object'' : Properties Schema}
    (h : Adds conv added object object') (hlater : Adds conv later object' object'') :
    Adds conv (added ++ later) object object'' := by
  obtain ⟨hproperties, hrequired⟩ := h
  obtain ⟨hproperties', hrequired'⟩ := hlater
  constructor
  · rw [hproperties', hproperties, List.append_assoc, List.map_append]
  · intro name
    rw [hrequired', hrequired, or_assoc]
    simp only [List.mem_append, or_and_right, exists_or]

theorem adds_leaf {T : Ty} {name : Bytes} {tags : Tags} {object : Properties Schema}
    (hignore : tags.ignore = false)
    (hflat : tags.flat = true → (parserSchema conv T tags).unwrapOptional.isObject = false)
    (hnew : tags.fieldName name ∉ object.1.map Prod.fst) :
    Adds conv [⟨name, tags, T⟩] object
      (schemaAddReflectField T name tags (parserSchema conv T tags) object) := by
  rw [schemaAddReflectField_kept hignore hflat]
  refine ⟨insertOrAssign_new hnew, fun other => ?_⟩
  cases hrequired : T.optionalLike || tags.skippable with
  | true =>
    simp only [if_true, List.mem_singleton, exists_eq_left, Leaf.required, hrequired,
      Bool.not_true, Bool.false_eq_true, false_and, or_false]
  | false =>
    simp only [Bool.false_eq_true, if_false, mem_schemaAddRequired, List.mem_singleton,
      exists_eq_left, Leaf.required, Leaf.key, hrequired, Bool.not_false, true_and, eq_comm]

theorem adds_flat {T : Ty} {name : Bytes} {tags : Tags} {properties : List (Bytes × Schema)}
    {required : List Bytes} {added : List Leaf} {object : Properties Schema}
    (hignore : tags.ignore = false) (hflat : tags.flat = true)
    (hadded : Adds conv added ([], []) (properties, required))
    (hnew : (object.1.map Prod.fst ++ added.map Leaf.key).Nodup) :
    Adds conv added object
      (schemaAddReflectField T name tags (.object properties required none) object) := by
  obtain ⟨hproperties, hrequired⟩ := hadded
  obtain rfl : properties = added.map (Leaf.property conv) := hproperties
  unfold schemaAddReflectField
  rw [hignore, if_neg Bool.false_ne_true, hflat]
  refine ⟨foldl_insertNew (by rwa [keys_property]), fun other => ?_⟩
  refine mem_foldl_schemaAddRequired.trans (or_congr_right ?_)
  exact (hrequired other).trans (or_iff_right List.not_mem_nil)

mutual

/-- **The schema of a class has its fields**, where their keys are distinct. -/
theorem adds_namedSchema : ∀ {fields : Fields} {object : Properties Schema}, PlainFields fields →
    (object.1.map Prod.fst ++ (leaves fields).map Leaf.key).Nodup →
    Adds conv (leaves fields) object (namedSchema conv fields object)
  | .nil, object, _, _ => by
    refine ⟨(List.append_nil _).symm, fun name => ?_⟩
    simp [leaves, namedSchema]
  | .cons name tags T rest, object, hplain, hnodup => by
    obtain ⟨hfield, hrest⟩ := hplain
    rw [leaves, List.map_append, ← List.append_assoc] at hnodup
    have hadds : Adds conv
        (if tags.ignore then [] else if tags.flat && T.isObject then flatLeaves T
          else [⟨name, tags, T⟩]) object
        (schemaAddReflectField T name tags (parserSchema conv T tags) object) := by
      split_ifs at hnodup ⊢ with hignore hflat
      · unfold schemaAddReflectField
        rw [if_pos hignore]
        exact ⟨(List.append_nil _).symm, by simp⟩
      · obtain ⟨htag, hobject⟩ := Bool.and_eq_true_iff.mp hflat
        obtain ⟨hT, -⟩ := hfield (Bool.eq_false_of_not_eq_true hignore)
        exact adds_flatSchema (Bool.eq_false_of_not_eq_true hignore) htag hobject hT
          hnodup.of_append_left
      · obtain ⟨-, hflattens⟩ := hfield (Bool.eq_false_of_not_eq_true hignore)
        refine adds_leaf (Bool.eq_false_of_not_eq_true hignore) (fun htag => ?_) fun hmem =>
          List.disjoint_of_nodup_append hnodup.of_append_left hmem (List.mem_singleton_self _)
        rw [parserSchema_flattens]
        by_contra hne
        exact hflat (Bool.and_eq_true_iff.mpr
          ⟨htag, hflattens htag (Bool.eq_true_of_not_eq_false hne)⟩)
    rw [leaves, namedSchema]
    refine hadds.trans (adds_namedSchema hrest ?_)
    rwa [hadds.1, List.map_append, keys_property]

theorem adds_flatSchema : ∀ {T : Ty} {name : Bytes} {tags : Tags} {object : Properties Schema},
    tags.ignore = false → tags.flat = true → T.isObject = true → Plain T tags →
    (object.1.map Prod.fst ++ (flatLeaves T).map Leaf.key).Nodup →
    Adds conv (flatLeaves T) object
      (schemaAddReflectField T name tags (parserSchema conv T tags) object) := by
  intro T name tags object hignore hflat hobject hplain hnodup
  cases T with
  | object unframed fields =>
    exact adds_flat hignore hflat (adds_namedSchema hplain.1 hplain.2) hnodup
  | _ => exact absurd hobject Bool.false_ne_true

end

/-! ## Bounds of numbers -/

/-- A single is widened to a double of the same value. -/
def WidensExactly (conv : Conversions) : Prop :=
  ∀ bits : BitVec 32, Ieee754.double.units (conv.widen bits).toNat =
    (Ieee754.single.units bits.toNat).map (· * (Ieee754.unitsInSingle : ℤ))

theorem integer_below_maximum : 2 ^ 64 * one ≤ Ieee754.double.maximum := by
  decide +kernel

/-- **No value has a number beyond the doubles.** -/
theorem units_bounded {v : JsonValue} {value : ℤ} (h : v.units = some value) :
    -(Ieee754.double.maximum : ℤ) ≤ value ∧ value ≤ Ieee754.double.maximum := by
  cases v with
  | double bits => exact Ieee754.double.units_bounded h
  | integer z =>
    obtain rfl := Option.some.inj h
    have hmax : (2 ^ 64 * one : ℤ) ≤ Ieee754.double.maximum := by
      exact_mod_cast integer_below_maximum
    have hone := one_pos.le
    constructor
    · have hlow := mul_le_mul_of_nonneg_right z.2.1 hone
      omega
    · exact (mul_le_mul_of_nonneg_right z.2.2.le hone).trans hmax
  | _ => exact absurd h.symm (Option.some_ne_none value)

theorem numberShape_double {v : JsonValue} :
    NumberShape (-Ieee754.double.maximum) Ieee754.double.maximum v ↔
      ∃ value, v.units = some value :=
  ⟨fun ⟨value, h, _⟩ => ⟨value, h⟩, fun ⟨value, h⟩ => ⟨value, h, units_bounded h⟩⟩

theorem validates_arithmetic (hconv : WidensExactly conv) (T : Arithmetic) (v : JsonValue) :
    (schemaToJson (arithmeticSchema conv T)).validates v = true ↔ ArithmeticShape T v := by
  cases T with
  | bool => exact validates_boolean
  | integer signed width =>
    cases signed with
    | true => exact validates_integer rfl rfl
    | false => exact validates_integer rfl rfl
  | float =>
    refine validates_floatingPoint ?_ ?_
    · exact (hconv 0xFF7FFFFF).trans (by decide +kernel)
    · exact (hconv 0x7F7FFFFF).trans (by decide +kernel)
  | double =>
    refine (validates_floatingPoint ?_ ?_).trans numberShape_double
    · decide +kernel
    · decide +kernel

/-! ## The schemas ask for the shapes -/

/-- A class of two members that are named. -/
theorem validates_pair {name other : Bytes} {s t : Schema} {v : JsonValue} :
    (schemaToJson (.object [(name, s), (other, t)] [name, other] none)).validates v = true ↔
      PairShape name other ((schemaToJson s).validates · = true)
        ((schemaToJson t).validates · = true) v := by
  rw [validates_object]
  refine exists_congr fun members => and_congr_right fun _ => ?_
  simp only [List.forall_mem_cons, List.not_mem_nil, false_imp_iff, implies_true, and_true,
    Prod.forall, and_assoc]
  refine and_congr ?_ (and_congr_left' ?_)
  · exact ⟨fun h w hmem => h name w hmem rfl, fun h key w hmem hkey => h w (hkey ▸ hmem)⟩
  · exact ⟨fun h w hmem => h other w hmem rfl, fun h key w hmem hkey => h w (hkey ▸ hmem)⟩

theorem pairShape_congr {name other : Bytes} {p q p' q' : JsonValue → Prop} {v : JsonValue}
    (hp : ∀ w, p w ↔ p' w) (hq : ∀ w, q w ↔ q' w) :
    PairShape name other p q v ↔ PairShape name other p' q' v := by
  obtain rfl : p = p' := funext fun w => propext (hp w)
  obtain rfl : q = q' := funext fun w => propext (hq w)
  rfl

/-- An array of an index and a value. -/
theorem elementsOk_two {s t : JsonSchema} : ∀ {elements : List JsonValue},
    elementsOk [s, t] elements = true ↔
      (∀ w, elements[0]? = some w → s.validates w = true) ∧
        ∀ w, elements[1]? = some w → t.validates w = true
  | [] => by simp [elementsOk]
  | [v] => by simp [elementsOk]
  | v :: w :: elements => by simp [elementsOk]

mutual

/-- **The generated schema of a plain type** asks for what the type describes. -/
theorem validates_iff_shape (hconv : WidensExactly conv) : ∀ (T : Ty) {tags : Tags},
    Plain T tags → ∀ v, (schemaToJson (parserSchema conv T tags)).validates v = true ↔
      Shape T tags v
  | .arithmetic T, _, _, v => validates_arithmetic hconv T v
  | .string, _, _, v =>
    validates_string.trans (exists_congr fun _ => and_iff_left (Or.inl rfl))
  | .enumeration _ _ names, _, _, v => by
    refine validates_string.trans (exists_congr fun value => and_congr_right fun _ => ?_)
    rw [List.map_eq_nil_iff]
  | .null _, _, _, v => validates_null
  | .optional T, _, h, v =>
    validates_optional.trans (not_congr (iff_congr (validates_iff_shape hconv T h.1 v) Iff.rfl))
  | .pointer _ T, _, h, v =>
    validates_optional.trans (not_congr (iff_congr (validates_iff_shape hconv T h.1 v) Iff.rfl))
  | .sequence _ T, _, h, v =>
    validates_all.trans (exists_congr fun _ => and_congr_right fun _ =>
      forall₂_congr fun w _ => validates_iff_shape hconv T h w)
  | .array _ T, _, h, v =>
    validates_all.trans (exists_congr fun _ => and_congr_right fun _ =>
      forall₂_congr fun w _ => validates_iff_shape hconv T h w)
  | .tuple Ts, _, h, v =>
    validates_each.trans (exists_congr fun elements => and_congr_right fun _ =>
      elementsOk_iff_tupleShape hconv Ts h elements)
  | .pair T U, _, h, v =>
    validates_pair.trans (pairShape_congr (validates_iff_shape hconv T h.1)
      (validates_iff_shape hconv U h.2))
  | .variant Ts, tags, h, v => by
    have halternatives := (countValid_iff_shape hconv Ts h)
    rw [parserSchema, variantSchema, Shape]
    split_ifs
    · exact validates_anyOf.trans (halternatives v).2
    · refine validates_each.trans (exists_congr fun elements => and_congr_right fun _ => ?_)
      refine elementsOk_two.trans (and_congr ?_ ?_)
      · exact forall₂_congr fun w _ => validates_integer rfl rfl
      · exact forall₂_congr fun w _ => validates_anyOf.trans (halternatives w).2
  | .stringMap T, _, _, v => by
    refine validates_object.trans (exists_congr fun members => and_iff_left ?_)
    exact ⟨fun _ h => absurd h List.not_mem_nil, fun _ h => absurd h List.not_mem_nil⟩
  | .entryMap _ K T, _, h, v =>
    validates_all.trans (exists_congr fun _ => and_congr_right fun _ => forall₂_congr fun w _ =>
      validates_pair.trans (pairShape_congr (validates_iff_shape hconv K h.1)
        (validates_iff_shape hconv T h.2)))
  | .object _ fields, _, h, v => by
    obtain ⟨hfields, hnodup⟩ := h
    have hadds : Adds conv (leaves fields) ([], []) (namedSchema conv fields ([], [])) :=
      adds_namedSchema hfields hnodup
    obtain ⟨hproperties, hrequired⟩ := hadds
    have hleaves := leaves_validate hconv fields hfields
    rw [parserSchema, Shape, validates_object, hproperties, List.nil_append]
    refine exists_congr fun members => and_congr_right fun _ => and_congr ?_ ?_
    · rw [List.forall_mem_map]
      constructor
      · intro h key w hmem
        exact (shapeAt_iff key w fields).mpr fun leaf hleaf hkey =>
          (hleaves leaf hleaf w).mp (h leaf hleaf (key, w) hmem hkey.symm)
      · intro h leaf hleaf member hmem hkey
        exact (hleaves leaf hleaf member.2).mpr
          ((shapeAt_iff member.1 member.2 fields).mp (h _ _ hmem) leaf hleaf hkey.symm)
    · constructor
      · intro h leaf hleaf hleafRequired
        exact h leaf.key ((hrequired leaf.key).mpr (Or.inr ⟨leaf, hleaf, hleafRequired, rfl⟩))
      · intro h name hname
        rcases (hrequired name).mp hname with hnil | ⟨leaf, hleaf, hleafRequired, rfl⟩
        · exact absurd hnil List.not_mem_nil
        · exact h leaf hleaf hleafRequired
  | .record fields, _, h, v =>
    validates_each.trans (exists_congr fun elements => and_congr_right fun _ =>
      elementsOk_iff_recordShape hconv fields h elements)

theorem elementsOk_iff_tupleShape (hconv : WidensExactly conv) : ∀ Ts : Tys, PlainTuple Ts →
    ∀ elements, elementsOk (listToJson (tupleSchemas conv Ts)) elements = true ↔
      TupleShape Ts elements
  | .nil, _, elements => by simp [tupleSchemas, listToJson, elementsOk, TupleShape]
  | .cons T Ts, _, [] => by simp [tupleSchemas, listToJson, elementsOk, TupleShape]
  | .cons T Ts, h, v :: elements =>
    (Bool.and_eq_true_iff).trans (and_congr (validates_iff_shape hconv T h.1 v)
      (elementsOk_iff_tupleShape hconv Ts h.2 elements))

theorem countValid_iff_shape (hconv : WidensExactly conv) : ∀ (Ts : Alternatives) {tags : Tags},
    PlainAlternatives Ts tags → ∀ v,
      (countValid (listToJson (alternativeSchemas conv Ts tags)) v = 0 ↔ NoShape Ts tags v) ∧
        (countValid (listToJson (alternativeSchemas conv Ts tags)) v = 1 ↔ OneShape Ts tags v)
  | .one T, tags, h, v => by
    have hT := validates_iff_shape hconv T h v
    rw [alternativeSchemas, NoShape, OneShape, ← hT]
    simp only [listToJson, countValid]
    split_ifs with hvalid
    · simp [hvalid]
    · simp [hvalid]
  | .cons T Ts, tags, h, v => by
    have hT := validates_iff_shape hconv T h.1 v
    obtain ⟨hnone, hone⟩ := countValid_iff_shape hconv Ts h.2 v
    rw [alternativeSchemas, NoShape, OneShape, ← hT, ← hnone, ← hone]
    simp only [listToJson, countValid]
    split_ifs with hvalid
    · simp [hvalid]
    · simp [hvalid]

theorem leaves_validate (hconv : WidensExactly conv) : ∀ fields : Fields, PlainFields fields →
    ∀ leaf ∈ leaves fields, ∀ v,
      (schemaToJson (parserSchema conv leaf.type leaf.tags)).validates v = true ↔
        Shape leaf.type leaf.tags v
  | .nil, _, _, hleaf, _ => absurd hleaf List.not_mem_nil
  | .cons name tags T rest, h, leaf, hleaf, v => by
    obtain ⟨hfield, hrest⟩ := h
    rw [leaves, List.mem_append] at hleaf
    rcases hleaf with hleaf | hleaf
    · split_ifs at hleaf with hignore hflat
      · exact absurd hleaf List.not_mem_nil
      · exact flatLeaves_validate hconv T (hfield (Bool.eq_false_of_not_eq_true hignore)).1 leaf
          hleaf v
      · obtain rfl := List.mem_singleton.mp hleaf
        exact validates_iff_shape hconv T (hfield (Bool.eq_false_of_not_eq_true hignore)).1 v
    · exact leaves_validate hconv rest hrest leaf hleaf v

theorem flatLeaves_validate (hconv : WidensExactly conv) : ∀ (T : Ty) {tags : Tags},
    Plain T tags → ∀ leaf ∈ flatLeaves T, ∀ v,
      (schemaToJson (parserSchema conv leaf.type leaf.tags)).validates v = true ↔
        Shape leaf.type leaf.tags v := by
  intro T tags h leaf hleaf v
  cases T with
  | object _ fields => exact leaves_validate hconv fields h.1 leaf hleaf v
  | _ => exact absurd hleaf List.not_mem_nil

theorem elementsOk_iff_recordShape (hconv : WidensExactly conv) : ∀ fields : Fields,
    PlainRecord fields → ∀ elements,
      elementsOk (listToJson (positionalSchemas conv fields)) elements = true ↔
        RecordShape fields elements
  | .nil, _, elements => by simp [positionalSchemas, listToJson, elementsOk, RecordShape]
  | .cons name tags T rest, _, [] => by
    cases positionalSchemas conv (.cons name tags T rest) <;>
      simp [listToJson, elementsOk, RecordShape]
  | .cons name tags T rest, h, v :: elements => by
    obtain ⟨hfield, hrest⟩ := h
    rw [positionalSchemas, RecordShape]
    split_ifs with hignore
    · exact elementsOk_iff_recordShape hconv rest hrest (v :: elements)
    · exact Bool.and_eq_true_iff.trans
        (and_congr (validates_iff_shape hconv T (hfield (Bool.eq_false_of_not_eq_true hignore)) v)
          (elementsOk_iff_recordShape hconv rest hrest elements))

end

end

end NekoProto.Json
