import NekoProto.Json.Schema

/-!
# Validation

What a JSON schema asks of a value, for the keywords `type`, `properties`, `required`, `enum`,
`items`, `minimum`, `maximum` and `oneOf` of Draft-07. A keyword says nothing of a value of another
kind; a number without a fraction is an integer, however it is written. What the schemas made by
`parser_schema_to_json` ask follows, one result for each kind of schema.
-/

namespace NekoProto.Json

open Binary

/-! ## Numbers -/

/-- One, in the units of a double. -/
@[irreducible] def one : ℕ := 2 ^ 1074

/-- The value of a number, in the units of a double. -/
def JsonValue.units : JsonValue → Option ℤ
  | integer z => some (z.1 * one)
  | double bits => Ieee754.double.units bits.toNat
  | _ => none

/-- The value of a bound. -/
def Number.units : Number → Option ℤ
  | signed z => some (z * one)
  | unsigned n => some (n * one)
  | double bits => Ieee754.double.units bits.toNat

/-- `minimum`. -/
def minimumOk (minimum : Option Number) (v : JsonValue) : Bool :=
  match minimum.bind Number.units, v.units with
  | some bound, some value => bound ≤ value
  | _, _ => true

/-- `maximum`. -/
def maximumOk (maximum : Option Number) (v : JsonValue) : Bool :=
  match maximum.bind Number.units, v.units with
  | some bound, some value => value ≤ bound
  | _, _ => true

/-! ## Keywords -/

/-- `type`. -/
def typeOk : JsonSchemaType → JsonValue → Bool
  | .null, .null => true
  | .boolean, .bool _ => true
  | .integer, v => v.units.any fun value : ℤ => value % one = 0
  | .number, v => v.units.isSome
  | .string, .string _ => true
  | .array, .array _ => true
  | .object, .object _ => true
  | _, _ => false

/-- `enum`, of strings. -/
def enumOk (enumeration : List Bytes) : JsonValue → Bool
  | .string value => enumeration.any fun name => value = name
  | _ => false

/-- `required`. -/
def requiredOk (required : List Bytes) : JsonValue → Bool
  | .object members => required.all fun name => members.any fun member => member.1 = name
  | _ => true

mutual

/-- The value is valid. -/
def JsonSchema.validates : JsonSchema → JsonValue → Bool
  | ⟨type, _, _, oneOf, required, minimum, maximum, properties, items, _, _, _, _, enumeration⟩,
    v =>
    type.all (typeOk · v) && enumeration.all (enumOk · v) && minimumOk minimum v &&
      maximumOk maximum v && required.all (requiredOk · v) && propertiesOk properties v &&
      itemsOk items v && oneOfOk oneOf v

/-- `properties`. -/
def propertiesOk : Option (List (Bytes × JsonSchema)) → JsonValue → Bool
  | some properties, .object members => membersOk properties members
  | _, _ => true

/-- The members of an object that have properties. -/
def membersOk : List (Bytes × JsonSchema) → List (Bytes × JsonValue) → Bool
  | [], _ => true
  | (name, s) :: properties, members =>
    (members.all fun member => member.1 ≠ name || s.validates member.2) &&
      membersOk properties members

/-- `items`. -/
def itemsOk : Items JsonSchema → JsonValue → Bool
  | .all s, .array elements => elements.all s.validates
  | .each items, .array elements => elementsOk items elements
  | _, _ => true

/-- The elements of an array that have a schema of their own. -/
def elementsOk : List JsonSchema → List JsonValue → Bool
  | s :: items, v :: elements => s.validates v && elementsOk items elements
  | _, _ => true

/-- `oneOf`. -/
def oneOfOk : Option (List JsonSchema) → JsonValue → Bool
  | some types, v => countValid types v = 1
  | none, _ => true

/-- How many of the schemas the value is valid for. -/
def countValid : List JsonSchema → JsonValue → ℕ
  | [], _ => 0
  | s :: types, v => (if s.validates v then 1 else 0) + countValid types v

end

/-! ## Keywords that are not there -/

@[simp] theorem minimumOk_none (v : JsonValue) : minimumOk none v = true := rfl

@[simp] theorem maximumOk_none (v : JsonValue) : maximumOk none v = true := rfl

@[simp] theorem propertiesOk_none (v : JsonValue) : propertiesOk none v = true := by
  rw [propertiesOk]
  rintro properties members ⟨⟩

@[simp] theorem itemsOk_absent (v : JsonValue) : itemsOk .absent v = true := by
  cases v <;> rfl

@[simp] theorem oneOfOk_none (v : JsonValue) : oneOfOk none v = true := rfl

/-! ## Schemas of the parsers -/

/-- A number without a fraction, between two bounds. -/
def IntegerShape (minimum maximum : ℤ) (v : JsonValue) : Prop :=
  ∃ value : ℤ, v.units = some (value * one) ∧ minimum ≤ value ∧ value ≤ maximum

/-- A number between two bounds, these in units. -/
def NumberShape (minimum maximum : ℤ) (v : JsonValue) : Prop :=
  ∃ value, v.units = some value ∧ minimum ≤ value ∧ value ≤ maximum

theorem one_pos : (0 : ℤ) < one := by
  unfold one
  generalize 1074 = n
  exact Int.natCast_pos.mpr (Nat.two_pow_pos n)

section

variable {v : JsonValue}

attribute [local simp] schemaToJson JsonSchema.validates typeOk

theorem validates_null : (schemaToJson .null).validates v = true ↔ v = .null := by
  cases v <;> simp

theorem validates_boolean :
    (schemaToJson .boolean).validates v = true ↔ ∃ value, v = .bool value := by
  cases v <;> simp

theorem validates_integer {minimum maximum : Number} {low high : ℤ}
    (hlow : minimum.units = some (low * one)) (hhigh : maximum.units = some (high * one)) :
    (schemaToJson (.integer (some minimum) (some maximum))).validates v = true ↔
      IntegerShape low high v := by
  rw [schemaToJson, JsonSchema.validates]
  unfold minimumOk maximumOk IntegerShape
  rw [Option.bind_some, Option.bind_some, hlow, hhigh]
  have hone := one_pos
  cases hunits : v.units with
  | none => simp [typeOk, hunits]
  | some units =>
    simp only [Option.all_some, typeOk, hunits, Option.any_some, Option.all_none, Bool.and_true,
      propertiesOk_none, itemsOk_absent, oneOfOk_none, Bool.and_eq_true, decide_eq_true_eq]
    constructor
    · rintro ⟨⟨hmod, hmin⟩, hmax⟩
      obtain ⟨value, rfl⟩ := Int.dvd_of_emod_eq_zero hmod
      rw [mul_comm (one : ℤ) value] at hmin hmax ⊢
      exact ⟨value, rfl, le_of_mul_le_mul_right hmin hone, le_of_mul_le_mul_right hmax hone⟩
    · rintro ⟨value, hvalue, hmin, hmax⟩
      obtain rfl := Option.some.inj hvalue
      exact ⟨⟨Int.mul_emod_left _ _, mul_le_mul_of_nonneg_right hmin hone.le⟩,
        mul_le_mul_of_nonneg_right hmax hone.le⟩

theorem validates_floatingPoint {minimum maximum : Number} {low high : ℤ}
    (hlow : minimum.units = some low) (hhigh : maximum.units = some high) :
    (schemaToJson (.floatingPoint (some minimum) (some maximum))).validates v = true ↔
      NumberShape low high v := by
  rw [schemaToJson, JsonSchema.validates]
  unfold minimumOk maximumOk NumberShape
  rw [Option.bind_some, Option.bind_some, hlow, hhigh]
  cases hunits : v.units <;> simp [typeOk, hunits]

theorem validates_string {enumeration : List Bytes} :
    (schemaToJson (.string enumeration)).validates v = true ↔
      ∃ value, v = .string value ∧ (enumeration = [] ∨ value ∈ enumeration) := by
  cases enumeration <;> cases v <;> simp [enumOk]

theorem validates_anyOf {types : List Schema} :
    (schemaToJson (.anyOf types)).validates v = true ↔ countValid (listToJson types) v = 1 := by
  simp [oneOfOk]

theorem validates_optional {type : Schema} :
    (schemaToJson (.optional type)).validates v = true ↔
      ¬((schemaToJson type).validates v = true ↔ v = .null) := by
  have hnull : (schemaToJson .null).validates v = true ↔ v = .null := validates_null
  rw [schemaToJson] at hnull
  rw [schemaToJson, JsonSchema.validates]
  simp only [Option.all_none, Bool.true_and, minimumOk_none, maximumOk_none, propertiesOk_none,
    itemsOk_absent, oneOfOk, countValid, hnull]
  split_ifs <;> simp_all

theorem validates_all {item : Schema} {minItems maxItems : Option ℕ}
    {additionalItems uniqueItems : Option Bool} :
    (schemaToJson (.array (some item) [] minItems maxItems additionalItems uniqueItems)).validates
        v = true ↔
      ∃ elements, v = .array elements ∧ ∀ w ∈ elements, (schemaToJson item).validates w = true := by
  cases v <;> simp [optionToJson, itemsOk]

theorem validates_each {items : List Schema} {minItems maxItems : Option ℕ}
    {additionalItems uniqueItems : Option Bool} :
    (schemaToJson (.array none items minItems maxItems additionalItems uniqueItems)).validates
        v = true ↔
      ∃ elements, v = .array elements ∧ elementsOk (listToJson items) elements = true := by
  cases items <;> cases v <;> simp [optionToJson, itemsOk, listToJson, elementsOk]

theorem membersOk_iff {members : List (Bytes × JsonValue)} :
    ∀ {properties : List (Bytes × Schema)},
      membersOk (propertiesToJson properties) members = true ↔
        ∀ property ∈ properties, ∀ member ∈ members, member.1 = property.1 →
          (schemaToJson property.2).validates member.2 = true
  | [] => by simp [propertiesToJson, membersOk]
  | (name, s) :: properties => by
    rw [propertiesToJson, membersOk, Bool.and_eq_true, membersOk_iff, List.forall_mem_cons,
      List.all_eq_true]
    simp [imp_iff_not_or]

theorem validates_object {properties : List (Bytes × Schema)} {required : List Bytes}
    {additionalProperties : Option Schema} :
    (schemaToJson (.object properties required additionalProperties)).validates v = true ↔
      ∃ members, v = .object members ∧
        (∀ property ∈ properties, ∀ member ∈ members, member.1 = property.1 →
          (schemaToJson property.2).validates member.2 = true) ∧
        ∀ name ∈ required, name ∈ members.map Prod.fst := by
  simp only [← membersOk_iff]
  rw [schemaToJson, JsonSchema.validates]
  cases v with
  | object members =>
    cases properties <;> cases required <;>
      simp [propertiesOk, requiredOk, propertiesToJson, membersOk, and_comm]
  | _ => simp

end

end NekoProto.Json
