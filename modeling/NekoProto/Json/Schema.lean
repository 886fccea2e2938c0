import NekoProto.Json.Write
import NekoProto.Lib.Ieee754

/-!
# Generated schemas

`parser_schema` over the types with a parser (`parsing/schema/type.hpp` and the `SchemaParser`s),
and `generate_schema`, which makes a Draft-07 schema of it (`json/schema.hpp`).

A `std::map` is the list of its entries. Of `JsonSchema` only the members that are set are kept,
and of `schema::Type` those that are read.
-/

namespace NekoProto.Json

open Binary Parsing

/-! ## Schemas of the parsers -/

/-- `schema::Type::Number`. -/
inductive Number
  | signed (value : ℤ)
  | unsigned (value : ℕ)
  | double (bits : BitVec 64)

/-- `schema::Type`. -/
inductive Schema
  | null
  | boolean
  | integer (minimum maximum : Option Number)
  | floatingPoint (minimum maximum : Option Number)
  | string (enumeration : List Bytes)
  | array (items : Option Schema) (prefixItems : List Schema) (minItems maxItems : Option ℕ)
    (additionalItems uniqueItems : Option Bool)
  | object (properties : List (Bytes × Schema)) (required : List Bytes)
    (additionalProperties : Option Schema)
  | anyOf (types : List Schema)
  | optional (type : Schema)

/-- `unwrapOptional`. -/
def Schema.unwrapOptional : Schema → Schema
  | .optional type => type
  | type => type

/-- The properties and the required names of an object. -/
abbrev Properties (σ : Type) := List (Bytes × σ) × List Bytes

section

variable {σ : Type}

/-- `std::map::insert` of one entry. -/
def insertNew (entry : Bytes × σ) (properties : List (Bytes × σ)) : List (Bytes × σ) :=
  if properties.any fun other => other.1 = entry.1 then properties else properties ++ [entry]

/-- `std::map::insert_or_assign`. -/
def insertOrAssign (entry : Bytes × σ) (properties : List (Bytes × σ)) : List (Bytes × σ) :=
  properties.filter (fun other => other.1 ≠ entry.1) ++ [entry]

/-- `parser_schema_add_required`. -/
def schemaAddRequired (name : Bytes) (required : List Bytes) : List Bytes :=
  if required.any fun other => other = name then required else required ++ [name]

end

/-- `parser_schema_add_reflect_field`, with the schema of the field. -/
def schemaAddReflectField (T : Ty) (name : Bytes) (tags : Tags) (fieldSchema : Schema)
    (object : Properties Schema) : Properties Schema :=
  if tags.ignore then object
  else
    match tags.flat, fieldSchema.unwrapOptional with
    | true, .object properties required _ =>
      (properties.foldl (fun ps entry => insertNew entry ps) object.1,
        required.foldl (fun rs name => schemaAddRequired name rs) object.2)
    | _, _ =>
      (insertOrAssign (tags.fieldName name, fieldSchema) object.1,
        if T.optionalLike || tags.skippable then object.2
        else schemaAddRequired (tags.fieldName name) object.2)

section

variable (conv : Conversions)

/-- `parser_arithmetic_schema`. -/
def arithmeticSchema : Arithmetic → Schema
  | .bool => .boolean
  | .float =>
    .floatingPoint (some (.double (conv.widen 0xFF7FFFFF))) (some (.double (conv.widen 0x7F7FFFFF)))
  | .double =>
    .floatingPoint (some (.double 0xFFEFFFFFFFFFFFFF)) (some (.double 0x7FEFFFFFFFFFFFFF))
  | .integer true width =>
    .integer (some (.signed (-2 ^ (width.bits - 1)))) (some (.signed (2 ^ (width.bits - 1) - 1)))
  | .integer false width => .integer (some (.unsigned 0)) (some (.unsigned (2 ^ width.bits - 1)))

/-- `parser_sequence_schema`, and of a `std::array` with its size. -/
def sequenceSchema (uniqueItems : Bool) (size : Option ℕ) (item : Schema) : Schema :=
  .array (some item) [] size size none (if uniqueItems then some true else none)

/-- An array with a schema for each of its elements. -/
def tupleSchema (size : ℕ) (items : List Schema) : Schema :=
  .array none items (some size) (some size) (some false) none

/-- The number of alternatives. -/
def Alternatives.length : Alternatives → ℕ
  | .one _ => 1
  | .cons _ Ts => Alternatives.length Ts + 1

/-- The schema of a variant, from those of its alternatives. -/
def variantSchema (size : ℕ) (tags : Tags) (alternatives : List Schema) : Schema :=
  if tags.unionEncoding = .untagged then .anyOf alternatives
  else
    tupleSchema 2
      [.integer (some (.unsigned 0)) (some (.unsigned (size - 1))), .anyOf alternatives]

mutual

/-- `parser_schema`. That of an optional or a pointer does not depend on its tags. -/
def parserSchema : Ty → Tags → Schema
  | .arithmetic T, _ => arithmeticSchema conv T
  | .string, _ => .string []
  | .enumeration _ _ names, _ => .string (names.map Prod.fst)
  | .null _, _ => .null
  | .optional T, _ => .optional (parserSchema T {})
  | .pointer _ T, _ => .optional (parserSchema T {})
  | .sequence unique T, _ => sequenceSchema unique none (parserSchema T {})
  | .array size T, _ => sequenceSchema false (some size) (parserSchema T {})
  | .tuple Ts, _ => tupleSchema Ts.length (tupleSchemas Ts)
  | .pair T U, _ =>
    .object [(firstName, parserSchema T {}), (secondName, parserSchema U {})]
      [firstName, secondName] none
  | .variant Ts, tags =>
    variantSchema (Alternatives.length Ts) tags (alternativeSchemas Ts tags.payload)
  | .stringMap T, _ => .object [] [] (some (parserSchema T {}))
  | .entryMap _ K T, _ =>
    sequenceSchema false none
      (.object [(keyName, parserSchema K {}), (valueName, parserSchema T {})] [keyName, valueName]
        none)
  | .object _ fields, _ =>
    .object (namedSchema fields ([], [])).1 (namedSchema fields ([], [])).2 none
  | .record fields, _ => tupleSchema fields.count (positionalSchemas fields)

/-- The schemas of the elements of a tuple. -/
def tupleSchemas : Tys → List Schema
  | .nil => []
  | .cons T Ts => parserSchema T {} :: tupleSchemas Ts

/-- The schemas of the alternatives of a variant. -/
def alternativeSchemas : Alternatives → Tags → List Schema
  | .one T, tags => [parserSchema T tags]
  | .cons T Ts, tags => parserSchema T tags :: alternativeSchemas Ts tags

/-- `parser_schema_named_reflection`, from one field on. -/
def namedSchema : Fields → Properties Schema → Properties Schema
  | .nil, object => object
  | .cons name tags T rest, object =>
    namedSchema rest (schemaAddReflectField T name tags (parserSchema T tags) object)

/-- `parser_schema_positional_reflection`. -/
def positionalSchemas : Fields → List Schema
  | .nil => []
  | .cons _ tags T rest =>
    if tags.ignore then positionalSchemas rest
    else parserSchema T tags :: positionalSchemas rest

end

end

/-! ## JSON schemas -/

/-- `JsonSchemaType`. -/
inductive JsonSchemaType
  | null | boolean | integer | number | string | array | object
  deriving DecidableEq, Repr

/-- `JsonSchema::items`: nothing, a schema of all elements, or one of each. -/
inductive Items (σ : Type)
  | absent
  | all (item : σ)
  | each (items : List σ)

/-- `JsonSchema`. -/
structure JsonSchema where
  type : Option JsonSchemaType := none
  schema : Option String := none
  additionalProperties : Option JsonSchema := none
  oneOf : Option (List JsonSchema) := none
  required : Option (List Bytes) := none
  minimum : Option Number := none
  maximum : Option Number := none
  properties : Option (List (Bytes × JsonSchema)) := none
  items : Items JsonSchema := .absent
  additionalItems : Option Bool := none
  minItems : Option ℕ := none
  maxItems : Option ℕ := none
  uniqueItems : Option Bool := none
  enumeration : Option (List Bytes) := none

mutual

/-- `parser_schema_to_json`. -/
def schemaToJson : Schema → JsonSchema
  | .null => { type := some .null }
  | .boolean => { type := some .boolean }
  | .integer minimum maximum =>
    { type := some .integer, minimum := minimum, maximum := maximum }
  | .floatingPoint minimum maximum =>
    { type := some .number, minimum := minimum, maximum := maximum }
  | .string enumeration =>
    { type := some .string
      enumeration := if enumeration.isEmpty then none else some enumeration }
  | .array items prefixItems minItems maxItems additionalItems uniqueItems =>
    { type := some .array
      minItems := minItems
      maxItems := maxItems
      additionalItems := additionalItems
      uniqueItems := uniqueItems
      items := (optionToJson items).elim
        (if prefixItems.isEmpty then .absent else .each (listToJson prefixItems)) .all }
  | .object properties required additionalProperties =>
    { type := some .object
      properties := if properties.isEmpty then none else some (propertiesToJson properties)
      required := if required.isEmpty then none else some required
      additionalProperties := optionToJson additionalProperties }
  | .anyOf types => { oneOf := some (listToJson types) }
  | .optional type => { oneOf := some [schemaToJson type, { type := some .null }] }

def listToJson : List Schema → List JsonSchema
  | [] => []
  | s :: ss => schemaToJson s :: listToJson ss

def propertiesToJson : List (Bytes × Schema) → List (Bytes × JsonSchema)
  | [] => []
  | (name, s) :: properties => (name, schemaToJson s) :: propertiesToJson properties

def optionToJson : Option Schema → Option JsonSchema
  | none => none
  | some s => some (schemaToJson s)

end

/-- `generate_schema`. -/
def generateSchema (conv : Conversions) (T : Ty) : JsonSchema :=
  { schemaToJson (parserSchema conv T {}) with
    schema := some "http://json-schema.org/draft-07/schema#" }

end NekoProto.Json
