import NekoProto.Json.Read

/-!
# Writing JSON values

`parser_write` over the writer of RapidJSON documents, one case for each kind of type. No value is
refused here: what does not go into a text is found when the document is printed.
-/

namespace NekoProto.Json

open Binary Parsing

/-! ## Scalars -/

theorem Width.bits_le (width : Width) : width.bits ≤ 64 := by
  cases width <;> decide

/-- The number of an integer. -/
def integerOf (signed : Bool) (width : Width) (value : BitVec width.bits) : JsonInteger :=
  match signed with
  | true =>
    ⟨value.toInt, by
      have hpos : 0 < width.bits := by cases width <;> decide
      have hle : (2 : ℤ) ^ (width.bits - 1) ≤ 2 ^ 63 :=
        pow_le_pow_right₀ (by decide) (Nat.sub_le_sub_right (Width.bits_le width) 1)
      have hlow := BitVec.le_toInt value
      have hhigh := BitVec.toInt_lt (x := value)
      omega⟩
  | false =>
    ⟨value.toNat, by
      have hle : 2 ^ width.bits ≤ 2 ^ 64 :=
        Nat.pow_le_pow_right (by decide) (Width.bits_le width)
      have hlt := value.isLt
      omega⟩

/-- `_fromBasicType` of an arithmetic type. -/
def fromBasicType (conv : Conversions) : (T : Arithmetic) → T.Value → JsonValue
  | .bool, value => .bool value
  | .integer signed width, value => .integer (integerOf signed width value)
  | .float, value => .double (conv.widen value)
  | .double, value => .double value

/-- `WriteParser` of an enumeration. -/
def writeEnumeration (conv : Conversions) (signed : Bool) (width : Width)
    (names : List (Bytes × BitVec width.bits)) (value : BitVec width.bits) : JsonValue :=
  if enumerationName names value ≠ [] then .string (enumerationName names value)
  else fromBasicType conv (.integer signed width) value

/-! ## Fields of reflected classes -/

/-- `parser_write_reflect_field`, of a field that is neither ignored nor flattened. The null of an
empty optional stands under the name of the member, not under that of its tag. -/
def writeReflectField (nullForEmpty empty : Bool) (name : Bytes) (tags : Tags)
    (value : JsonValue) : List (Bytes × JsonValue) :=
  if empty then if nullForEmpty then [(name, .null)] else []
  else [(tags.fieldName name, value)]

/-! ## All types -/

section

variable (nullForEmpty : Bool) (conv : Conversions)

mutual

/-- `parser_write`. -/
def parserWrite : (T : Ty) → Tags → T.Value → JsonValue
  | .arithmetic T, _, value => fromBasicType conv T value
  | .string, _, value => .string value
  | .enumeration signed width names, _, value => writeEnumeration conv signed width names value
  | .null _, _, _ => .null
  | .optional _, _, none => .null
  | .optional T, tags, some value => parserWrite T tags value
  | .pointer _ _, _, none => .null
  | .pointer _ T, tags, some value => parserWrite T tags value
  | .sequence _ T, _, values => .array (List.map (parserWrite T {}) values)
  | .array _ T, _, values => .array (values.1.map (parserWrite T {}))
  | .tuple Ts, _, values => .array (writeTuple Ts values)
  | .pair T U, _, (first, second) =>
    .object [(firstName, parserWrite T {} first), (secondName, parserWrite U {} second)]
  | .variant Ts, tags, value =>
    if tags.unionEncoding = .untagged then writeActive Ts tags.payload value
    else
      .array [.integer (integerOf false .w64 (BitVec.ofNat 64 (Ts.index value))),
        writeActive Ts tags.payload value]
  | .stringMap T, _, entries =>
    .object (entries.1.map fun entry => (entry.1, parserWrite T {} entry.2))
  | .entryMap _ K T, _, entries =>
    .array (List.map (fun entry : K.Value × T.Value =>
      .object [(keyName, parserWrite K {} entry.1), (valueName, parserWrite T {} entry.2)])
      entries)
  | .object _ fields, _, values => .object (writeFields fields values)
  | .record fields, _, values => .array (writeRecord fields values)

/-- The elements of a tuple. -/
def writeTuple : (Ts : Tys) → Ts.Values → List JsonValue
  | .nil, _ => []
  | .cons T Ts, (value, values) => parserWrite T {} value :: writeTuple Ts values

/-- `writeActive`. -/
def writeActive : (Ts : Alternatives) → Tags → Ts.Value → JsonValue
  | .one T, tags, value => parserWrite T tags value
  | .cons T _, tags, .inl value => parserWrite T tags value
  | .cons _ Ts, tags, .inr value => writeActive Ts tags value

/-- `parser_write_reflect_fields`: the members. -/
def writeFields : (fields : Fields) → fields.Values → List (Bytes × JsonValue)
  | .nil, _ => []
  | .cons name tags T rest, (value, values) =>
    let members :=
      if tags.ignore then []
      else if tags.flat && T.isObject then writeFlat T value
      else
        writeReflectField nullForEmpty (T.optionalLike && !T.hasValue value) name tags
          (parserWrite T tags value)
    members ++ writeFields rest values

/-- The members of a flattened class. -/
def writeFlat : (T : Ty) → T.Value → List (Bytes × JsonValue)
  | .object _ fields, values => writeFields fields values
  | _, _ => []

/-- The elements of a reflected class without names. -/
def writeRecord : (fields : Fields) → fields.Values → List JsonValue
  | .nil, _ => []
  | .cons _ tags T rest, (value, values) =>
    if tags.ignore then writeRecord rest values
    else parserWrite T tags value :: writeRecord rest values

end

end

/-! ## Members -/

/-- The member that stands for a field, if any. -/
def written (nullForEmpty empty : Bool) (value : JsonValue) : Option JsonValue :=
  if empty then if nullForEmpty then some .null else none else some value

theorem findMember_writeReflectField (nullForEmpty empty : Bool) (name sought : Bytes)
    (value : JsonValue) :
    JsonValue.findMember sought (writeReflectField nullForEmpty empty name {} value) =
      if name = sought then written nullForEmpty empty value else none := by
  unfold writeReflectField written JsonValue.findMember
  by_cases h : name = sought
  · cases empty with
    | true => cases nullForEmpty <;> simp [h]
    | false => simp [h, Tags.fieldName]
  · cases empty with
    | true => cases nullForEmpty <;> simp [h]
    | false => simp [h, Tags.fieldName]

theorem exactMembers_writeReflectField {nullForEmpty empty : Bool} {name : Bytes} {tags : Tags}
    {value : JsonValue} (h : value.Exact) :
    JsonValue.ExactMembers (writeReflectField nullForEmpty empty name tags value) := by
  unfold writeReflectField
  split_ifs
  · exact ⟨trivial, trivial⟩
  · trivial
  · exact ⟨h, trivial⟩

/-! ## Null -/

end NekoProto.Json

/-- A value that is written as a null and nothing else. -/
def NekoProto.Parsing.Ty.isBareNull : (T : NekoProto.Parsing.Ty) → T.Value → Bool
  | .null _, _ => true
  | .optional _, none => true
  | .optional T, some value => T.isBareNull value
  | .pointer _ _, none => true
  | .pointer _ T, some value => T.isBareNull value
  | _, _ => false

namespace NekoProto.Json

open Binary Parsing

section

variable {nullForEmpty : Bool} {conv : Conversions}

theorem fromBasicType_isNull (T : Arithmetic) (value : T.Value) :
    (fromBasicType conv T value).isNull = false := by
  cases T <;> rfl

theorem writeEnumeration_isNull (signed : Bool) (width : Width)
    (names : List (Bytes × BitVec width.bits)) (value : BitVec width.bits) :
    (writeEnumeration conv signed width names value).isNull = false := by
  unfold writeEnumeration
  split_ifs <;> rfl

/-- **What is written as a null**, where no tag says how variants are written. -/
theorem parserWrite_isNull : ∀ (T : Ty) (value : T.Value),
    (parserWrite nullForEmpty conv T {} value).isNull = T.isBareNull value
  | .arithmetic T, value => fromBasicType_isNull T value
  | .string, _ => rfl
  | .enumeration signed width names, value => writeEnumeration_isNull signed width names value
  | .null _, _ => rfl
  | .optional _, none => rfl
  | .optional T, some value => parserWrite_isNull T value
  | .pointer _ _, none => rfl
  | .pointer _ T, some value => parserWrite_isNull T value
  | .sequence _ _, _ => rfl
  | .array _ _, _ => rfl
  | .tuple _, _ => rfl
  | .pair _ _, (_, _) => rfl
  | .variant _, _ => rfl
  | .stringMap _, _ => rfl
  | .entryMap _ _ _, _ => rfl
  | .object _ _, _ => rfl
  | .record _, _ => rfl

end

end NekoProto.Json
