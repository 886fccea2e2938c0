import NekoProto.Binary.Writer

/-!
# Types and values of the parsing layer

The C++ types that `parser_write` and `parser_read` have parsers for, with the tags of the fields
of reflected classes (`tags.hpp`), and the values of each type. A class is the list of its fields;
what its default constructor gives is a parameter (`Env`).
-/

namespace NekoProto.Parsing

open Binary

/-! ## Tags -/

/-- `UnionEncoding`. -/
inductive UnionEncoding
  | taggedArray | untagged
  deriving DecidableEq, Repr

/-- The tags of a field or of a root value, as `tag_query` sees them. A string under `raw_string` is
a piece of JSON and no value of the types here, so that tag is not among them. -/
structure Tags where
  ignore : Bool := false
  name : Option Bytes := none
  flat : Bool := false
  skippable : Bool := false
  fixedLength : Option ℕ := none
  rawFixedData : Bool := false
  unionEncoding : UnionEncoding := .taggedArray
  deriving DecidableEq, Repr

/-- `unionPayloadTags`: without the tag of the union. -/
def Tags.payload (tags : Tags) : Tags := { tags with unionEncoding := .taggedArray }

/-- `tag_query::get<tag_property::fixed_length<T>>`: the length 1 stands for the size of the
type. -/
def Tags.fixedLengthOf (tags : Tags) (T : Arithmetic) : Option ℕ :=
  tags.fixedLength.map fun size => if size = 1 then T.size else size

/-! ## Types -/

mutual

/-- The types with a parser. -/
inductive Ty
  | arithmetic (T : Arithmetic)
  | string
  | enumeration (signed : Bool) (width : Width) (names : List (Bytes × BitVec width.bits))
  | null (monostate : Bool)
  | optional (T : Ty)
  | pointer (shared : Bool) (T : Ty)
  | sequence (unique : Bool) (T : Ty)
  | array (size : ℕ) (T : Ty)
  | tuple (Ts : Tys)
  | pair (T U : Ty)
  | variant (Ts : Alternatives)
  | stringMap (T : Ty)
  | entryMap (unique : Bool) (K T : Ty)
  | object (unframed : Bool) (fields : Fields)
  | record (fields : Fields)

/-- The elements of a tuple. -/
inductive Tys
  | nil
  | cons (T : Ty) (Ts : Tys)

/-- The alternatives of a variant, at least one. -/
inductive Alternatives
  | one (T : Ty)
  | cons (T : Ty) (Ts : Alternatives)

/-- The fields of a reflected class. Those of a `record` have no names. -/
inductive Fields
  | nil
  | cons (name : Bytes) (tags : Tags) (T : Ty) (rest : Fields)

end

namespace Tys

/-- The number of types. -/
def length : Tys → ℕ
  | nil => 0
  | cons _ Ts => Ts.length + 1

end Tys

/-- `parser_reflect_field_count`: the fields that are not ignored. -/
def Fields.count : Fields → ℕ
  | .nil => 0
  | .cons _ tags _ rest => (if tags.ignore then 0 else 1) + rest.count

mutual

/-- The values of a type. The keys of a string-keyed map are distinct. -/
def Ty.Value : Ty → Type
  | .arithmetic T => T.Value
  | .string => Bytes
  | .enumeration _ width _ => BitVec width.bits
  | .null _ => Unit
  | .optional T => Option T.Value
  | .pointer _ T => Option T.Value
  | .sequence _ T => List T.Value
  | .array size T => { values : List T.Value // values.length = size }
  | .tuple Ts => Ts.Values
  | .pair T U => T.Value × U.Value
  | .variant Ts => Ts.Value
  | .stringMap T => { entries : List (Bytes × T.Value) // (entries.map Prod.fst).Nodup }
  | .entryMap _ K T => List (K.Value × T.Value)
  | .object _ fields => fields.Values
  | .record fields => fields.Values

/-- The elements of a tuple. -/
def Tys.Values : Tys → Type
  | .nil => Unit
  | .cons T Ts => T.Value × Ts.Values

/-- The active alternative of a variant. -/
def Alternatives.Value : Alternatives → Type
  | .one T => T.Value
  | .cons T Ts => T.Value ⊕ Ts.Value

/-- The values of fields. -/
def Fields.Values : Fields → Type
  | .nil => Unit
  | .cons _ _ T rest => T.Value × rest.Values

end

/-- What the parsers take from the program: the value-initialized object of a type, and the
equivalence of its container's keys. -/
structure Env where
  default : (T : Ty) → T.Value
  equivalent : (T : Ty) → T.Value → T.Value → Bool

/-- `T{}` of an arithmetic type. -/
def Arithmetic.zero : (T : Arithmetic) → T.Value
  | .bool => false
  | .integer _ _ => 0
  | .float => 0
  | .double => 0

mutual

/-- `T{}`, where the classes give their members no other values. -/
def Ty.zero : (T : Ty) → T.Value
  | .arithmetic T => Arithmetic.zero T
  | .string => []
  | .enumeration _ width _ => (0 : BitVec width.bits)
  | .null _ => ()
  | .optional _ => none
  | .pointer _ _ => none
  | .sequence _ _ => []
  | .array size T => ⟨List.replicate size T.zero, List.length_replicate⟩
  | .tuple Ts => Ts.zero
  | .pair T U => (T.zero, U.zero)
  | .variant Ts => Ts.zero
  | .stringMap _ => ⟨[], List.nodup_nil⟩
  | .entryMap _ _ _ => []
  | .object _ fields => fields.zero
  | .record fields => fields.zero

/-- The elements of a tuple. -/
def Tys.zero : (Ts : Tys) → Ts.Values
  | .nil => ()
  | .cons T Ts => (T.zero, Ts.zero)

/-- The first alternative. -/
def Alternatives.zero : (Ts : Alternatives) → Ts.Value
  | .one T => T.zero
  | .cons T _ => .inl T.zero

/-- The fields of a class. -/
def Fields.zero : (fields : Fields) → fields.Values
  | .nil => ()
  | .cons _ _ T rest => (T.zero, rest.zero)

end

/-- A program whose classes give their members no other values, without sets and maps. -/
def Env.zero : Env := ⟨Ty.zero, fun _ _ _ => false⟩

/-! ## Traits -/

mutual

/-- `std::is_copy_constructible_v`: a `unique_ptr` is not, nor is what holds one by value. The
copy constructor of a container is there whatever its elements are. -/
def Ty.copyable : Ty → Bool
  | .optional T => T.copyable
  | .pointer shared _ => shared
  | .array _ T => T.copyable
  | .tuple Ts => Ts.copyable
  | .pair T U => T.copyable && U.copyable
  | .variant Ts => Ts.copyable
  | .object _ fields => fields.copyable
  | .record fields => fields.copyable
  | _ => true

/-- All types are. -/
def Tys.copyable : Tys → Bool
  | .nil => true
  | .cons T Ts => T.copyable && Ts.copyable

/-- All alternatives are. -/
def Alternatives.copyable : Alternatives → Bool
  | .one T => T.copyable
  | .cons T Ts => T.copyable && Ts.copyable

/-- The types of all fields are. -/
def Fields.copyable : Fields → Bool
  | .nil => true
  | .cons _ _ T rest => T.copyable && rest.copyable

end

mutual

/-- No class in the type is read without a frame. -/
def Ty.framed : Ty → Bool
  | .optional T => T.framed
  | .pointer _ T => T.framed
  | .sequence _ T => T.framed
  | .array _ T => T.framed
  | .tuple Ts => Ts.framed
  | .pair T U => T.framed && U.framed
  | .variant Ts => Ts.framed
  | .stringMap T => T.framed
  | .entryMap _ K T => K.framed && T.framed
  | .object unframed fields => !unframed && fields.framed
  | .record fields => fields.framed
  | _ => true

/-- No class in the elements of a tuple. -/
def Tys.framed : Tys → Bool
  | .nil => true
  | .cons T Ts => T.framed && Ts.framed

/-- No class in the alternatives of a variant. -/
def Alternatives.framed : Alternatives → Bool
  | .one T => T.framed
  | .cons T Ts => T.framed && Ts.framed

/-- No class in the types of the fields. -/
def Fields.framed : Fields → Bool
  | .nil => true
  | .cons _ _ T rest => T.framed && rest.framed

end

namespace Alternatives

/-- The first `std::monostate` among the alternatives. -/
def monostate : (Ts : Alternatives) → Option Ts.Value
  | one (.null true) => some ()
  | one _ => none
  | cons (.null true) _ => some (.inl ())
  | cons _ Ts => Ts.monostate.map .inr

/-- `std::holds_alternative<std::monostate>`. -/
def holdsMonostate : (Ts : Alternatives) → Ts.Value → Bool
  | one (.null true), _ => true
  | one _, _ => false
  | cons (.null true) _, .inl _ => true
  | cons _ _, .inl _ => false
  | cons _ Ts, .inr value => Ts.holdsMonostate value

end Alternatives

namespace Ty

/-- `optional_like_type<T>::set_null`, where `T` is optional-like. The concept copies a value of
the optional, so its type has to be copyable. -/
def setNull : (T : Ty) → Option T.Value
  | .optional T => if T.copyable then some none else none
  | .variant Ts => Ts.monostate
  | _ => none

/-- `optional_like_type<T>::value`. -/
def optionalLike (T : Ty) : Bool := T.setNull.isSome

/-- `optional_like_type<T>::has_value`. -/
def hasValue : (T : Ty) → T.Value → Bool
  | .optional _, value => Option.isSome value
  | .variant Ts, value => !Ts.holdsMonostate value
  | _, _ => true

/-- `has_values_meta<T> && has_names_meta<T>`. -/
def isObject : Ty → Bool
  | .object _ _ => true
  | _ => false

end Ty

end NekoProto.Parsing
