import NekoProto.ArgParser.RawParser
import NekoProto.Binary.Reader
import NekoProto.Lib.Ieee754

/-!
# The values of options

`argparser/detail/materializer.hpp`, one field at a time: how a text becomes a value of the type of
a field (`assignTextValue`), which values a field may have (`validateFieldValue`), and how a field
gets its value from a default (`applyDefaultOption`), or from the command line and the environment
(`materializeOneOption`).

The handler of deprecated options is left out: it is only notified. An integer becomes a double as
`static_cast` rounds it (`Ieee754.ofInt`), and a single by widening. What `std::from_chars` reads as
a floating-point number, and how a stream prints one, is a parameter (`FloatingText`).
-/

namespace NekoProto.ArgParser

open Binary (Bytes Arithmetic Width)

/-! ## Types -/

/-- The types that one text is converted to. -/
inductive Scalar
  | string
  | arithmetic (T : Arithmetic)
  | enumeration (signed : Bool) (width : Width) (names : List (Bytes × BitVec width.bits))

/-- The values of such a type. -/
abbrev Scalar.Value : Scalar → Type
  | .string => Bytes
  | .arithmetic T => T.Value
  | .enumeration _ width _ => BitVec width.bits

/-- The types of fields: a scalar, `std::optional` of one, or `std::vector` of one. -/
inductive FieldType
  | scalar (T : Scalar)
  | optional (T : Scalar)
  | vector (T : Scalar)

namespace FieldType

/-- The type that a text is converted to. -/
abbrev item : FieldType → Scalar
  | scalar T => T
  | optional T => T
  | vector T => T

/-- The values of a field. -/
abbrev Value : FieldType → Type
  | scalar T => T.Value
  | optional T => Option T.Value
  | vector T => List T.Value

/-- `std::is_same_v<FieldT, bool>`. -/
def isBool : FieldType → Bool
  | scalar (.arithmetic .bool) => true
  | _ => false

/-- `is_vector_v`. -/
def isVector : FieldType → Bool
  | vector _ => true
  | _ => false

end FieldType

/-- `is_range_value_v`. -/
def Scalar.isRangeValue : Scalar → Bool
  | .arithmetic T => T != .bool
  | _ => false

/-- `is_choice_value_v`. -/
def Scalar.isChoiceValue : Scalar → Bool
  | .arithmetic _ => false
  | _ => true

/-- What the standard library reads and prints of floating-point numbers. -/
structure FloatingText where
  /-- `std::from_chars` of a whole text to a `float`. -/
  single : Bytes → Option (BitVec 32)
  /-- `std::from_chars` of a whole text to a `double`. -/
  double : Bytes → Option (BitVec 64)
  /-- `operator<<`. -/
  print : BitVec 64 → Bytes

/-! ## Specs -/

/-- The members of `ArgSpec` that a value depends on. -/
structure ValueSpec where
  envName : Bytes := []
  /-- `range_min` and `range_max`, if `has_range`. -/
  range : Option (BitVec 64 × BitVec 64) := none
  /-- The text of `default_value`. -/
  defaultValue : Bytes := []
  choices : List Bytes := []
  caseInsensitiveChoices : Bool := false
  /-- The zero character is no separator. -/
  separator : UInt8 := 0
  deriving DecidableEq, Repr

/-- The error of `make_error_code`, which has no text of its own. -/
def makeErrorCode (error : ArgParserError) : ArgParserErrorDetail := { error := error }

/-- `contextual_argparser_error`. -/
def contextualArgparserError (error : ArgParserErrorDetail) (spec : ArgSpec) (detail : Bytes) :
    ArgParserErrorDetail :=
  { error := error.error, message := formatErrorOptionLabel spec ++ text ": " ++ detail }

/-- `if (auto error = …) return contextual_argparser_error(error, spec, detail)`. -/
def contextual {α : Type} (spec : ArgSpec) (detail : Bytes) (r : Except ArgParserErrorDetail α) :
    Except ArgParserErrorDetail α :=
  r.mapError fun error => contextualArgparserError error spec detail

/-- `describe_value_source`. -/
def describeValueSource (source value : Bytes) : Bytes :=
  (if source = [] then text "value" else source) ++ text " " ++ quoteArgValue value

/-- `format_validation_expectation`. -/
def formatValidationExpectation (lib : FloatingText) (spec : ValueSpec) : Bytes :=
  let range :=
    match spec.range with
    | some (min, max) =>
      text "expected range [" ++ lib.print min ++ text ", " ++ lib.print max ++ text ")"
    | none => []
  if spec.choices = [] then range
  else
    (if range = [] then [] else range ++ text "; ") ++ text "expected one of \x7b" ++
      (text ", ").intercalate spec.choices ++ text "\x7d"

/-- `detail`, with the expectation. -/
def withExpectation (lib : FloatingText) (spec : ValueSpec) (detail : Bytes) : Bytes :=
  let expectation := formatValidationExpectation lib spec
  if expectation = [] then detail else detail ++ text "; " ++ expectation

/-! ## Texts -/

/-- `std::tolower`. -/
def toLower (ch : UInt8) : UInt8 := if 0x41 ≤ ch && ch ≤ 0x5A then ch + 0x20 else ch

/-- `equals_ignore_case`. -/
def equalsIgnoreCase (lhs rhs : Bytes) : Bool := lhs.map toLower == rhs.map toLower

/-- `parse_bool`. -/
def parseBool (value : Bytes) : Except ArgParserErrorDetail Bool :=
  if value = [] then .ok true
  else if value == text "1" || equalsIgnoreCase value (text "true") ||
      equalsIgnoreCase value (text "yes") || equalsIgnoreCase value (text "on") then .ok true
  else if value == text "0" || equalsIgnoreCase value (text "false") ||
      equalsIgnoreCase value (text "no") || equalsIgnoreCase value (text "off") then .ok false
  else .error (makeErrorCode .invalidValue)

/-- The number that decimal digits stand for. -/
def decimal (digits : Bytes) : ℕ := digits.foldl (fun n ch => 10 * n + (ch.toNat - 0x30)) 0

/-- `std::from_chars` of a whole text to an integer: only a signed type takes a `'-'`, and the
number has to be one of the type. -/
def fromChars (signed : Bool) (width : Width) (value : Bytes) : Option (BitVec width.bits) :=
  let negative := signed && [minus].isPrefixOf value
  let digits := if negative then value.drop 1 else value
  let number : ℤ := if negative then -(decimal digits : ℤ) else decimal digits
  let low : ℤ := if signed then -(2 ^ (width.bits - 1)) else 0
  let high : ℤ := if signed then 2 ^ (width.bits - 1) else 2 ^ width.bits
  if digits ≠ [] ∧ digits.all isDigit ∧ low ≤ number ∧ number < high then
    some (BitVec.ofInt width.bits number)
  else none

/-- A number that could be read, or an error. -/
def orInvalid {α : Type} (r : Option α) : Except ArgParserErrorDetail α :=
  match r with
  | some a => .ok a
  | none => .error (makeErrorCode .invalidValue)

/-- `parse_scalar`. -/
def parseScalar (lib : FloatingText) (value : Bytes) (caseInsensitiveEnum : Bool) :
    (T : Scalar) → Except ArgParserErrorDetail T.Value
  | .string => .ok value
  | .arithmetic .bool => parseBool value
  | .arithmetic (.integer signed width) => orInvalid (fromChars signed width value)
  | .arithmetic .float => orInvalid (lib.single value)
  | .arithmetic .double => orInvalid (lib.double value)
  | .enumeration signed width names =>
    match names.find? fun entry =>
        entry.1 == value || (caseInsensitiveEnum && equalsIgnoreCase entry.1 value) with
    | some entry => .ok entry.2
    | none => orInvalid (fromChars signed width value)

/-- `assign_value`. -/
def assignValue (lib : FloatingText) (value : Bytes) (caseInsensitiveEnum : Bool) :
    (T : FieldType) → T.Value → Except ArgParserErrorDetail T.Value
  | .scalar T, _ => parseScalar lib value caseInsensitiveEnum T
  | .optional T, _ => do
    let inner ← parseScalar lib value caseInsensitiveEnum T
    return some inner
  | .vector T, field => do
    let inner ← parseScalar lib value caseInsensitiveEnum T
    return field ++ [inner]

/-- The parts of a text between the separators. There is always one. -/
def splitText (separator : UInt8) : Bytes → List Bytes
  | [] => [[]]
  | ch :: rest =>
    if ch = separator then [] :: splitText separator rest
    else
      match splitText separator rest with
      | [] => [[ch]]
      | part :: parts => (ch :: part) :: parts

/-- The loop over the parts of a text. -/
def assignParts (lib : FloatingText) (caseInsensitiveEnum : Bool) (T : FieldType) :
    List Bytes → T.Value → Except ArgParserErrorDetail T.Value
  | [], field => .ok field
  | part :: parts, field => do
    let field ← assignValue lib part caseInsensitiveEnum T field
    assignParts lib caseInsensitiveEnum T parts field

/-- `assign_text_value`. -/
def assignTextValue (lib : FloatingText) (value : Bytes) (separator : UInt8)
    (caseInsensitiveEnum : Bool) (T : FieldType) (field : T.Value) :
    Except ArgParserErrorDetail T.Value :=
  if separator = 0 then assignValue lib value caseInsensitiveEnum T field
  else if ¬ T.isVector then .error (makeErrorCode .invalidDefinition)
  else assignParts lib caseInsensitiveEnum T (splitText separator value) field

/-- The value of the tag `default_value`: a text, which is converted, or another value. -/
inductive DefaultValue (T : FieldType)
  | text (value : Bytes)
  | value (value : T.item.Value)

/-- A value is assigned to a field, or pushed to a vector. -/
def assignItem : (T : FieldType) → T.item.Value → T.Value → T.Value
  | .scalar _, value, _ => value
  | .optional _, value, _ => some value
  | .vector _, value, field => field ++ [value]

/-- `assign_default_value`. -/
def assignDefaultValue (lib : FloatingText) {T : FieldType} (separator : UInt8)
    (caseInsensitiveEnum : Bool) :
    DefaultValue T → T.Value → Except ArgParserErrorDetail T.Value
  | .text value, field => assignTextValue lib value separator caseInsensitiveEnum T field
  | .value value, field => .ok (assignItem T value field)

/-! ## Constraints -/

/-- `static_cast<double>`. -/
def asDouble : (T : Arithmetic) → T.Value → ℕ
  | .bool, value => Ieee754.ofNat value.toNat
  | .integer signed _, value =>
    Ieee754.ofInt (if signed then value.toInt else (value.toNat : ℤ))
  | .float, value => Ieee754.widen value.toNat
  | .double, value => value.toNat

/-- `scalar_in_range`, where only arithmetic values have a range. -/
def scalarInRange (min max : BitVec 64) : (T : Scalar) → T.Value → Bool
  | .arithmetic T, value =>
    Ieee754.double.compares (fun number min => min ≤ number) (asDouble T value) min.toNat &&
      Ieee754.double.compares (fun number max => number < max) (asDouble T value) max.toNat
  | _, _ => true

/-- `choice_contains`. -/
def choiceContains (choices : List Bytes) (value : Bytes) (caseInsensitiveChoices : Bool) : Bool :=
  choices.any fun choice =>
    if caseInsensitiveChoices then equalsIgnoreCase choice value else choice == value

/-- `choice_value_allowed`. -/
def choiceValueAllowed (choices : List Bytes) (caseInsensitiveChoices : Bool) :
    (T : Scalar) → T.Value → Bool
  | .string, value => choiceContains choices value caseInsensitiveChoices
  | .enumeration _ _ names, value =>
    match names.find? fun entry => entry.2 == value with
    | some entry => choiceContains choices entry.1 caseInsensitiveChoices
    | none => false
  | .arithmetic _, _ => false

/-- The items of a field are tested one by one. -/
def FieldType.all : (T : FieldType) → (T.item.Value → Bool) → T.Value → Bool
  | .scalar _, test, value => test value
  | .optional _, test, value => value.all test
  | .vector _, test, value => value.all test

/-- `validate_range`. -/
def validateRange (spec : ValueSpec) (T : FieldType) (value : T.Value) :
    Except ArgParserErrorDetail Unit :=
  match spec.range with
  | none => .ok ()
  | some (min, max) =>
    if ¬ T.item.isRangeValue then .error (makeErrorCode .invalidDefinition)
    else if T.all (scalarInRange min max T.item) value then .ok ()
    else .error (makeErrorCode .invalidValue)

/-- `validate_choices`. -/
def validateChoices (spec : ValueSpec) (T : FieldType) (value : T.Value) :
    Except ArgParserErrorDetail Unit :=
  if spec.choices = [] then .ok ()
  else if ¬ T.item.isChoiceValue then .error (makeErrorCode .invalidDefinition)
  else if T.all (choiceValueAllowed spec.choices spec.caseInsensitiveChoices T.item) value then
    .ok ()
  else .error (makeErrorCode .invalidValue)

/-- `validate_field_definition`. -/
def validateFieldDefinition (spec : ValueSpec) (T : FieldType) : Except ArgParserErrorDetail Unit :=
  if spec.separator ≠ 0 ∧ ¬ T.isVector then .error (makeErrorCode .invalidDefinition)
  else if spec.range.any (fun range => !T.item.isRangeValue ||
      Ieee754.double.compares (fun min max => max < min) range.1.toNat range.2.toNat) then
    .error (makeErrorCode .invalidDefinition)
  else if spec.choices ≠ [] ∧ ¬ T.item.isChoiceValue then
    .error (makeErrorCode .invalidDefinition)
  else .ok ()

/-- `validate_field_value`. -/
def validateFieldValue (spec : ValueSpec) (T : FieldType) (value : T.Value) :
    Except ArgParserErrorDetail Unit := do
  validateRange spec T value
  validateChoices spec T value

/-! ## Fields -/

/-- All members of the `ArgSpec` of an option. -/
structure OptionSpec where
  arg : ArgSpec
  value : ValueSpec

/-- The enumerators may be written in any case. -/
def ValueSpec.caseInsensitiveEnum (spec : ValueSpec) : Bool :=
  spec.caseInsensitiveChoices && spec.choices != []

section

variable (lib : FloatingText) (spec : OptionSpec) {T : FieldType}

/-- `assign_text_to_field`. -/
def assignTextToField (field : T.Value) (value source : Bytes) :
    Except ArgParserErrorDetail T.Value := do
  let field ← contextual spec.arg (text "failed to parse " ++ describeValueSource source value)
    (assignTextValue lib value spec.value.separator spec.value.caseInsensitiveEnum T field)
  contextual spec.arg (withExpectation lib spec.value
    (describeValueSource source value ++ text " failed validation"))
    (validateFieldValue spec.value T field)
  return field

/-- `assign_default_to_field`. -/
def assignDefaultToField (default : DefaultValue T) (field : T.Value) :
    Except ArgParserErrorDetail T.Value := do
  let field ← contextual spec.arg
    (text "failed to apply default " ++ quoteArgValue spec.value.defaultValue)
    (assignDefaultValue lib spec.value.separator spec.value.caseInsensitiveEnum default field)
  contextual spec.arg (withExpectation lib spec.value
    (text "default " ++ quoteArgValue spec.value.defaultValue ++ text " failed validation"))
    (validateFieldValue spec.value T field)
  return field

/-- `apply_default_option`: the field, and whether it is supplied. -/
def applyDefaultOption (default : Option (DefaultValue T)) (field : T.Value) :
    Except ArgParserErrorDetail (T.Value × Bool) := do
  contextual spec.arg (text "invalid option definition") (validateFieldDefinition spec.value T)
  match default with
  | some default => do
    let field ← assignDefaultToField lib spec default field
    return (field, true)
  | none => return (field, false)

/-- `field.clear()` of a vector that is already supplied. -/
def cleared : (T : FieldType) → Bool → T.Value → T.Value
  | .vector _, true, _ => []
  | _, _, field => field

/-- The loop over the values of the command line. -/
def assignValues : List Bytes → T.Value → Except ArgParserErrorDetail T.Value
  | [], field => .ok field
  | value :: values, field => do
    let field ← assignTextToField lib spec field value (text "value")
    assignValues values field

/-- `read_env`. -/
def readEnv (getenv : Bytes → Option Bytes) (name : Bytes) : Option Bytes :=
  if name = [] then none else getenv name

/-- `materialize_one_option`: the field, and whether it is supplied. -/
def materializeOneOption (getenv : Bytes → Option Bytes) (raw : List Bytes)
    (alreadySupplied : Bool) (field : T.Value) : Except ArgParserErrorDetail (T.Value × Bool) := do
  contextual spec.arg (text "invalid option definition") (validateFieldDefinition spec.value T)
  if raw ≠ [] then
    let field ← assignValues lib spec raw (cleared T alreadySupplied field)
    return (field, true)
  else
    match readEnv getenv spec.value.envName with
    | some envValue => do
      let source := if spec.value.envName = [] then text "env value" else spec.value.envName
      let field ← assignTextToField lib spec (cleared T alreadySupplied field) envValue source
      return (field, true)
    | none => return (field, false)

end

/-! ## Presence -/

/-- `imported_field_supplied`. -/
def importedFieldSupplied : (T : FieldType) → T.Value → Bool
  | .optional _, value => value.isSome
  | _, _ => true

/-- A `bool` counts only if it is true. -/
def Scalar.counts : (T : Scalar) → T.Value → Bool
  | .arithmetic .bool, value => value
  | _, _ => true

/-- `field_relationship_active`. -/
def fieldRelationshipActive (supplied : Bool) : (T : FieldType) → T.Value → Bool
  | .scalar T, value => supplied && T.counts value
  | .optional T, value => supplied && value.any T.counts
  | .vector T, value => supplied && value.any T.counts

end NekoProto.ArgParser
