import NekoProto.Binary.Format
import Mathlib.Tactic.Common

/-!
# The schema of the argument parser

`argparser/detail/schema.hpp`: how an options type becomes a list of specs (`collectSchema`), how a
name and a `requires` or `conflicts` reference find a spec, and which schemas are definitions
(`validateSchemaDefinition`).

A `char` is a byte. The texts of help, of a group and of a deprecated option are left out: no
function here reads them.
-/

namespace NekoProto.ArgParser

open Binary (Bytes)

/-! ## Characters and texts -/

/-- A string literal of ASCII characters. -/
def text (literal : String) : Bytes := literal.toList.map Char.toUInt8

/-- `'-'`. -/
def minus : UInt8 := 0x2D

/-- `'='`. -/
def equalsSign : UInt8 := 0x3D

/-- `'/'`. -/
def slash : UInt8 := 0x2F

/-- `'.'`. -/
def dot : UInt8 := 0x2E

/-- `'_'`. -/
def underscore : UInt8 := 0x5F

/-- `is_option_name_character`. -/
def isOptionNameCharacter (ch : UInt8) : Bool :=
  (0x61 ≤ ch && ch ≤ 0x7A) || (0x41 ≤ ch && ch ≤ 0x5A) || (0x30 ≤ ch && ch ≤ 0x39) ||
    ch == minus || ch == underscore

/-- `is_short_option_character`. -/
def isShortOptionCharacter (ch : UInt8) : Bool :=
  0x21 ≤ ch && ch ≤ 0x7E && ch != minus && ch != equalsSign

/-! ## Errors -/

/-- `ArgParserError`, without `Success`. -/
inductive ArgParserError
  | unknownOption
  | missingValue
  | invalidValue
  | missingRequired
  | unexpectedPositional
  | invalidDefinition
  | helpRequested
  | unknownCommand
  | versionRequested
  deriving DecidableEq, Repr

/-- `ArgParserErrorDetail`. -/
structure ArgParserErrorDetail where
  error : ArgParserError
  message : Bytes := []
  deriving DecidableEq, Repr

/-- `quote_arg_value`. -/
def quoteArgValue (value : Bytes) : Bytes := text "'" ++ value ++ text "'"

/-! ## Specs -/

/-- `ArgSpec`. -/
structure ArgSpec where
  longName : Bytes := []
  scope : Bytes := []
  shortName : Bytes := []
  aliases : List Bytes := []
  required : Bool := false
  positional : Bool := false
  flag : Bool := false
  repeatable : Bool := false
  hasImplicit : Bool := false
  implicitValue : Bytes := []
  conflicts : List Bytes := []
  requiresNames : List Bytes := []
  conflictIndices : List ℕ := []
  requireIndices : List ℕ := []
  deriving DecidableEq, Repr

/-- `format_error_option_label`. -/
def formatErrorOptionLabel (spec : ArgSpec) : Bytes :=
  if spec.positional then text "positional '" ++ spec.longName ++ text "'"
  else if spec.shortName = [] then text "--" ++ spec.longName
  else text "--" ++ spec.longName ++ text " (-" ++ spec.shortName ++ text ")"

namespace ArgSpec

variable (spec : ArgSpec) (name : Bytes)

/-- The test in `find_long_index`. -/
def answersLong : Bool :=
  !spec.positional &&
    (spec.longName == name || spec.aliases.any fun other => 1 < other.length && other == name)

/-- The test in `find_short_index`. -/
def answersShort : Bool :=
  !spec.positional &&
    ((spec.shortName != [] && spec.shortName == name) ||
      spec.aliases.any fun other => other.length == 1 && other == name)

/-- `spec_matches_reference`. -/
def matchesReference : Bool :=
  spec.longName == name || spec.shortName == name || spec.aliases.any fun other => other == name

end ArgSpec

/-! ## Looking names up -/

/-- `ArgSchema`, without `builtin_specs`. -/
structure ArgSchema where
  specs : List ArgSpec := []
  positionalSpecs : List ℕ := []
  userSpecCount : ℕ := 0
  nestedSeparator : UInt8 := dot
  deriving DecidableEq, Repr

/-- What stands before the last `separator`: `substr(0, rfind(separator))`, or nothing. -/
def beforeLast (separator : UInt8) (path : Bytes) : Bytes :=
  (path.reverse.dropWhile (· != separator)).tail.reverse

namespace ArgSchema

variable (schema : ArgSchema)

/-- `find_long_index`. -/
def findLongIndex (name : Bytes) : Option ℕ := schema.specs.findIdx? (·.answersLong name)

/-- `find_short_index`. -/
def findShortIndex (name : Bytes) : Option ℕ := schema.specs.findIdx? (·.answersShort name)

/-- `find_exact_reference_index`. -/
def findExactReferenceIndex (name : Bytes) : Option ℕ :=
  schema.specs.findIdx? (·.matchesReference name)

/-- `join_reference_scope`. -/
def joinReferenceScope (scope name : Bytes) : Bytes :=
  if name = [] then []
  else if scope = [] then name
  else scope ++ [schema.nestedSeparator] ++ name

/-- The loop of `resolve_reference_name` that takes each `"../"` off the reference. -/
def climb (scope : Bytes) : Bytes → Bytes × Bytes
  | first :: second :: third :: reference =>
    if first = dot ∧ second = dot ∧ third = slash then
      climb (beforeLast schema.nestedSeparator scope) reference
    else (scope, first :: second :: third :: reference)
  | reference => (scope, reference)

/-- `resolve_reference_name`. -/
def resolveReferenceName (source : ArgSpec) (reference : Bytes) : Bytes :=
  if reference = [] then []
  else if [slash].isPrefixOf reference then reference.drop 1
  else
    let (scope, reference) := schema.climb source.scope reference
    if [dot, slash].isPrefixOf reference then schema.joinReferenceScope scope (reference.drop 2)
    else if schema.nestedSeparator ∈ reference then reference
    else schema.joinReferenceScope scope reference

/-- `find_reference_index`. -/
def findReferenceIndex (source : ArgSpec) (reference : Bytes) : Option ℕ :=
  if [minus, minus].isPrefixOf reference then schema.findLongIndex (reference.drop 2)
  else if [minus].isPrefixOf reference ∧ reference.length = 2 then
    schema.findShortIndex (reference.drop 1)
  else
    let normalized := schema.resolveReferenceName source reference
    if normalized = [] then none
    else
      match schema.findExactReferenceIndex normalized with
      | some index => some index
      | none => if reference.length = 1 then schema.findShortIndex reference else none

end ArgSchema

/-! ## Collecting a schema -/

/-- The tags of a field that a spec is made from. A text tag that is missing is empty. -/
structure FieldTags where
  longName : Bytes := []
  absoluteLongName : Bytes := []
  shortName : Option UInt8 := none
  aliases : List Bytes := []
  required : Bool := false
  positional : Bool := false
  flag : Bool := false
  repeatable : Bool := false
  /-- The text of `implicit_value`. -/
  implicitValue : Option Bytes := none
  conflicts : List Bytes := []
  requiresNames : List Bytes := []
  ignore : Bool := false
  deriving DecidableEq, Repr

/-- The fields of an options type: an option, with what its type says, or a nested options type. -/
inductive OptionField
  | option (reflectedName : Bytes) (tags : FieldTags) (isBool isVector : Bool)
  | nested (reflectedName : Bytes) (tags : FieldTags) (fields : List OptionField)

/-- `join_arg_name`. -/
def joinArgName (pre name : Bytes) (separator : UInt8) : Bytes :=
  if pre = [] then name else pre ++ [separator] ++ name

/-- The name of a field in its scope. -/
def fieldName (reflectedName : Bytes) (tags : FieldTags) : Bytes :=
  if tags.longName = [] then reflectedName else tags.longName

/-- `make_arg_spec`. -/
def makeArgSpec (pre reflectedName : Bytes) (tags : FieldTags) (isBool isVector : Bool)
    (separator : UInt8) : ArgSpec where
  longName :=
    if tags.absoluteLongName = [] then joinArgName pre (fieldName reflectedName tags) separator
    else tags.absoluteLongName
  scope :=
    if tags.absoluteLongName = [] then pre else beforeLast separator tags.absoluteLongName
  shortName := tags.shortName.toList
  aliases := tags.aliases
  required := tags.required
  positional := tags.positional
  flag := tags.flag || isBool
  repeatable := tags.repeatable || isVector
  hasImplicit := tags.implicitValue.isSome
  implicitValue := tags.implicitValue.getD []
  conflicts := tags.conflicts
  requiresNames := tags.requiresNames

namespace ArgSchema

/-- `push_user_spec`, with the entry of a positional spec. -/
def pushUserSpec (schema : ArgSchema) (spec : ArgSpec) : ArgSchema :=
  { schema with
    specs := schema.specs ++ [spec]
    positionalSpecs :=
      if spec.positional then schema.positionalSpecs ++ [schema.specs.length]
      else schema.positionalSpecs }

mutual

/-- One field of `collect_schema_into`. -/
def collectField (pre : Bytes) (separator : UInt8) :
    OptionField → ArgSchema → ArgSchema
  | .option reflectedName tags isBool isVector, schema =>
    if tags.ignore then schema
    else schema.pushUserSpec (makeArgSpec pre reflectedName tags isBool isVector separator)
  | .nested reflectedName tags fields, schema =>
    if tags.ignore then schema
    else
      collectSchemaInto (joinArgName pre (fieldName reflectedName tags) separator) separator fields
        schema

/-- `collect_schema_into`. -/
def collectSchemaInto (pre : Bytes) (separator : UInt8) :
    List OptionField → ArgSchema → ArgSchema
  | [], schema => schema
  | field :: fields, schema =>
    collectSchemaInto pre separator fields (collectField pre separator field schema)

end

/-- `push_config_io_spec_if_available`. -/
def pushConfigIoSpecIfAvailable (schema : ArgSchema) (name : Bytes) : ArgSchema :=
  if name = [] ∨ (schema.findLongIndex name).isSome then schema
  else { schema with specs := schema.specs ++ [{ longName := name }] }

/-- `collect_schema`. The options of the configuration files are named `builtins`, in the order in
which the enabled backends come. -/
def collectSchema (fields : List OptionField) (separator : UInt8) (builtins : List Bytes) :
    ArgSchema :=
  let schema := collectSchemaInto [] separator fields { nestedSeparator := separator }
  builtins.foldl pushConfigIoSpecIfAvailable { schema with userSpecCount := schema.specs.length }

end ArgSchema

/-! ## Definitions -/

/-- `is_valid_option_path`. -/
def isValidOptionPath (path : Bytes) (separator : UInt8) : Bool :=
  path != [] && go path true
where
  /-- The loop, with `previous_separator`. -/
  go : Bytes → Bool → Bool
    | [], previousSeparator => !previousSeparator
    | ch :: path, previousSeparator =>
      if ch == separator then !previousSeparator && go path true
      else isOptionNameCharacter ch && go path false

/-- What `validate_schema_definition` says of a bad definition. -/
def invalidDefinition (message : Bytes) : ArgParserErrorDetail :=
  { error := .invalidDefinition, message := message }

/-- `long_names` and `short_names`: the names taken so far, each with the spec that took it. -/
structure NameEntries where
  long : List (Bytes × ℕ) := []
  short : List (Bytes × ℕ) := []

namespace ArgSchema

variable (schema : ArgSchema)

/-- The condition on `nested_separator`; bytes from `0x80` on are negative as a `char`. -/
def badSeparator : Bool :=
  schema.nestedSeparator == 0 || schema.nestedSeparator == slash ||
    schema.nestedSeparator == equalsSign || isOptionNameCharacter schema.nestedSeparator ||
    schema.nestedSeparator ≤ 0x20 || 0x80 ≤ schema.nestedSeparator

/-- The label of a spec that a name entry is about. -/
def labelOf (index : ℕ) : Bytes :=
  match schema.specs[index]? with
  | some spec => formatErrorOptionLabel spec
  | none => []

/-- `check_name`. -/
def checkName (entries : List (Bytes × ℕ)) (name : Bytes) (index : ℕ) (kind : Bytes) :
    Except ArgParserErrorDetail (List (Bytes × ℕ)) :=
  match entries.find? (fun entry => entry.1 == name) with
  | some entry =>
    .error (invalidDefinition (kind ++ text " option name " ++ quoteArgValue name ++
      text " is used by both " ++ schema.labelOf entry.2 ++ text " and " ++ schema.labelOf index))
  | none => .ok (entries ++ [(name, index)])

/-- `check_name` with `long_names`. -/
def checkLong (names : NameEntries) (name : Bytes) (index : ℕ) :
    Except ArgParserErrorDetail NameEntries := do
  let long ← schema.checkName names.long name index (text "long")
  return { names with long := long }

/-- `check_name` with `short_names`. -/
def checkShort (names : NameEntries) (name : Bytes) (index : ℕ) :
    Except ArgParserErrorDetail NameEntries := do
  let short ← schema.checkName names.short name index (text "short")
  return { names with short := short }

/-- The names of an option. -/
def checkOption (spec : ArgSpec) (index : ℕ) (names : NameEntries) :
    Except ArgParserErrorDetail NameEntries := do
  let names ← schema.checkLong names spec.longName index
  match spec.shortName with
  | [] => return names
  | ch :: _ =>
    if isShortOptionCharacter ch then schema.checkShort names spec.shortName index
    else .error (invalidDefinition (formatErrorOptionLabel spec ++
      text " has an invalid short option name"))

/-- One alias. -/
def checkAlias (spec : ArgSpec) (index : ℕ) (other : Bytes) (names : NameEntries) :
    Except ArgParserErrorDetail NameEntries :=
  match other with
  | [] => .error (invalidDefinition (formatErrorOptionLabel spec ++ text " has an empty alias"))
  | [ch] =>
    if isShortOptionCharacter ch then schema.checkShort names [ch] index
    else .error (invalidDefinition (formatErrorOptionLabel spec ++
      text " has an invalid short alias"))
  | _ =>
    if isValidOptionPath other schema.nestedSeparator then schema.checkLong names other index
    else .error (invalidDefinition (formatErrorOptionLabel spec ++
      text " has an invalid long alias"))

/-- The loop over the aliases. -/
def checkAliases (spec : ArgSpec) (index : ℕ) :
    List Bytes → NameEntries → Except ArgParserErrorDetail NameEntries
  | [], names => .ok names
  | other :: aliases, names => do
    let names ← schema.checkAlias spec index other names
    checkAliases spec index aliases names

/-- The checks of one spec. -/
def checkSpec (spec : ArgSpec) (index : ℕ) (names : NameEntries) :
    Except ArgParserErrorDetail NameEntries :=
  if ¬ isValidOptionPath spec.longName schema.nestedSeparator then
    .error (invalidDefinition (formatErrorOptionLabel spec ++
      text " has an invalid long option path"))
  else if spec.positional && spec.flag then
    .error (invalidDefinition (formatErrorOptionLabel spec ++
      text " cannot be both positional and a flag"))
  else if spec.positional then schema.checkAliases spec index spec.aliases names
  else do
    let names ← schema.checkOption spec index names
    schema.checkAliases spec index spec.aliases names

/-- The loop over the specs from `index` on. -/
def checkSpecs : List ArgSpec → ℕ → NameEntries → Except ArgParserErrorDetail NameEntries
  | [], _, names => .ok names
  | spec :: specs, index, names => do
    let names ← schema.checkSpec spec index names
    checkSpecs specs (index + 1) names

/-- The loop over the positional specs: only the last one may be repeatable. -/
def checkPositionals : List ℕ → Except ArgParserErrorDetail Unit
  | [] => .ok ()
  | [_] => .ok ()
  | index :: next :: rest =>
    match schema.specs[index]? with
    | some spec =>
      if spec.repeatable then
        .error (invalidDefinition (formatErrorOptionLabel spec ++
          text " is repeatable and therefore must be the last positional option"))
      else checkPositionals (next :: rest)
    | none => checkPositionals (next :: rest)

/-- The targets of the references of one kind, of the spec at `index`. -/
def targets (spec : ArgSpec) (index : ℕ) (kind : Bytes) :
    List Bytes → Except ArgParserErrorDetail (List ℕ)
  | [] => .ok []
  | reference :: references =>
    match schema.findReferenceIndex spec reference with
    | some target =>
      if target = index then
        .error (invalidDefinition (formatErrorOptionLabel spec ++ text " references unknown " ++
          kind ++ text " " ++ quoteArgValue reference))
      else do
        let rest ← targets spec index kind references
        return target :: rest
    | none =>
      .error (invalidDefinition (formatErrorOptionLabel spec ++ text " references unknown " ++
        kind ++ text " " ++ quoteArgValue reference))

/-- One user spec with the indices of its references. -/
def resolveSpec (spec : ArgSpec) (index : ℕ) : Except ArgParserErrorDetail ArgSpec := do
  let requireIndices ← schema.targets spec index (text "requirement") spec.requiresNames
  let conflictIndices ← schema.targets spec index (text "conflict") spec.conflicts
  return { spec with requireIndices := requireIndices, conflictIndices := conflictIndices }

/-- The loop over the user specs from `index` on; the other specs stay as they are. -/
def resolveSpecs : List ArgSpec → ℕ → Except ArgParserErrorDetail (List ArgSpec)
  | [], _ => .ok []
  | spec :: specs, index =>
    if index < schema.userSpecCount then do
      let spec ← schema.resolveSpec spec index
      let specs ← resolveSpecs specs (index + 1)
      return spec :: specs
    else .ok (spec :: specs)

/-- `validate_schema_definition`. -/
def validateSchemaDefinition : Except ArgParserErrorDetail ArgSchema :=
  if schema.badSeparator then
    .error (invalidDefinition (text ("nestedSeparator must be a visible non-option-name " ++
      "character other than '/', '='")))
  else do
    let _ ← schema.checkSpecs schema.specs 0 {}
    schema.checkPositionals schema.positionalSpecs
    let specs ← schema.resolveSpecs schema.specs 0
    return { schema with specs := specs }

end ArgSchema

end NekoProto.ArgParser
