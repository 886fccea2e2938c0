import NekoProto.ArgParser.Materializer

/-!
# Parsing into an options object

`argparser.hpp`: the command line, the environment, a configuration file, the defaults and the
initializers of an options type become an object (`parseOptionsInto`).

1. An options type is the list of its fields, and an object has a value for each of them. The passes
   over an object (`Reflect<T>::forEach`) count the options, to find the spec of each one.
2. The options of the configuration files come behind those of the user.
3. The environment (`std::getenv`) and the configuration files (`config_io::load` and
   `config_io::save`) are parameters.
-/

namespace NekoProto.ArgParser

open Binary (Bytes)

/-! ## Options types -/

/-- A field with an option. -/
structure OptionDecl where
  reflectedName : Bytes
  tags : FieldTags := {}
  value : ValueSpec := {}
  type : FieldType
  default : Option (DefaultValue type) := none

/-- The fields of an options type: options, and nested options types. -/
inductive OptionFields
  | nil
  | option (decl : OptionDecl) (rest : OptionFields)
  | nested (reflectedName : Bytes) (tags : FieldTags) (fields rest : OptionFields)

namespace OptionFields

/-- The objects of an options type. -/
def Value : OptionFields → Type
  | nil => Unit
  | option decl rest => decl.type.Value × rest.Value
  | nested _ _ fields rest => fields.Value × rest.Value

/-- What `collect_schema_into` looks at. -/
def toList : OptionFields → List OptionField
  | nil => []
  | option decl rest =>
    .option decl.reflectedName decl.tags decl.type.isBool decl.type.isVector :: rest.toList
  | nested reflectedName tags fields rest => .nested reflectedName tags fields.toList :: rest.toList

/-- The fields whose specs are collected, in their order. -/
def options : OptionFields → List OptionDecl
  | nil => []
  | option decl rest => if decl.tags.ignore then rest.options else decl :: rest.options
  | nested _ tags fields rest =>
    if tags.ignore then rest.options else fields.options ++ rest.options

end OptionFields

/-! ## Configuration files -/

/-- `ConfigIoDirection`. -/
inductive ConfigIoDirection
  | fromFile | toFile
  deriving DecidableEq, Repr

/-- `ConfigIoBuiltinSpec`. -/
structure ConfigIoBuiltinSpec where
  direction : ConfigIoDirection
  format : Bytes
  deriving DecidableEq, Repr

/-- `ArgParserConfigIoOptionNames`. -/
structure ConfigIoOptionNames where
  format : Bytes
  importName : Option Bytes := none
  exportName : Option Bytes := none

/-- `ArgParserConfigIoOptions`. -/
structure ConfigIoOptions where
  importFormats : List Bytes := []
  exportFormats : List Bytes := []
  optionNames : List ConfigIoOptionNames := []

/-- A backend of `ConfigIoBackendRegistry`. Which ones are available depends on the build. -/
structure ConfigIoBackend where
  format : Bytes
  aliases : List Bytes := []
  defaultImportName : Bytes
  defaultExportName : Bytes
  available : Bool := true

namespace ConfigIoBackend

variable (backend : ConfigIoBackend)

/-- `config_io_format_matches`. -/
def answers (format : Bytes) : Bool :=
  format == backend.format || backend.aliases.any fun other => format == other

/-- `config_io_option_name`. -/
def optionName (io : ConfigIoOptions) (direction : ConfigIoDirection) : Bytes :=
  let named (names : ConfigIoOptionNames) : Option Bytes :=
    if ¬ backend.answers names.format then none
    else if direction = .fromFile then names.importName else names.exportName
  (io.optionNames.findSome? named).getD
    (if direction = .fromFile then backend.defaultImportName else backend.defaultExportName)

/-- `append_config_io_backend_specs`, without the test whether the names are free. -/
def builtins (io : ConfigIoOptions) : List (Bytes × ConfigIoBuiltinSpec) :=
  let enabled (formats : List Bytes) (direction : ConfigIoDirection) :=
    if backend.available && formats.any backend.answers then
      [(backend.optionName io direction,
        ({ direction := direction, format := backend.format } : ConfigIoBuiltinSpec))]
    else []
  enabled io.importFormats .fromFile ++ enabled io.exportFormats .toFile

end ConfigIoBackend

/-- `append_config_io_specs`: the options of the files, with their names. -/
def configIoBuiltins (backends : List ConfigIoBackend) :
    Option ConfigIoOptions → List (Bytes × ConfigIoBuiltinSpec)
  | none => []
  | some io => backends.flatMap (·.builtins io)

/-- `ConfigIoFile`. -/
structure ConfigIoFile where
  format : Bytes
  path : Bytes
  deriving DecidableEq, Repr

/-- `ConfigIoSelection`. -/
structure ConfigIoSelection where
  importFile : Option ConfigIoFile := none
  exportFiles : List ConfigIoFile := []
  deriving DecidableEq, Repr

/-! ## Schemas -/

/-- `ArgSchema`, with all members of its specs. -/
structure OptionSchema where
  schema : ArgSchema
  values : List ValueSpec
  builtinSpecs : List (Option ConfigIoBuiltinSpec)

namespace OptionSchema

/-- `push_config_io_spec_if_available`. -/
def pushBuiltin (full : OptionSchema) (builtin : Bytes × ConfigIoBuiltinSpec) : OptionSchema :=
  if builtin.1 = [] ∨ (full.schema.findLongIndex builtin.1).isSome then full
  else
    { schema := full.schema.pushConfigIoSpecIfAvailable builtin.1
      values := full.values ++ [{}]
      builtinSpecs := full.builtinSpecs ++ [some builtin.2] }

/-- `collect_schema`. -/
def collect (fields : OptionFields) (separator : UInt8)
    (builtins : List (Bytes × ConfigIoBuiltinSpec)) : OptionSchema :=
  let schema := ArgSchema.collectSchemaInto [] separator fields.toList
    { nestedSeparator := separator }
  builtins.foldl pushBuiltin
    { schema := { schema with userSpecCount := schema.specs.length }
      values := fields.options.map OptionDecl.value
      builtinSpecs := fields.options.map fun _ => none }

/-- `schema.specs[spec_index]`, where `spec_index` has to be below `user_spec_count`. -/
def userSpec (full : OptionSchema) (index : ℕ) : Option OptionSpec :=
  if index < full.schema.userSpecCount then
    match full.schema.specs[index]?, full.values[index]? with
    | some arg, some value => some ⟨arg, value⟩
    | _, _ => none
  else none

end OptionSchema

/-- `collect_config_io_selection`. -/
def collectConfigIoSelection (full : OptionSchema) (raw : RawParseResult) :
    List ℕ → ConfigIoSelection → Except ArgParserErrorDetail ConfigIoSelection
  | [], selection => .ok selection
  | index :: indices, selection =>
    match raw.getD index [], full.builtinSpecs.getD index none with
    | [], _ => collectConfigIoSelection full raw indices selection
    | [_], none => collectConfigIoSelection full raw indices selection
    | [path], some ⟨.fromFile, format⟩ =>
      if selection.importFile.isSome then
        .error { error := .invalidValue
                 message := text "only one config import option can be used at a time" }
      else collectConfigIoSelection full raw indices
        { selection with importFile := some ⟨format, path⟩ }
    | [path], some ⟨.toFile, format⟩ =>
      collectConfigIoSelection full raw indices
        { selection with exportFiles := selection.exportFiles ++ [⟨format, path⟩] }
    | _ :: _ :: _, _ =>
      .error { error := .invalidValue
               message := formatErrorOptionLabel (full.schema.specAt index) ++
                 text " expects exactly one path" }

/-- The indices behind the options of the user. -/
def OptionSchema.builtinIndices (full : OptionSchema) : List ℕ :=
  (List.range full.schema.specs.length).drop full.schema.userSpecCount

/-! ## Passes -/

/-- `PresenceList`. -/
abbrev PresenceList := List Bool

/-- What a pass does with the field of an option. -/
abbrev Visit (σ : Type) :=
  (option : OptionDecl) → ℕ → option.type.Value → σ →
    Except ArgParserErrorDetail (option.type.Value × σ)

/-- `Reflect<T>::forEach` over the options of an object, with `spec_index`. -/
def forEachOption {σ : Type} (visit : Visit σ) :
    (fields : OptionFields) → fields.Value → ℕ → σ →
      Except ArgParserErrorDetail (fields.Value × ℕ × σ)
  | .nil, object, index, s => .ok (object, index, s)
  | .option decl rest, (field, object), index, s =>
    if decl.tags.ignore then do
      let (object, index, s) ← forEachOption visit rest object index s
      return ((field, object), index, s)
    else do
      let (field, s) ← visit decl index field s
      let (object, index, s) ← forEachOption visit rest object (index + 1) s
      return ((field, object), index, s)
  | .nested _ tags fields rest, (inner, object), index, s =>
    if tags.ignore then do
      let (object, index, s) ← forEachOption visit rest object index s
      return ((inner, object), index, s)
    else do
      let (inner, index, s) ← forEachOption visit fields inner index s
      let (object, index, s) ← forEachOption visit rest object index s
      return ((inner, object), index, s)

/-- What a pass says of a field that no spec is left for. -/
def outOfRange (doing : String) (option : OptionDecl) : ArgParserErrorDetail :=
  invalidDefinition (text "schema index is out of range while " ++ text doing ++
    text " field " ++ quoteArgValue option.reflectedName)

/-- A pass over all options of an object, which has to reach all specs. -/
def wholePass {σ : Type} (full : OptionSchema) (visit : Visit σ) (missed : String)
    (fields : OptionFields) (object : fields.Value) (s : σ) :
    Except ArgParserErrorDetail (fields.Value × σ) := do
  let (object, index, s) ← forEachOption visit fields object 0 s
  if index ≠ full.schema.userSpecCount then .error (invalidDefinition (text missed))
  else return (object, s)

section

variable (lib : FloatingText) (full : OptionSchema)

/-- The body of `apply_default_fields`. -/
def visitDefault : Visit PresenceList := fun option index field supplied =>
  match full.userSpec index with
  | none => .error (outOfRange "applying default for" option)
  | some spec => do
    let (field, defaultSupplied) ← applyDefaultOption lib spec option.default field
    return (field, if defaultSupplied then supplied.set index true else supplied)

/-- `apply_defaults_into`. -/
def applyDefaultsInto (fields : OptionFields) (object : fields.Value) (supplied : PresenceList) :
    Except ArgParserErrorDetail (fields.Value × PresenceList) :=
  wholePass full (visitDefault lib full) "not all schema fields received defaults" fields object
    supplied

/-- The body of `materialize_fields`. -/
def visitExplicit (getenv : Bytes → Option Bytes) (raw : RawParseResult) : Visit PresenceList :=
  fun option index field supplied =>
    match full.userSpec index, raw[index]? with
    | some spec, some values => do
      let (field, optionSupplied) ←
        materializeOneOption lib spec getenv values (supplied.getD index false) field
      return (field, if optionSupplied then supplied.set index true else supplied)
    | _, _ => .error (outOfRange "materializing" option)

/-- `materialize_explicit_options_into`. -/
def materializeExplicitOptionsInto (getenv : Bytes → Option Bytes) (raw : RawParseResult)
    (fields : OptionFields) (object : fields.Value) (supplied : PresenceList) :
    Except ArgParserErrorDetail (fields.Value × PresenceList) :=
  wholePass full (visitExplicit lib full getenv raw) "not all schema fields were materialized"
    fields object supplied

/-- The body of `mark_imported_fields_supplied`. -/
def visitImported : Visit PresenceList := fun option index field supplied =>
  if index < full.schema.userSpecCount ∧ index < supplied.length then
    .ok (field, supplied.set index (importedFieldSupplied option.type field))
  else .error (outOfRange "marking imported" option)

/-- `mark_imported_options_supplied`. -/
def markImportedOptionsSupplied (fields : OptionFields) (object : fields.Value)
    (supplied : PresenceList) : Except ArgParserErrorDetail PresenceList := do
  let cleared := (supplied.take full.schema.userSpecCount).map (fun _ => false) ++
    supplied.drop full.schema.userSpecCount
  let (_, supplied) ← wholePass full (visitImported full)
    "not all imported schema fields were marked" fields object cleared
  return supplied

/-- The body of `mark_active_fields`. -/
def visitActive (supplied : PresenceList) : Visit PresenceList := fun option index field active =>
  if index < full.schema.userSpecCount ∧ index < supplied.length ∧ index < active.length then
    .ok (field,
      active.set index (fieldRelationshipActive (supplied.getD index false) option.type field))
  else .error (outOfRange "evaluating" option)

/-- `mark_active_options`. -/
def markActiveOptions (fields : OptionFields) (object : fields.Value) (supplied : PresenceList) :
    Except ArgParserErrorDetail PresenceList := do
  let (_, active) ← wholePass full (visitActive full supplied)
    "not all schema fields were evaluated" fields object (full.schema.specs.map fun _ => false)
  return active

end

/-! ## Constraints between options -/

section

variable (schema : ArgSchema)

/-- The loop of `validate_required_options`. -/
def validateRequiredOptions (supplied : PresenceList) : List ℕ → Except ArgParserErrorDetail Unit
  | [] => .ok ()
  | index :: indices =>
    if (schema.specAt index).required && !supplied.getD index false then
      .error { error := .missingRequired
               message := formatErrorOptionLabel (schema.specAt index) ++ text " is required" }
    else validateRequiredOptions supplied indices

/-- The loop over `require_indices`. -/
def checkRequirements (active : PresenceList) (index : ℕ) :
    List ℕ → Except ArgParserErrorDetail Unit
  | [] => .ok ()
  | required :: rest =>
    if schema.specs.length ≤ required ∨ required = index then
      .error (invalidDefinition (formatErrorOptionLabel (schema.specAt index) ++
        text " has an invalid normalized requirement reference"))
    else if active.getD required false = false then
      .error { error := .missingRequired
               message := formatErrorOptionLabel (schema.specAt index) ++ text " requires " ++
                 formatErrorOptionLabel (schema.specAt required) }
    else checkRequirements active index rest

/-- The loop over `conflict_indices`. -/
def checkConflicts (active : PresenceList) (index : ℕ) : List ℕ → Except ArgParserErrorDetail Unit
  | [] => .ok ()
  | conflict :: rest =>
    if schema.specs.length ≤ conflict ∨ conflict = index then
      .error (invalidDefinition (formatErrorOptionLabel (schema.specAt index) ++
        text " has an invalid normalized conflict reference"))
    else if active.getD conflict false then
      .error { error := .invalidValue
               message := formatErrorOptionLabel (schema.specAt index) ++ text " conflicts with " ++
                 formatErrorOptionLabel (schema.specAt conflict) }
    else checkConflicts active index rest

/-- The loop of `validate_cross_field_constraints`. -/
def validateCrossFieldConstraints (active : PresenceList) :
    List ℕ → Except ArgParserErrorDetail Unit
  | [] => .ok ()
  | index :: indices =>
    if active.getD index false = false then validateCrossFieldConstraints active indices
    else do
      checkRequirements schema active index (schema.specAt index).requireIndices
      checkConflicts schema active index (schema.specAt index).conflictIndices
      validateCrossFieldConstraints active indices

end

/-- `validate_materialized_options`. -/
def validateMaterializedOptions (full : OptionSchema) (fields : OptionFields)
    (object : fields.Value) (supplied : PresenceList) : Except ArgParserErrorDetail Unit := do
  validateRequiredOptions full.schema supplied (List.range full.schema.userSpecCount)
  let active ← markActiveOptions full fields object supplied
  validateCrossFieldConstraints full.schema active (List.range full.schema.userSpecCount)

/-! ## Parsing -/

/-- `ArgParserConfig`. -/
structure ParserConfig where
  raw : ArgParserConfig := {}
  nestedSeparator : UInt8 := dot
  configIo : Option ConfigIoOptions := none

/-- What the parser takes from its surroundings. -/
structure Surroundings (Value : Type) where
  text : FloatingText
  backends : List ConfigIoBackend
  getenv : Bytes → Option Bytes
  /-- `import_config_file`. -/
  load : ConfigIoFile → Except ArgParserErrorDetail Value
  /-- `export_config_file`. -/
  save : ConfigIoFile → Value → Except ArgParserErrorDetail Unit

/-- `export_config_files`. -/
def exportConfigFiles {Value : Type}
    (save : ConfigIoFile → Value → Except ArgParserErrorDetail Unit) (value : Value) :
    List ConfigIoFile → Except ArgParserErrorDetail Unit
  | [] => .ok ()
  | file :: files => do
    save file value
    exportConfigFiles save value files

section

variable {fields : OptionFields} (world : Surroundings fields.Value)

/-- The schema of an options type, which has to be a definition. -/
def collectedSchema (fields : OptionFields) (backends : List ConfigIoBackend)
    (config : ParserConfig) : Except ArgParserErrorDetail OptionSchema := do
  let full := OptionSchema.collect fields config.nestedSeparator
    (configIoBuiltins backends config.configIo)
  let schema ← full.schema.validateSchemaDefinition
  return { full with schema := schema }

/-- A configuration file replaces the object, and says anew what is supplied. -/
def importInto (full : OptionSchema) (importFile : Option ConfigIoFile) (object : fields.Value)
    (supplied : PresenceList) : Except ArgParserErrorDetail (fields.Value × PresenceList) :=
  match importFile with
  | none => .ok (object, supplied)
  | some file => do
    let object ← world.load file
    let supplied ← markImportedOptionsSupplied full fields object supplied
    return (object, supplied)

/-- The values of an object behind the raw parser: the defaults, a configuration file, and what is
given explicitly. -/
def materializeObject (full : OptionSchema) (raw : RawParseResult)
    (importFile : Option ConfigIoFile) (object : fields.Value) :
    Except ArgParserErrorDetail fields.Value := do
  let (object, supplied) ← applyDefaultsInto world.text full fields object
    (full.schema.specs.map fun _ => false)
  let (object, supplied) ← importInto world full importFile object supplied
  let (object, supplied) ←
    materializeExplicitOptionsInto world.text full world.getenv raw fields object supplied
  validateMaterializedOptions full fields object supplied
  return object

/-- `parse_options_into`, with the tokens from `start_index` on. -/
def parseOptionsInto (config : ParserConfig) (argv : List (Option Bytes))
    (externalImport : Option ConfigIoFile) (externalExports : Option ConfigIoSelection)
    (object : fields.Value) : Except ArgParserErrorDetail fields.Value := do
  let full ← collectedSchema fields world.backends config
  let raw ← parseRawArguments full.schema config.raw argv
  if full.schema.specs.length ≠ raw.length then
    .error (invalidDefinition (text "schema and raw option counts differ"))
  else
    let localIo ← collectConfigIoSelection full raw full.builtinIndices {}
    if externalImport.isSome && localIo.importFile.isSome then
      .error { error := .invalidValue
               message := text "only one config import option can be used at a time" }
    else
      let object ← materializeObject world full raw (externalImport.or localIo.importFile) object
      exportConfigFiles world.save object (externalExports.getD localIo).exportFiles
      return object

end

end NekoProto.ArgParser
