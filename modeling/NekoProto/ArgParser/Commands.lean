import NekoProto.ArgParser.Precedence

/-!
# Commands

`parse_command_set`: the options of the files may stand before the name of a command, and behind it
stand the options of the command. `try_parse_command` repeats the body of `parse_options_into`, with
the files that were named before the command.

`parseCommandSet_eq_ok`: parsing a command set is parsing the options of the first command with the
name that was given, by the plain `parse_options_into`, with the import of the root as the external
one and with the exports of the root before its own. An imported file has to name the same command.
So what `parseOptionsInto_eq_ok` says of precedence and constraints holds of commands as well.
-/

namespace NekoProto.ArgParser

open Binary (Bytes)
open Outcome (bind_eq_ok)

/-! ## Command sets -/

/-- What a command is: an `ArgCommand` placeholder, or an options type with its initializers. -/
inductive CommandType
  | placeholder
  | options (fields : OptionFields) (initial : fields.Value)

namespace CommandType

/-- The options of a command. -/
def fields : CommandType → OptionFields
  | placeholder => .nil
  | options fields _ => fields

/-- `command_t{}`. -/
def initial : (T : CommandType) → T.fields.Value
  | placeholder => ()
  | options _ initial => initial

end CommandType

/-- A field of a command set. -/
structure CommandDecl where
  reflectedName : Bytes
  longName : Bytes := []
  ignore : Bool := false
  type : CommandType

/-- `command_name_at`. -/
def CommandDecl.name (command : CommandDecl) : Bytes :=
  if command.longName = [] then command.reflectedName else command.longName

/-- What the parser of commands takes from its surroundings. -/
structure CommandSurroundings where
  text : FloatingText
  backends : List ConfigIoBackend
  getenv : Bytes → Option Bytes
  /-- `import_config_file` of a `CommandSelectorConfig`. -/
  loadSelector : ConfigIoFile → Except ArgParserErrorDetail Bytes
  /-- `import_config_file` of a `CommandConfig`: a name, and the parameters of a command. -/
  load : (T : CommandType) → ConfigIoFile → Except ArgParserErrorDetail (Bytes × T.fields.Value)
  /-- `export_config_file` of a `CommandConfig`. -/
  save : (T : CommandType) → ConfigIoFile → Bytes × T.fields.Value →
    Except ArgParserErrorDetail Unit

/-! ## The root -/

/-- `CommandRootParseResult`, with the tokens from `start_index` on. -/
structure CommandRoot where
  command : Bytes := []
  arguments : List (Option Bytes) := []
  io : ConfigIoSelection := {}

section

variable (schema : ArgSchema) (config : ArgParserConfig)

/-- The loop of `parse_command_root_arguments`: the raw values, the name of a command, and the
tokens behind it. -/
def rootArguments : List (Option Bytes) → RawParseResult →
    Except ArgParserErrorDetail (RawParseResult × Bytes × List (Option Bytes))
  | [], raw => .ok (raw, [], [])
  | token :: rest, raw =>
    let arg := token.getD []
    if config.addHelp && isHelpToken arg && !isDeclaredOptionToken schema arg then
      .error { error := .helpRequested }
    else if config.addVersion && config.version != [] && isVersionToken arg &&
        !isDeclaredOptionToken schema arg then
      .error { error := .versionRequested }
    else if arg = [minus, minus] then
      match rest with
      | some command :: rest => .ok (raw, command, rest)
      | _ => .ok (raw, [], [])
    else if [minus, minus].isPrefixOf arg then
      if schema.specs = [] then
        if config.allowUnknown then rootArguments rest raw
        else .error { error := .unknownOption, message := arg }
      else
        match parseLong schema config raw (arg.drop 2) (rest.head?.join), rest with
        | .error e, _ => .error e
        | .ok (raw, true), _ :: rest => rootArguments rest raw
        | .ok (raw, _), rest => rootArguments rest raw
    else if isOptionToken arg then
      if config.allowUnknown then rootArguments rest raw
      else .error { error := .unknownOption, message := arg }
    else .ok (raw, arg, rest)

end

variable (world : CommandSurroundings) (config : ParserConfig)

/-- `parse_command_root_arguments`. -/
def parseCommandRootArguments (argv : List (Option Bytes)) :
    Except ArgParserErrorDetail CommandRoot := do
  let full ← collectedSchema .nil world.backends config
  let (raw, command, arguments) ← rootArguments full.schema config.raw argv
    (full.schema.specs.map fun _ => [])
  let io ← collectConfigIoSelection full raw full.builtinIndices {}
  let root : CommandRoot ←
    match command, io.importFile with
    | [], some file => do
      let command ← world.loadSelector file
      pure { command := command, io := io }
    | command, _ => pure { command := command, arguments := arguments, io := io }
  if root.command = [] then
    .error { error := .missingRequired, message := text "command name is required" }
  else return root

/-! ## One command -/

/-- `merge_config_io_selection`. -/
def mergeConfigIoSelection (target source : ConfigIoSelection) :
    Except ArgParserErrorDetail ConfigIoSelection :=
  if source.importFile.isSome && target.importFile.isSome then
    .error { error := .invalidValue
             message := text "only one config import option can be used at a time" }
  else
    .ok { importFile := source.importFile.or target.importFile
          exportFiles := target.exportFiles ++ source.exportFiles }

/-- `validate_imported_command_name`. -/
def validateImportedCommandName (expected actual : Bytes) : Except ArgParserErrorDetail Unit :=
  if actual = expected then .ok ()
  else
    .error { error := .invalidValue
             message := text "imported config command " ++ quoteArgValue actual ++
               text " does not match selected command " ++ quoteArgValue expected }

/-- The imports of a command: the parameters of a `CommandConfig` with the name of the command. -/
def loadCommand (T : CommandType) (command : Bytes) (file : ConfigIoFile) :
    Except ArgParserErrorDetail T.fields.Value := do
  let imported ← world.load T file
  validateImportedCommandName command imported.1
  return imported.2

/-- What one command takes from its surroundings. -/
def CommandSurroundings.ofCommand (T : CommandType) (command : Bytes) :
    Surroundings T.fields.Value where
  text := world.text
  backends := world.backends
  getenv := world.getenv
  load := loadCommand world T command
  save file value := world.save T file (command, value)

/-- `try_parse_command`, for a command with the right name. -/
def tryParseCommand (root : CommandRoot) :
    (T : CommandType) → Except ArgParserErrorDetail (T.fields.Value × ConfigIoSelection)
  | .placeholder => do
    let full ← collectedSchema .nil world.backends config
    let raw ← parseRawArguments full.schema config.raw root.arguments
    let localIo ← collectConfigIoSelection full raw full.builtinIndices {}
    let commandIo ← mergeConfigIoSelection root.io localIo
    match commandIo.importFile with
    | none => return ((), commandIo)
    | some file => do
      let _ ← loadCommand world .placeholder root.command file
      return ((), commandIo)
  | .options fields initial => do
    let full ← collectedSchema fields world.backends config
    let raw ← parseRawArguments full.schema config.raw root.arguments
    if full.schema.specs.length ≠ raw.length then
      .error (invalidDefinition (text "schema and raw option counts differ"))
    else
      let localIo ← collectConfigIoSelection full raw full.builtinIndices {}
      let commandIo ← mergeConfigIoSelection root.io localIo
      let (object, supplied) ← applyDefaultsInto world.text full fields initial
        (full.schema.specs.map fun _ => false)
      let (object, supplied) ←
        match commandIo.importFile with
        | none => pure (object, supplied)
        | some file => do
          let object ← loadCommand world (.options fields initial) root.command file
          let supplied ← markImportedOptionsSupplied full fields object supplied
          pure (object, supplied)
      let (object, supplied) ← materializeExplicitOptionsInto world.text full world.getenv raw
        fields object supplied
      validateMaterializedOptions full fields object supplied
      return (object, commandIo)

/-! ## The set -/

/-- The result of a command set: the command that was selected, with its options. -/
abbrev Selected (commands : List CommandDecl) : Type :=
  (k : Fin commands.length) × (commands.get k).type.fields.Value

/-- The command with a name: the first one that is not ignored. -/
def findCommand (commands : List CommandDecl) (name : Bytes) : Option (Fin commands.length) :=
  (List.finRange commands.length).find? fun k =>
    !(commands.get k).ignore && (commands.get k).name == name

/-- `parse_command_set`. -/
def parseCommandSet (commands : List CommandDecl) (argv : List (Option Bytes)) :
    Except ArgParserErrorDetail (Selected commands) := do
  let root ← parseCommandRootArguments world config argv
  match findCommand commands root.command with
  | none => .error { error := .unknownCommand, message := quoteArgValue root.command }
  | some k => do
    let (value, selectedIo) ← tryParseCommand world config root (commands.get k).type
    exportConfigFiles (fun file value => world.save (commands.get k).type file
      ((commands.get k).name, value)) value selectedIo.exportFiles
    return ⟨k, value⟩

/-! ## Commands are parsed as options -/

section

variable {world : CommandSurroundings} {config : ParserConfig} {root : CommandRoot}
  {io rootIo localIo : ConfigIoSelection}

theorem mergeConfigIoSelection_eq_ok :
    mergeConfigIoSelection rootIo localIo = .ok io ↔
      (rootIo.importFile = none ∨ localIo.importFile = none) ∧
        io = { importFile := rootIo.importFile.or localIo.importFile
               exportFiles := rootIo.exportFiles ++ localIo.exportFiles } := by
  rcases rootIo with ⟨rootImport, rootExports⟩
  rcases localIo with ⟨localImport, localExports⟩
  unfold mergeConfigIoSelection
  cases rootImport <;> cases localImport <;> simp [eq_comm]

/-- A placeholder has no options to settle. -/
theorem materializeObject_nil {world : Surroundings OptionFields.nil.Value} {full : OptionSchema}
    {raw : RawParseResult} (hfits : full.Fits .nil) (hraw : raw.length = full.schema.specs.length)
    {importFile : Option ConfigIoFile} :
    materializeObject world full raw importFile () = .ok () ↔
      ∃ imported, Imports world.load importFile imported := by
  refine (materializeObject_settledBy hfits hraw).trans
    (exists_congr fun imported => and_iff_left_iff_imp.mpr fun _ => ?_)
  exact ⟨trivial, nofun, nofun, nofun, nofun⟩

/-- **A command is parsed as its options are**, with the import of the root as the external one. -/
theorem tryParseCommand_eq_ok {T : CommandType} {value : T.fields.Value} :
    tryParseCommand world config root T = .ok (value, io) ↔
      ∃ full raw localIo, collectedSchema T.fields world.backends config = .ok full ∧
        parseRawArguments full.schema config.raw root.arguments = .ok raw ∧
        collectConfigIoSelection full raw full.builtinIndices {} = .ok localIo ∧
        (root.io.importFile = none ∨ localIo.importFile = none) ∧
        materializeObject (world.ofCommand T root.command) full raw
          (root.io.importFile.or localIo.importFile) T.initial = .ok value ∧
        io = { importFile := root.io.importFile.or localIo.importFile
               exportFiles := root.io.exportFiles ++ localIo.exportFiles } := by
  cases T with
  | placeholder =>
    have hload : ∀ {file : Option ConfigIoFile} {commandIo : ConfigIoSelection},
        (match file with
          | none => pure ((), commandIo)
          | some file => do
            let _ ← loadCommand world .placeholder root.command file
            return ((), commandIo)) = Except.ok (value, io) ↔
          (∃ imported, Imports (loadCommand world .placeholder root.command) file imported) ∧
            io = commandIo := by
      intro file commandIo
      cases file with
      | none =>
        constructor
        · intro h
          cases h
          exact ⟨⟨none, rfl⟩, rfl⟩
        · rintro ⟨-, rfl⟩
          rfl
      | some file =>
        simp only [bind_eq_ok, pure_eq_ok]
        constructor
        · rintro ⟨imported, himported, heq⟩
          cases heq
          exact ⟨⟨some imported, imported, himported, rfl⟩, rfl⟩
        · rintro ⟨⟨_, imported, himported, rfl⟩, rfl⟩
          exact ⟨imported, himported, rfl⟩
    unfold tryParseCommand
    simp only [bind_eq_ok, mergeConfigIoSelection_eq_ok]
    constructor
    · rintro ⟨full, hschema, raw, hraw, localIo, hfiles, _, ⟨hone, rfl⟩, h⟩
      obtain ⟨himports, rfl⟩ := hload.mp h
      exact ⟨full, raw, localIo, hschema, hraw, hfiles, hone, (materializeObject_nil
        (OptionSchema.collectedSchema_fits hschema) (raw_length hschema hraw)).mpr himports, rfl⟩
    · rintro ⟨full, raw, localIo, hschema, hraw, hfiles, hone, hobject, rfl⟩
      exact ⟨full, hschema, raw, hraw, localIo, hfiles, _, ⟨hone, rfl⟩,
        hload.mpr ⟨(materializeObject_nil (OptionSchema.collectedSchema_fits hschema)
          (raw_length hschema hraw)).mp hobject, rfl⟩⟩
  | options fields initial =>
    have hobject : ∀ {full : OptionSchema} {raw : RawParseResult} {commandIo : ConfigIoSelection},
        (do
          let (object, supplied) ← applyDefaultsInto world.text full fields initial
            (full.schema.specs.map fun _ => false)
          let (object, supplied) ←
            match commandIo.importFile with
            | none => pure (object, supplied)
            | some file => do
              let object ← loadCommand world (.options fields initial) root.command file
              let supplied ← markImportedOptionsSupplied full fields object supplied
              pure (object, supplied)
          let (object, supplied) ← materializeExplicitOptionsInto world.text full world.getenv raw
            fields object supplied
          validateMaterializedOptions full fields object supplied
          return (object, commandIo)) = Except.ok (value, io) ↔
        materializeObject (world.ofCommand (.options fields initial) root.command) full raw
          commandIo.importFile initial = .ok value ∧ io = commandIo := by
      intro full raw commandIo
      unfold materializeObject importInto
      cases commandIo.importFile with
      | none =>
        simp only [bind_eq_ok, Prod.exists, pure_eq_ok, Prod.mk.injEq]
        constructor
        · rintro ⟨_, _, hdefault, _, _, ⟨rfl, rfl⟩, _, _, hexplicit, ⟨⟩, hvalid, heq⟩
          cases heq
          exact ⟨⟨_, _, hdefault, _, _, rfl, _, _, hexplicit, (), hvalid, rfl⟩, rfl⟩
        · rintro ⟨⟨_, _, hdefault, _, _, heq, _, _, hexplicit, ⟨⟩, hvalid, rfl⟩, rfl⟩
          cases heq
          exact ⟨_, _, hdefault, _, _, ⟨rfl, rfl⟩, _, _, hexplicit, (), hvalid, rfl⟩
      | some file =>
        simp only [bind_eq_ok, Prod.exists, pure_eq_ok, Prod.mk.injEq]
        constructor
        · rintro ⟨_, _, hdefault, _, hload, _, hmark, _, _, heq, _, _, hexplicit, ⟨⟩, hvalid,
            heq'⟩
          cases heq
          cases heq'
          exact ⟨⟨_, _, hdefault, _, _, ⟨_, hload, _, hmark, rfl, rfl⟩, _, _, hexplicit, (), hvalid,
            rfl⟩, rfl⟩
        · rintro ⟨⟨_, _, hdefault, _, _, ⟨_, hload, _, hmark, rfl, rfl⟩, _, _, hexplicit, ⟨⟩,
            hvalid, rfl⟩, rfl⟩
          exact ⟨_, _, hdefault, _, hload, _, hmark, _, _, rfl, _, _, hexplicit, (), hvalid, rfl⟩
    unfold tryParseCommand
    simp only [bind_eq_ok]
    constructor
    · rintro ⟨full, hschema, raw, hraw, h⟩
      rw [if_neg (not_not.mpr (raw_length hschema hraw).symm)] at h
      obtain ⟨localIo, hfiles, h⟩ := bind_eq_ok.mp h
      obtain ⟨commandIo, hmerge, h⟩ := bind_eq_ok.mp h
      obtain ⟨hone, rfl⟩ := mergeConfigIoSelection_eq_ok.mp hmerge
      obtain ⟨hvalue, rfl⟩ := hobject.mp h
      exact ⟨full, raw, localIo, hschema, hraw, hfiles, hone, hvalue, rfl⟩
    · rintro ⟨full, raw, localIo, hschema, hraw, hfiles, hone, hvalue, rfl⟩
      refine ⟨full, hschema, raw, hraw, ?_⟩
      rw [if_neg (not_not.mpr (raw_length hschema hraw).symm)]
      exact bind_eq_ok.mpr ⟨localIo, hfiles, bind_eq_ok.mpr
        ⟨_, mergeConfigIoSelection_eq_ok.mpr ⟨hone, rfl⟩, hobject.mpr ⟨hvalue, rfl⟩⟩⟩

/-- The name of the command that is found. -/
theorem findCommand_name {commands : List CommandDecl} {name : Bytes} {k : Fin commands.length}
    (h : findCommand commands name = some k) : (commands.get k).name = name := by
  have hfound := List.find?_some h
  exact eq_of_beq (Bool.and_eq_true_iff.mp hfound).2

/-- **Parsing a command set** is parsing the options of the command that is named, by
`parseOptionsInto`, with the import of the root as the external one, and with the exports of the
root before those of the command. -/
theorem parseCommandSet_eq_ok {commands : List CommandDecl} {argv : List (Option Bytes)}
    {k : Fin commands.length} {value : (commands.get k).type.fields.Value} :
    parseCommandSet world config commands argv = .ok ⟨k, value⟩ ↔
      ∃ root full raw localIo, parseCommandRootArguments world config argv = .ok root ∧
        findCommand commands root.command = some k ∧
        collectedSchema (commands.get k).type.fields world.backends config = .ok full ∧
        parseRawArguments full.schema config.raw root.arguments = .ok raw ∧
        collectConfigIoSelection full raw full.builtinIndices {} = .ok localIo ∧
        parseOptionsInto (world.ofCommand (commands.get k).type root.command) config root.arguments
          root.io.importFile
          (some { exportFiles := root.io.exportFiles ++ localIo.exportFiles })
          (commands.get k).type.initial = .ok value := by
  unfold parseCommandSet
  simp only [bind_eq_ok, parseOptionsInto_cases]
  constructor
  · rintro ⟨root, hroot, h⟩
    cases hfind : findCommand commands root.command with
    | none =>
      rw [hfind] at h
      cases h
    | some k' =>
      rw [hfind] at h
      obtain ⟨⟨value', io⟩, htry, h⟩ := bind_eq_ok.mp h
      obtain ⟨⟨⟩, hexport, heq⟩ := bind_eq_ok.mp h
      cases heq
      obtain ⟨full, raw, localIo, hschema, hraw, hfiles, hone, hobject, rfl⟩ :=
        tryParseCommand_eq_ok.mp htry
      rw [findCommand_name hfind] at hexport
      exact ⟨root, full, raw, localIo, hroot, hfind, hschema, hraw, hfiles, full, raw, localIo,
        hschema, hraw, hfiles, hone, hobject, hexport⟩
  · rintro ⟨root, full, raw, localIo, hroot, hfind, hschema, hraw, hfiles, full', raw', localIo',
      hschema', hraw', hfiles', hone, hobject, hexport⟩
    cases hschema.symm.trans hschema'
    cases hraw.symm.trans hraw'
    cases hfiles.symm.trans hfiles'
    refine ⟨root, hroot, ?_⟩
    rw [hfind]
    refine bind_eq_ok.mpr ⟨_, tryParseCommand_eq_ok.mpr ⟨full, raw, localIo, hschema, hraw, hfiles,
      hone, hobject, rfl⟩, bind_eq_ok.mpr ⟨(), ?_, rfl⟩⟩
    rw [findCommand_name hfind]
    exact hexport

example :
    (parseCommandSet
      { text := ⟨fun _ => none, fun _ => none, fun _ => []⟩
        backends := [{ format := text "json", defaultImportName := text "config-json",
                       defaultExportName := text "output-config-json" }]
        getenv := fun _ => none
        loadSelector := fun _ => .error (makeErrorCode .invalidValue)
        load := fun T _ => .ok (text "run", T.initial)
        save := fun _ _ _ => .ok () }
      { configIo := some { importFormats := [text "json"] } }
      [{ reflectedName := text "stop", type := .placeholder },
       { reflectedName := text "run", type := .options searchOptions ([], text "1", ()) }]
      [some (text "--config-json"), some (text "c.json"), some (text "run"),
       some (text "--include=a")]).toOption.map Sigma.fst = some 1 := by decide +kernel

end

end NekoProto.ArgParser
