import NekoProto.ArgParser.Schema
import Mathlib.Tactic.Common

/-!
# The raw parser

`argparser/detail/raw_parser.hpp`: the tokens of a command line are sorted into the values of each
spec, before anything is converted.

An element of `argv` is a text or null. `parse_raw_arguments` advances `idx` past a value that it
takes from the next token; here a step says whether it took one (`Bool`), and the loop goes on
behind it.
-/

namespace NekoProto.ArgParser

open Binary (Bytes)

/-- The members of `ArgParserConfig` that the raw parser reads. -/
structure ArgParserConfig where
  version : Bytes := []
  allowUnknown : Bool := false
  addHelp : Bool := true
  addVersion : Bool := true
  allowShortCluster : Bool := false
  deriving DecidableEq, Repr

/-- `RawParseResult`: the values of each spec. -/
abbrev RawParseResult := List (List Bytes)

/-! ## Tokens -/

/-- `is_option_token`. -/
def isOptionToken (arg : Bytes) : Bool := 1 < arg.length && [minus].isPrefixOf arg

/-- `is_help_token`. -/
def isHelpToken (arg : Bytes) : Bool := arg == text "--help" || arg == text "-h"

/-- `is_version_token`. -/
def isVersionToken (arg : Bytes) : Bool := arg == text "--version" || arg == text "-V"

/-- `body` up to the first `'='`, and what stands behind it. -/
def cutEqual (body : Bytes) : Bytes × Option Bytes :=
  match body.dropWhile (· != equalsSign) with
  | [] => (body, none)
  | _ :: value => (body.takeWhile (· != equalsSign), some value)

/-- `is_declared_option_token`. -/
def isDeclaredOptionToken (schema : ArgSchema) (arg : Bytes) : Bool :=
  if [minus, minus].isPrefixOf arg then (schema.findLongIndex (cutEqual (arg.drop 2)).1).isSome
  else if isOptionToken arg then (schema.findShortIndex (cutEqual (arg.drop 1)).1).isSome
  else false

/-- `std::isdigit`. -/
def isDigit (ch : UInt8) : Bool := 0x30 ≤ ch && ch ≤ 0x39

/-- The end of a number behind its first digits: nothing, or a fraction. -/
def isFraction : Bytes → Bool
  | [] => true
  | ch :: digits => ch == dot && digits.head?.any isDigit && digits.all isDigit

/-- `looks_like_negative_number`. -/
def looksLikeNegativeNumber : Bytes → Bool
  | [] => false
  | sign :: number =>
    let digits := if number.head? = some dot then number.tail else number
    sign == minus && digits.head?.any isDigit && isFraction (digits.dropWhile isDigit)

/-- `looks_like_option_boundary_for_implicit`. -/
def looksLikeOptionBoundaryForImplicit (token : Bytes) (config : ArgParserConfig) : Bool :=
  token == [minus, minus] ||
    (config.addHelp && isHelpToken token) ||
    (config.addVersion && config.version != [] && isVersionToken token) ||
    [minus, minus].isPrefixOf token ||
    (isOptionToken token && !looksLikeNegativeNumber token)

/-! ## Recording values -/

/-- The state of the loop. -/
structure RawState where
  result : RawParseResult
  positionalIndex : ℕ := 0
  forcePositional : Bool := false
  deriving DecidableEq, Repr

section

variable (schema : ArgSchema) (config : ArgParserConfig)

/-- `schema.specs[index]`, for an index that a lookup found. -/
def ArgSchema.specAt (index : ℕ) : ArgSpec := schema.specs.getD index {}

/-- `record_raw_value`. -/
def recordRawValue (result : RawParseResult) (index : ℕ) (value : Bytes) :
    Except ArgParserErrorDetail RawParseResult :=
  match schema.specs[index]?, result[index]? with
  | some spec, some values =>
    if ¬ spec.repeatable ∧ values ≠ [] then
      .error
        { error := .invalidValue
          message := formatErrorOptionLabel spec ++
            text " was provided more than once; duplicate value " ++ quoteArgValue value }
    else .ok (result.set index (values ++ [value]))
  | _, _ =>
    .error (invalidDefinition (text "schema index is out of range while reading " ++
      quoteArgValue value))

/-- `record_raw_positional`. -/
def recordRawPositional (state : RawState) (value : Bytes) :
    Except ArgParserErrorDetail RawState :=
  match schema.positionalSpecs[state.positionalIndex]? with
  | none =>
    .error
      { error := .unexpectedPositional
        message := text "no positional field accepts " ++ quoteArgValue value }
  | some index => do
    let result ← recordRawValue schema state.result index value
    if (schema.specAt index).repeatable then return { state with result := result }
    else return { state with result := result, positionalIndex := state.positionalIndex + 1 }

/-- The end of `record_raw_option`, where no value is given. -/
def recordImplicit (result : RawParseResult) (index : ℕ) :
    Except ArgParserErrorDetail (RawParseResult × Bool) :=
  if (schema.specAt index).hasImplicit then do
    let result ← recordRawValue schema result index (schema.specAt index).implicitValue
    return (result, false)
  else
    .error
      { error := .missingValue
        message := formatErrorOptionLabel (schema.specAt index) ++ text " expects a value" }

/-- `record_raw_option`. The inline value is `value`, and `next` is the token behind. -/
def recordRawOption (result : RawParseResult) (index : ℕ) (next value : Option Bytes) :
    Except ArgParserErrorDetail (RawParseResult × Bool) :=
  if (schema.specAt index).flag || value.isSome then do
    let result ← recordRawValue schema result index (value.getD [])
    return (result, false)
  else
    match next with
    | some nextValue =>
      if ¬ (schema.specAt index).hasImplicit ∨
          ¬ looksLikeOptionBoundaryForImplicit nextValue config then do
        let result ← recordRawValue schema result index nextValue
        return (result, true)
      else recordImplicit schema result index
    | none => recordImplicit schema result index

/-! ## The loop -/

/-- What an unknown option does. -/
def unknownOption (result : RawParseResult) (message : Bytes) :
    Except ArgParserErrorDetail (RawParseResult × Bool) :=
  if config.allowUnknown then .ok (result, false)
  else .error { error := .unknownOption, message := message }

/-- A token that begins with `"--"`, without it. -/
def parseLong (result : RawParseResult) (body : Bytes) (next : Option Bytes) :
    Except ArgParserErrorDetail (RawParseResult × Bool) :=
  let (name, value) := cutEqual body
  match schema.findLongIndex name with
  | none => unknownOption config result (text "--" ++ name)
  | some index => recordRawOption schema config result index next value

/-- The loop over a short cluster. -/
def parseCluster (next : Option Bytes) :
    Bytes → RawParseResult → Except ArgParserErrorDetail (RawParseResult × Bool)
  | [], result => .ok (result, false)
  | ch :: remainder, result =>
    match schema.findShortIndex [ch] with
    | none =>
      if config.allowUnknown then parseCluster next remainder result
      else .error { error := .unknownOption, message := text "-" ++ [ch] }
    | some index =>
      if ¬ (schema.specAt index).flag then
        if remainder ≠ [] then do
          let result ← recordRawValue schema result index remainder
          return (result, false)
        else recordRawOption schema config result index next none
      else do
        let result ← recordRawValue schema result index []
        parseCluster next remainder result

/-- The spec of a short option with its inline value: the body is a short name, or a short name
with its value attached. -/
def findShort (name : Bytes) (value : Option Bytes) : Option (ℕ × Option Bytes) :=
  match schema.findShortIndex name with
  | some index => some (index, value)
  | none =>
    match name, value with
    | ch :: attached, none =>
      if attached ≠ [] then (schema.findShortIndex [ch]).map fun index => (index, some attached)
      else none
    | _, _ => none

/-- A token that begins with `"-"`, without it. -/
def parseShort (result : RawParseResult) (body : Bytes) (next : Option Bytes) :
    Except ArgParserErrorDetail (RawParseResult × Bool) :=
  let (name, value) := cutEqual body
  if config.allowShortCluster && 1 < name.length && value.isNone then
    parseCluster schema config next name result
  else
    match findShort schema name value with
    | none => unknownOption config result (text "-" ++ name)
    | some (index, value) => recordRawOption schema config result index next value

/-- One round of the loop. -/
def parseArgument (state : RawState) (arg : Bytes) (next : Option Bytes) :
    Except ArgParserErrorDetail (RawState × Bool) :=
  if state.forcePositional then do
    let state ← recordRawPositional schema state arg
    return (state, false)
  else if arg = [minus, minus] then .ok ({ state with forcePositional := true }, false)
  else if config.addHelp && isHelpToken arg && !isDeclaredOptionToken schema arg then
    .error { error := .helpRequested }
  else if config.addVersion && config.version != [] && isVersionToken arg &&
      !isDeclaredOptionToken schema arg then
    .error { error := .versionRequested }
  else if [minus, minus].isPrefixOf arg then do
    let (result, took) ← parseLong schema config state.result (arg.drop 2) next
    return ({ state with result := result }, took)
  else if isOptionToken arg then do
    let (result, took) ← parseShort schema config state.result (arg.drop 1) next
    return ({ state with result := result }, took)
  else do
    let state ← recordRawPositional schema state arg
    return (state, false)

/-- The loop. -/
def parseArguments : List (Option Bytes) → RawState → Except ArgParserErrorDetail RawState
  | [], state => .ok state
  | [arg], state => do
    let (state, _) ← parseArgument schema config state (arg.getD []) none
    return state
  | arg :: next :: rest, state => do
    let (state, took) ← parseArgument schema config state (arg.getD []) next
    if took then parseArguments rest state else parseArguments (next :: rest) state

/-- The state before the first token. -/
def RawState.start : RawState := { result := List.replicate schema.specs.length [] }

/-- `parse_raw_arguments`, from `start_index` on. -/
def parseRawArguments (argv : List (Option Bytes)) :
    Except ArgParserErrorDetail RawParseResult := do
  let state ← parseArguments schema config argv (RawState.start schema)
  return state.result

end

end NekoProto.ArgParser
