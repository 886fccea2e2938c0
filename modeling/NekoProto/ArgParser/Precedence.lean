import NekoProto.ArgParser.Rerender
import NekoProto.ArgParser.Settling

/-!
# Where the values of options come from

The first source of an option that is there wins: the command line, the environment, a configuration
file, the default, the initializer (`Sources.first`).

1. `settle_iff`: an option is settled by writing its winning source (`SettledBy`).
2. `parseOptionsInto_eq_ok`: parsing succeeds exactly if the winning source of each option can be
   written into its field, the default is a valid one even where it loses, and the constraints
   between the options hold. Then each option has the value of its winning source, and nothing else
   has changed.
3. `precedence_iff`: the value is that of the winning source alone, but for a vector with an
   initializer that is not empty. What is given for it is appended to the initializer
   (`Sources.write_appended`), unless a default or a configuration file stands between.
-/

namespace NekoProto.ArgParser

open Binary (Bytes)
open Outcome (bind_eq_ok)

/-! ## Sources -/

/-- The sources of a value, in the order of their precedence. -/
inductive Source
  | commandLine | environment | configuration | default | initializer
  deriving DecidableEq, Repr

/-- What the sources of one option have. -/
structure Sources (T : FieldType) where
  commandLine : List Bytes := []
  environment : Option Bytes := none
  configuration : Option T.Value := none
  default : Option (DefaultValue T) := none
  initializer : T.Value

namespace Sources

variable {T : FieldType} (sources : Sources T)

/-- The source that wins. -/
def first : Source :=
  if sources.commandLine ≠ [] then .commandLine
  else if sources.environment.isSome then .environment
  else if sources.configuration.isSome then .configuration
  else if sources.default.isSome then .default
  else .initializer

/-- Whether the option counts as supplied. A file that leaves an optional field empty does not
supply it. -/
def supplied : Bool :=
  match sources.first, sources.configuration with
  | .commandLine, _ => true
  | .environment, _ => true
  | _, some field => importedFieldSupplied T field
  | .default, none => true
  | _, none => false

/-- The winning source is written into a field. -/
def write (lib : FloatingText) (spec : OptionSpec) (field : T.Value) :
    Except ArgParserErrorDetail T.Value :=
  if sources.commandLine ≠ [] then assignValues lib spec sources.commandLine field
  else
    match sources.environment, sources.configuration, sources.default with
    | some value, _, _ => assignTextToField lib spec field value spec.value.envName
    | none, some value, _ => .ok value
    | none, none, some default => assignDefaultToField lib spec default field
    | none, none, none => .ok sources.initializer

end Sources

/-- The elements of one vector behind those of another. -/
def appended : (T : FieldType) → T.Value → T.Value → T.Value
  | .vector _, field, items => field ++ items
  | .scalar _, field, _ => field
  | .optional _, field, _ => field

/-- `field.clear()`, if there is something to clear. -/
def emptied : (T : FieldType) → T.Value → T.Value
  | .vector _, _ => []
  | .scalar _, field => field
  | .optional _, field => field

namespace Sources

variable {T : FieldType} (sources : Sources T)

/-- The field that the winning source is written into. A vector is cleared if another source has
been there before. -/
def base : T.Value :=
  if (sources.first = .commandLine ∨ sources.first = .environment) ∧
      (sources.configuration.isSome ∨ sources.default.isSome) then emptied T sources.initializer
  else sources.initializer

end Sources

/-! ## Assigning -/

section

variable {lib : FloatingText} {spec : OptionSpec} {T : FieldType} {value source : Bytes}
  {field field' : T.Value}

theorem contextual_eq_ok {α : Type} {arg : ArgSpec} {detail : Bytes}
    {r : Except ArgParserErrorDetail α} {a : α} : contextual arg detail r = .ok a ↔ r = .ok a := by
  cases r with
  | error e => exact iff_of_false nofun nofun
  | ok b => exact Iff.rfl

theorem assignTextToField_eq_ok :
    assignTextToField lib spec field value source = .ok field' ↔
      assignTextValue lib value spec.value.separator spec.value.caseInsensitiveEnum T field =
        .ok field' ∧ validateFieldValue spec.value T field' = .ok () := by
  unfold assignTextToField
  simp only [bind_eq_ok, contextual_eq_ok, pure_eq_ok]
  constructor
  · rintro ⟨_, hassign, ⟨⟩, hvalid, rfl⟩
    exact ⟨hassign, hvalid⟩
  · rintro ⟨hassign, hvalid⟩
    exact ⟨field', hassign, (), hvalid, rfl⟩

theorem assignDefaultToField_eq_ok {default : DefaultValue T} :
    assignDefaultToField lib spec default field = .ok field' ↔
      assignDefaultValue lib spec.value.separator spec.value.caseInsensitiveEnum default field =
        .ok field' ∧ validateFieldValue spec.value T field' = .ok () := by
  unfold assignDefaultToField
  simp only [bind_eq_ok, contextual_eq_ok, pure_eq_ok]
  constructor
  · rintro ⟨_, hassign, ⟨⟩, hvalid, rfl⟩
    exact ⟨hassign, hvalid⟩
  · rintro ⟨hassign, hvalid⟩
    exact ⟨field', hassign, (), hvalid, rfl⟩

/-- What is written into a field that is not a vector does not depend on its old value. -/
theorem assignTextValue_congr {separator : UInt8} {ci : Bool} (hvector : T.isVector = false) :
    assignTextValue lib value separator ci T field =
      assignTextValue lib value separator ci T field' := by
  unfold assignTextValue
  cases T with
  | scalar T => rfl
  | optional T => rfl
  | vector T => cases hvector

theorem assignTextToField_congr (hvector : T.isVector = false) :
    assignTextToField lib spec field value source =
      assignTextToField lib spec field' value source := by
  unfold assignTextToField
  rw [assignTextValue_congr hvector]

theorem assignValues_congr {values : List Bytes} (hne : values ≠ [])
    (hvector : T.isVector = false) :
    assignValues lib spec values field = assignValues lib spec values field' := by
  cases values with
  | nil => exact absurd rfl hne
  | cons value values =>
    unfold assignValues
    rw [assignTextToField_congr hvector]

end

/-! ### Vectors -/

section

variable {lib : FloatingText} {spec : OptionSpec} {S : Scalar} {value source : Bytes}

/-- What a computation appends to a vector does not depend on what the vector has. -/
def Appends {S : Scalar} (write : List S.Value → Except ArgParserErrorDetail (List S.Value)) :
    Prop :=
  ∃ items : List S.Value, ∀ field field', write field = .ok field' → field' = field ++ items

theorem Appends.bind {write write' : List S.Value → Except ArgParserErrorDetail (List S.Value)}
    (h : Appends write) (h' : Appends write') : Appends fun field => write field >>= write' := by
  obtain ⟨items, hitems⟩ := h
  obtain ⟨items', hitems'⟩ := h'
  refine ⟨items ++ items', fun field field' hok => ?_⟩
  obtain ⟨middle, hfirst, hsecond⟩ := bind_eq_ok.mp hok
  rw [hitems' _ _ hsecond, hitems _ _ hfirst, List.append_assoc]

theorem appends_nil :
    Appends fun field : List S.Value =>
      (.ok field : Except ArgParserErrorDetail (List S.Value)) := by
  refine ⟨[], fun field field' hok => ?_⟩
  rw [List.append_nil]
  exact (Except.ok.inj hok).symm

theorem assignValue_appends {ci : Bool} :
    Appends fun field => assignValue lib value ci (.vector S) field := by
  cases h : parseScalar lib value ci S with
  | error e =>
    refine ⟨[], fun field field' hok => ?_⟩
    obtain ⟨inner, hinner, -⟩ := bind_eq_ok.mp hok
    cases h.symm.trans hinner
  | ok inner =>
    refine ⟨[inner], fun field field' hok => ?_⟩
    obtain ⟨inner', hinner, heq⟩ := bind_eq_ok.mp hok
    cases h.symm.trans hinner
    exact (pure_eq_ok.mp heq).symm

theorem assignParts_appends {ci : Bool} (parts : List Bytes) :
    Appends fun field => assignParts lib ci (.vector S) parts field := by
  induction parts with
  | nil => exact appends_nil
  | cons part parts ih => exact assignValue_appends.bind ih

theorem assignTextValue_appends {separator : UInt8} {ci : Bool} :
    Appends fun field => assignTextValue lib value separator ci (.vector S) field := by
  unfold assignTextValue
  by_cases hseparator : separator = 0
  · simp only [if_pos hseparator]
    exact assignValue_appends
  · simp only [if_neg hseparator]
    exact assignParts_appends _

theorem assignTextToField_appends :
    Appends fun field : List S.Value =>
      assignTextToField (T := .vector S) lib spec field value source := by
  obtain ⟨items, hitems⟩ := @assignTextValue_appends lib S value spec.value.separator
    spec.value.caseInsensitiveEnum
  exact ⟨items, fun field field' hok => hitems _ _ (assignTextToField_eq_ok.mp hok).1⟩

theorem assignValues_appends (values : List Bytes) :
    Appends fun field : List S.Value => assignValues (T := .vector S) lib spec values field := by
  induction values with
  | nil => exact appends_nil
  | cons value values ih => exact assignTextToField_appends.bind ih

theorem assignDefaultToField_appends {default : DefaultValue (.vector S)} :
    Appends fun field : List S.Value => assignDefaultToField lib spec default field := by
  have hvalue : Appends fun field : List S.Value => assignDefaultValue lib spec.value.separator
      spec.value.caseInsensitiveEnum default field := by
    cases default with
    | text value => exact assignTextValue_appends
    | value value => exact ⟨[value], fun field field' hok => (Except.ok.inj hok).symm⟩
  obtain ⟨items, hitems⟩ := hvalue
  exact ⟨items, fun field field' hok => hitems _ _ (assignDefaultToField_eq_ok.mp hok).1⟩

end

/-! ## Settling by the winning source -/

section

variable {lib : FloatingText} {spec : OptionSpec} {T : FieldType}

theorem cleared_of_vector {supplied : Bool} {field : T.Value} (h : T.isVector = true) :
    cleared T supplied field = if supplied then emptied T field else field := by
  cases T with
  | scalar T => cases h
  | optional T => cases h
  | vector T => cases supplied <;> rfl

theorem emptied_eq (h : T.isVector = true) (field field' : T.Value) :
    emptied T field = emptied T field' := by
  cases T with
  | scalar T => cases h
  | optional T => cases h
  | vector T => rfl

theorem importedFieldSupplied_of_vector (h : T.isVector = true) (field : T.Value) :
    importedFieldSupplied T field = true := by
  cases T with
  | scalar T => cases h
  | optional T => cases h
  | vector T => rfl

theorem applyDefaultOption_eq_ok {default : Option (DefaultValue T)} {field : T.Value}
    {done : T.Value × Bool} :
    applyDefaultOption lib spec default field = .ok done ↔
      validateFieldDefinition spec.value T = .ok () ∧
        match default with
        | some default => assignDefaultToField lib spec default field = .ok done.1 ∧ done.2 = true
        | none => done = (field, false) := by
  unfold applyDefaultOption
  simp only [bind_eq_ok, contextual_eq_ok]
  cases default with
  | none =>
    simp only [pure_eq_ok]
    constructor
    · rintro ⟨⟨⟩, hdefinition, rfl⟩
      exact ⟨hdefinition, rfl⟩
    · rintro ⟨hdefinition, rfl⟩
      exact ⟨(), hdefinition, rfl⟩
  | some default =>
    simp only [bind_eq_ok, pure_eq_ok]
    constructor
    · rintro ⟨⟨⟩, hdefinition, value, hvalue, rfl⟩
      exact ⟨hdefinition, hvalue, rfl⟩
    · rintro ⟨hdefinition, hvalue, hsupplied⟩
      exact ⟨(), hdefinition, done.1, hvalue, Prod.ext rfl hsupplied.symm⟩

theorem materializeOneOption_eq_ok {getenv : Bytes → Option Bytes} {raw : List Bytes}
    {supplied : Bool} {field : T.Value} {done : T.Value × Bool}
    (hdefinition : validateFieldDefinition spec.value T = .ok ()) :
    materializeOneOption lib spec getenv raw supplied field = .ok done ↔
      if raw ≠ [] then
        assignValues lib spec raw (cleared T supplied field) = .ok done.1 ∧ done.2 = true
      else
        match readEnv getenv spec.value.envName with
        | some value => assignTextToField lib spec (cleared T supplied field) value
            spec.value.envName = .ok done.1 ∧ done.2 = true
        | none => done = (field, false) := by
  have hdone : ∀ {x : Except ArgParserErrorDetail T.Value},
      (∃ value, x = .ok value ∧ (value, true) = done) ↔ x = .ok done.1 ∧ done.2 = true := by
    intro x
    constructor
    · rintro ⟨value, hvalue, rfl⟩
      exact ⟨hvalue, rfl⟩
    · rintro ⟨hvalue, hsupplied⟩
      exact ⟨done.1, hvalue, Prod.ext rfl hsupplied.symm⟩
  unfold materializeOneOption
  rw [hdefinition]
  by_cases hraw : raw ≠ []
  · rw [if_pos hraw]
    simp only [bind_eq_ok, contextual_eq_ok, pure_eq_ok, if_pos hraw]
    constructor
    · rintro ⟨⟨⟩, -, h⟩
      exact hdone.mp h
    · exact fun h => ⟨(), trivial, hdone.mpr h⟩
  · rw [if_neg hraw]
    cases henv : readEnv getenv spec.value.envName with
    | none =>
      simp only [bind_eq_ok, contextual_eq_ok, pure_eq_ok, if_neg hraw]
      exact ⟨fun ⟨_, _, h⟩ => h.symm, fun h => ⟨(), trivial, h.symm⟩⟩
    | some value =>
      have hname : spec.value.envName ≠ [] := by
        intro hempty
        rw [readEnv, if_pos hempty] at henv
        cases henv
      simp only [bind_eq_ok, contextual_eq_ok, pure_eq_ok, if_neg hraw, if_neg hname]
      constructor
      · rintro ⟨⟨⟩, -, h⟩
        exact hdone.mp h
      · exact fun h => ⟨(), trivial, hdone.mpr h⟩

/-- The default can be applied, even if it loses. -/
def DefaultFits (lib : FloatingText) (spec : OptionSpec) (sources : Sources T) : Prop :=
  ∀ default, sources.default = some default →
    ∃ field, assignDefaultToField lib spec default sources.initializer = .ok field

/-- An option is settled by its winning source. -/
structure SettledBy (lib : FloatingText) (spec : OptionSpec) (sources : Sources T)
    (value : T.Value) (supplied : Bool) : Prop where
  definition : validateFieldDefinition spec.value T = .ok ()
  default : DefaultFits lib spec sources
  value : sources.write lib spec sources.base = .ok value
  supplied : supplied = sources.supplied

section

variable {getenv : Bytes → Option Bytes} {sources : Sources T} {value : T.Value} {supplied : Bool}
  {fallback done : T.Value × Bool}

theorem base_eq (hfirst : sources.first = .commandLine ∨ sources.first = .environment) :
    sources.base = if sources.configuration.isSome ∨ sources.default.isSome then
      emptied T sources.initializer else sources.initializer := by
  unfold Sources.base
  simp only [hfirst, true_and]

/-- The values of the command line and of the environment are written into the same field. -/
theorem cleared_before (hvector : T.isVector = true)
    (hfallback : applyDefaultOption lib spec sources.default sources.initializer = .ok fallback)
    (hfirst : sources.first = .commandLine ∨ sources.first = .environment) :
    cleared T (importedOr sources.configuration fallback).2
      (importedOr sources.configuration fallback).1 = sources.base := by
  obtain ⟨-, hfallback⟩ := applyDefaultOption_eq_ok.mp hfallback
  rw [cleared_of_vector hvector, base_eq hfirst]
  cases himported : sources.configuration with
  | some field =>
    show (if importedFieldSupplied T field then _ else _) = _
    rw [importedFieldSupplied_of_vector hvector, if_pos rfl, if_pos (.inl rfl)]
    exact emptied_eq hvector _ _
  | none =>
    cases hdefault : sources.default with
    | some default =>
      rw [hdefault] at hfallback
      show (if fallback.2 then _ else _) = _
      rw [hfallback.2, if_pos rfl, if_pos (.inr rfl)]
      exact emptied_eq hvector _ _
    | none =>
      rw [hdefault] at hfallback
      rw [hfallback]
      rfl

/-- What is written from the command line or the environment goes into `base`. -/
theorem written_before (hfallback : applyDefaultOption lib spec sources.default
      sources.initializer = .ok fallback)
    (hfirst : sources.first = .commandLine ∨ sources.first = .environment)
    (write : T.Value → Except ArgParserErrorDetail T.Value)
    (hcongr : T.isVector = false → ∀ field field', write field = write field') :
    write (cleared T (importedOr sources.configuration fallback).2
      (importedOr sources.configuration fallback).1) = write sources.base := by
  cases hvector : T.isVector with
  | false => exact hcongr hvector _ _
  | true => rw [cleared_before hvector hfallback hfirst]

/-- **Settling an option** is writing its winning source. -/
theorem settle_iff (henv : sources.environment = readEnv getenv spec.value.envName) :
    settle lib spec sources.default getenv sources.commandLine sources.configuration
        sources.initializer = .ok (value, supplied) ↔
      SettledBy lib spec sources value supplied := by
  have hdefaultFits : ∀ {fallback : T.Value × Bool}, applyDefaultOption lib spec sources.default
      sources.initializer = .ok fallback → validateFieldDefinition spec.value T = .ok () ∧
        DefaultFits lib spec sources := by
    intro fallback hfallback
    obtain ⟨hdefinition, hfallback⟩ := applyDefaultOption_eq_ok.mp hfallback
    refine ⟨hdefinition, fun default hdefault => ?_⟩
    rw [hdefault] at hfallback
    exact ⟨_, hfallback.1⟩
  have hexists : validateFieldDefinition spec.value T = .ok () → DefaultFits lib spec sources →
      ∃ fallback, applyDefaultOption lib spec sources.default sources.initializer =
        .ok fallback := by
    intro hdefinition hfits
    cases hdefault : sources.default with
    | none => exact ⟨_, applyDefaultOption_eq_ok.mpr ⟨hdefinition, rfl⟩⟩
    | some default =>
      obtain ⟨field, hfield⟩ := hfits default hdefault
      exact ⟨(field, true), applyDefaultOption_eq_ok.mpr ⟨hdefinition, hfield, rfl⟩⟩
  -- the three ways `materialize_one_option` goes, with a fallback that has been computed
  have hmain : ∀ {fallback : T.Value × Bool}, applyDefaultOption lib spec sources.default
      sources.initializer = .ok fallback →
      ((∃ done, materializeOneOption lib spec getenv sources.commandLine
            (importedOr sources.configuration fallback).2
            (importedOr sources.configuration fallback).1 = .ok done ∧
          (done.1, done.2 || (importedOr sources.configuration fallback).2) = (value, supplied)) ↔
        sources.write lib spec sources.base = .ok value ∧ supplied = sources.supplied) := by
    intro fallback hfallback
    obtain ⟨hdefinition, hresult⟩ := applyDefaultOption_eq_ok.mp hfallback
    have hexplicit : ∀ {x : Except ArgParserErrorDetail T.Value},
        (∃ done : T.Value × Bool, (x = .ok done.1 ∧ done.2 = true) ∧
          (done.1, done.2 || (importedOr sources.configuration fallback).2) =
            (value, supplied)) ↔ x = .ok value ∧ supplied = true := by
      intro x
      constructor
      · rintro ⟨⟨_, _⟩, ⟨hx, rfl⟩, heq⟩
        cases heq
        exact ⟨hx, rfl⟩
      · rintro ⟨hx, rfl⟩
        exact ⟨(value, true), ⟨hx, rfl⟩, rfl⟩
    simp only [materializeOneOption_eq_ok hdefinition, ← henv]
    by_cases hraw : sources.commandLine ≠ []
    · have hfirst : sources.first = .commandLine := if_pos hraw
      have hsupplied : sources.supplied = true := by rw [Sources.supplied, hfirst]
      simp only [if_pos hraw, hexplicit]
      rw [Sources.write, if_pos hraw, hsupplied, written_before hfallback (.inl hfirst)
        (assignValues lib spec sources.commandLine)
        fun hvector _ _ => assignValues_congr hraw hvector]
    · cases henvironment : sources.environment with
      | some text =>
        have hfirst : sources.first = .environment := by
          rw [Sources.first, if_neg hraw, henvironment]
          rfl
        have hsupplied : sources.supplied = true := by rw [Sources.supplied, hfirst]
        simp only [if_neg hraw, hexplicit]
        rw [Sources.write, if_neg hraw, henvironment, hsupplied]
        rw [written_before hfallback (.inr hfirst)
          (fun field => assignTextToField lib spec field text spec.value.envName)
          fun hvector _ _ => assignTextToField_congr hvector]
      | none =>
        simp only [if_neg hraw, exists_eq_left, Bool.false_or]
        rw [Sources.write, if_neg hraw, henvironment]
        have hfirst : sources.first = if sources.configuration.isSome then .configuration
            else if sources.default.isSome then .default else .initializer := by
          rw [Sources.first, if_neg hraw, henvironment]
          rfl
        have hbase : sources.base = sources.initializer := by
          refine if_neg fun h => ?_
          rw [hfirst] at h
          obtain ⟨h, -⟩ := h
          split_ifs at h <;> simp at h
        cases hconfiguration : sources.configuration with
        | some field =>
          have hsupplied : sources.supplied = importedFieldSupplied T field := by
            rw [hconfiguration, Option.isSome_some, if_pos rfl] at hfirst
            rw [Sources.supplied, hfirst, hconfiguration]
          rw [hsupplied, importedOr, Prod.mk.injEq, Except.ok.injEq, @eq_comm _ supplied]
        | none =>
          rw [hbase]
          cases hdefault : sources.default with
          | some default =>
            rw [hdefault] at hresult
            have hsupplied : sources.supplied = true := by
              rw [hconfiguration, hdefault, Option.isSome_none, Option.isSome_some,
                if_neg Bool.false_ne_true, if_pos rfl] at hfirst
              rw [Sources.supplied, hfirst, hconfiguration]
            rw [hsupplied, importedOr, Prod.mk.injEq, hresult.2]
            simp only [hresult.1, Except.ok.injEq, @eq_comm _ supplied]
          | none =>
            rw [hdefault] at hresult
            have hsupplied : sources.supplied = false := by
              rw [hconfiguration, hdefault, Option.isSome_none, Option.isSome_none,
                if_neg Bool.false_ne_true, if_neg Bool.false_ne_true] at hfirst
              rw [Sources.supplied, hfirst, hconfiguration]
            subst hresult
            rw [hsupplied, importedOr, Prod.mk.injEq, Except.ok.injEq, @eq_comm _ supplied]
  rw [settle_eq_ok]
  constructor
  · rintro ⟨fallback, hfallback, h⟩
    obtain ⟨hdefinition, hfits⟩ := hdefaultFits hfallback
    obtain ⟨hvalue, hsupplied⟩ := (hmain hfallback).mp h
    exact ⟨hdefinition, hfits, hvalue, hsupplied⟩
  · rintro ⟨hdefinition, hfits, hvalue, hsupplied⟩
    obtain ⟨fallback, hfallback⟩ := hexists hdefinition hfits
    exact ⟨fallback, hfallback, (hmain hfallback).mpr ⟨hvalue, hsupplied⟩⟩

end

end

/-! ## The value of the winning source alone -/

namespace Sources

variable {lib : FloatingText} {spec : OptionSpec} {T : FieldType} {sources : Sources T}

/-- Nothing of the initializer is left below the winning source: there was nothing to clear, the
source is a whole value itself, or another source has been there before it. -/
def Replaces (sources : Sources T) : Prop :=
  emptied T sources.initializer = sources.initializer ∨
    sources.first = .configuration ∨ sources.first = .initializer ∨
    (sources.first = .commandLine ∨ sources.first = .environment) ∧
      (sources.configuration.isSome ∨ sources.default.isSome)

/-- The winning source, case by case. -/
theorem write_cases (sources : Sources T) :
    (sources.first = .commandLine ∧ sources.write lib spec =
      assignValues lib spec sources.commandLine) ∨
    (∃ value, sources.first = .environment ∧ sources.write lib spec = fun field =>
      assignTextToField lib spec field value spec.value.envName) ∨
    (∃ value, sources.first = .configuration ∧ sources.write lib spec = fun _ => .ok value) ∨
    (∃ default, sources.first = .default ∧ sources.default = some default ∧
      sources.write lib spec = assignDefaultToField lib spec default) ∨
    (sources.first = .initializer ∧ sources.write lib spec = fun _ => .ok sources.initializer) := by
  rcases sources with ⟨commandLine, environment, configuration, default, initializer⟩
  cases commandLine with
  | cons value values => exact .inl ⟨rfl, rfl⟩
  | nil =>
    cases environment with
    | some value => exact .inr (.inl ⟨value, rfl, rfl⟩)
    | none =>
      cases configuration with
      | some value => exact .inr (.inr (.inl ⟨value, rfl, rfl⟩))
      | none =>
        cases default with
        | some default => exact .inr (.inr (.inr (.inl ⟨default, rfl, rfl, rfl⟩)))
        | none => exact .inr (.inr (.inr (.inr ⟨rfl, rfl⟩)))

/-- A source that is a whole value does not look at the field. -/
theorem write_whole (h : sources.first = .configuration ∨ sources.first = .initializer)
    (field field' : T.Value) : sources.write lib spec field = sources.write lib spec field' := by
  obtain ⟨hfirst, -⟩ | ⟨_, hfirst, -⟩ | ⟨_, -, hwrite⟩ | ⟨_, hfirst, -⟩ | ⟨-, hwrite⟩ :=
    @write_cases lib spec T sources
  · rw [hfirst] at h
    rcases h with h | h <;> cases h
  · rw [hfirst] at h
    rcases h with h | h <;> cases h
  · rw [hwrite]
  · rw [hfirst] at h
    rcases h with h | h <;> cases h
  · rw [hwrite]

/-- Any other source appends to a vector. -/
theorem write_appends {S : Scalar} {sources : Sources (.vector S)}
    (hconfiguration : sources.first ≠ .configuration)
    (hinitializer : sources.first ≠ .initializer) :
    Appends fun field : List S.Value => sources.write lib spec field := by
  obtain ⟨-, hwrite⟩ | ⟨_, -, hwrite⟩ | ⟨_, hfirst, -⟩ | ⟨_, -, -, hwrite⟩ | ⟨hfirst, -⟩ :=
    @write_cases lib spec (.vector S) sources
  · rw [hwrite]
    exact assignValues_appends _
  · rw [hwrite]
    exact assignTextToField_appends
  · exact absurd hfirst hconfiguration
  · rw [hwrite]
    exact assignDefaultToField_appends
  · exact absurd hfirst hinitializer

/-- Where something is left, it is a vector, which is not cleared. -/
theorem base_of_not_replaces (h : ¬sources.Replaces) :
    emptied T sources.initializer ≠ sources.initializer ∧ sources.first ≠ .configuration ∧
      sources.first ≠ .initializer ∧ sources.base = sources.initializer := by
  unfold Replaces at h
  push Not at h
  obtain ⟨hne, hconfiguration, hinitializer, hbefore⟩ := h
  refine ⟨hne, hconfiguration, hinitializer, if_neg fun ⟨hfirst, hthere⟩ => ?_⟩
  obtain ⟨hnone, hnone'⟩ := hbefore hfirst
  rcases hthere with hthere | hthere
  · exact hnone hthere
  · exact hnone' hthere

theorem write_emptied_iff {value : T.Value} (h : sources.write lib spec sources.base = .ok value) :
    sources.write lib spec (emptied T sources.initializer) = .ok value ↔ sources.Replaces := by
  constructor
  · intro hempty
    by_contra hkept
    obtain ⟨hne, hconfiguration, hinitializer, hbase⟩ := base_of_not_replaces hkept
    rw [hbase] at h
    cases T with
    | scalar T => exact hne rfl
    | optional T => exact hne rfl
    | vector T =>
      obtain ⟨items, hitems⟩ := @write_appends lib spec T sources hconfiguration hinitializer
      have hall : value = sources.initializer ++ items := hitems _ _ h
      have honly : value = [] ++ items := hitems _ _ hempty
      rw [honly] at hall
      exact hne (List.append_cancel_right hall)
  · rintro (hsame | hwhole | hwhole | ⟨hfirst, hthere⟩)
    · have hbase : sources.base = emptied T sources.initializer := by
        unfold base
        split_ifs
        · rfl
        · exact hsame.symm
      rwa [← hbase]
    · rwa [write_whole (.inl hwhole) _ sources.base]
    · rwa [write_whole (.inr hwhole) _ sources.base]
    · have hbase : sources.base = emptied T sources.initializer := if_pos ⟨hfirst, hthere⟩
      rwa [← hbase]

/-- **What is left of the initializer** comes first, and what the winning source gives to any field
behind it. -/
theorem write_appended {value : T.Value} (h : sources.write lib spec sources.base = .ok value)
    (hkept : ¬sources.Replaces) :
    ∃ items, (∀ field field', sources.write lib spec field = .ok field' →
        field' = appended T field items) ∧
      value = appended T sources.initializer items := by
  obtain ⟨hne, hconfiguration, hinitializer, hbase⟩ := base_of_not_replaces hkept
  rw [hbase] at h
  cases T with
  | scalar T => exact absurd rfl hne
  | optional T => exact absurd rfl hne
  | vector T =>
    obtain ⟨items, hitems⟩ := @write_appends lib spec T sources hconfiguration hinitializer
    exact ⟨items, hitems, hitems _ _ h⟩

end Sources

/-! ## Parsing -/

section

variable {fields : OptionFields} {world : Surroundings fields.Value} {config : ParserConfig}
  {argv : List (Option Bytes)} {externalImport : Option ConfigIoFile}
  {externalExports : Option ConfigIoSelection} {full : OptionSchema} {raw : RawParseResult}
  {localIo : ConfigIoSelection} {imported : Option fields.Value} {object object' : fields.Value}

/-- The sources of an option. -/
def optionSources (getenv : Bytes → Option Bytes) (raw : RawParseResult)
    (imported : Option fields.Value) (object : fields.Value) (k : Fin fields.options.length) :
    Sources (fields.options.get k).type where
  commandLine := raw.getD k []
  environment := readEnv getenv (fields.options.get k).value.envName
  configuration := imported.map (fields.get · k)
  default := (fields.options.get k).default
  initializer := fields.get object k

/-- What a parse has read before it settles the options. -/
structure Reading (world : Surroundings fields.Value) (config : ParserConfig)
    (argv : List (Option Bytes)) (externalImport : Option ConfigIoFile) (full : OptionSchema)
    (raw : RawParseResult) (localIo : ConfigIoSelection) (imported : Option fields.Value) :
    Prop where
  schema : collectedSchema fields world.backends config = .ok full
  arguments : parseRawArguments full.schema config.raw argv = .ok raw
  files : collectConfigIoSelection full raw full.builtinIndices {} = .ok localIo
  one : externalImport = none ∨ localIo.importFile = none
  imports : Imports world.load (externalImport.or localIo.importFile) imported

theorem OptionSchema.Fits.spec_value (h : full.Fits fields) (k : Fin fields.options.length) :
    (full.spec k).value = (fields.options.get k).value := by
  obtain ⟨arg, -, -, hvalue⟩ := h.made k _ (List.getElem?_eq_getElem k.isLt)
  rw [OptionSchema.spec, List.getD_eq_getElem?_getD, hvalue]
  rfl

/-- The raw parser has a list of values for each spec. -/
theorem raw_length {backends : List ConfigIoBackend}
    (hschema : collectedSchema fields backends config = .ok full)
    (hraw : parseRawArguments full.schema config.raw argv = .ok raw) :
    raw.length = full.schema.specs.length := by
  obtain ⟨schema', hvalidate, heq⟩ := bind_eq_ok.mp hschema
  cases heq
  rw [OptionSchema.schema_collect] at hvalidate
  have hcollected := (ArgSchema.collectSchema_collected _ _ _).of_validated hvalidate
  obtain ⟨state, hstate, heq⟩ := bind_eq_ok.mp hraw
  cases heq
  exact (Normal.start.parseArguments hcollected hstate).length

/-- The passes settle each option by its winning source. -/
theorem materializeObject_settledBy (hfits : full.Fits fields)
    (hraw : raw.length = full.schema.specs.length) {importFile : Option ConfigIoFile} :
    materializeObject world full raw importFile object = .ok object' ↔
      ∃ imported, Imports world.load importFile imported ∧
        fields.SameIgnored (imported.getD object) object' ∧
        (∀ k : Fin fields.options.length, SettledBy world.text (full.spec k)
          (optionSources world.getenv raw imported object k) (fields.get object' k)
          (optionSources world.getenv raw imported object k).supplied) ∧
        Constrained full object' fun k =>
          (optionSources world.getenv raw imported object k).supplied := by
  have henv : ∀ imported k, (optionSources world.getenv raw imported object k).environment =
      readEnv world.getenv (full.spec k).value.envName := by
    intro imported k
    rw [hfits.spec_value k]
    rfl
  rw [materializeObject_eq_ok hfits hraw]
  constructor
  · rintro ⟨imported, supplied, himports, ⟨hignored, heach⟩, hvalid⟩
    have hsettled := fun k => (settle_iff (henv imported k)).mp (heach k)
    obtain rfl : supplied = fun k =>
        (optionSources world.getenv raw imported object k).supplied :=
      funext fun k => (hsettled k).supplied
    exact ⟨imported, himports, hignored, hsettled, hvalid⟩
  · rintro ⟨imported, himports, hignored, hsettled, hvalid⟩
    exact ⟨imported, _, himports, ⟨hignored, fun k => (settle_iff (henv imported k)).mpr
      (hsettled k)⟩, hvalid⟩

theorem parseOptionsInto_cases :
    parseOptionsInto world config argv externalImport externalExports object = .ok object' ↔
      ∃ full raw localIo, collectedSchema fields world.backends config = .ok full ∧
        parseRawArguments full.schema config.raw argv = .ok raw ∧
        collectConfigIoSelection full raw full.builtinIndices {} = .ok localIo ∧
        (externalImport = none ∨ localIo.importFile = none) ∧
        materializeObject world full raw (externalImport.or localIo.importFile) object =
          .ok object' ∧
        exportConfigFiles world.save object' (externalExports.getD localIo).exportFiles =
          .ok () := by
  unfold parseOptionsInto
  simp only [bind_eq_ok]
  refine exists_congr fun full => ?_
  constructor
  · rintro ⟨hschema, raw, hraw, h⟩
    rw [if_neg (not_not.mpr (raw_length hschema hraw).symm)] at h
    obtain ⟨localIo, hfiles, h⟩ := bind_eq_ok.mp h
    split_ifs at h with hboth
    obtain ⟨object₁, hobject, h⟩ := bind_eq_ok.mp h
    obtain ⟨⟨⟩, hexport, h⟩ := bind_eq_ok.mp h
    cases h
    refine ⟨raw, localIo, hschema, hraw, hfiles, ?_, hobject, hexport⟩
    cases externalImport with
    | none => exact .inl rfl
    | some file => exact .inr (Option.not_isSome_iff_eq_none.mp fun h => hboth (by rw [h]; rfl))
  · rintro ⟨raw, localIo, hschema, hraw, hfiles, hone, hobject, hexport⟩
    have hboth : ¬(externalImport.isSome && localIo.importFile.isSome) = true := by
      rcases hone with hnone | hnone <;> rw [hnone] <;> simp
    refine ⟨hschema, raw, hraw, ?_⟩
    rw [if_neg (not_not.mpr (raw_length hschema hraw).symm)]
    refine bind_eq_ok.mpr ⟨localIo, hfiles, ?_⟩
    rw [if_neg hboth]
    exact bind_eq_ok.mpr ⟨object', hobject, bind_eq_ok.mpr ⟨(), hexport, rfl⟩⟩

/-- **Parsing an object.** It succeeds if and only if the definition and the arguments are fine, at
most one file is imported, the default of each option is a valid one, the winning source of each
option can be written into its field, the constraints between the options hold, and the exports
work. Then each option has the value that its winning source gives, and nothing else has changed. -/
theorem parseOptionsInto_eq_ok :
    parseOptionsInto world config argv externalImport externalExports object = .ok object' ↔
      ∃ full raw localIo imported,
        Reading world config argv externalImport full raw localIo imported ∧
        fields.SameIgnored (imported.getD object) object' ∧
        (∀ k : Fin fields.options.length, SettledBy world.text (full.spec k)
          (optionSources world.getenv raw imported object k) (fields.get object' k)
          (optionSources world.getenv raw imported object k).supplied) ∧
        Constrained full object' (fun k =>
          (optionSources world.getenv raw imported object k).supplied) ∧
        exportConfigFiles world.save object' (externalExports.getD localIo).exportFiles =
          .ok () := by
  rw [parseOptionsInto_cases]
  constructor
  · rintro ⟨full, raw, localIo, hschema, hraw, hfiles, hone, hobject, hexport⟩
    obtain ⟨imported, himports, hignored, hsettled, hvalid⟩ := (materializeObject_settledBy
      (OptionSchema.collectedSchema_fits hschema) (raw_length hschema hraw)).mp hobject
    exact ⟨full, raw, localIo, imported, ⟨hschema, hraw, hfiles, hone, himports⟩, hignored,
      hsettled, hvalid, hexport⟩
  · rintro ⟨full, raw, localIo, imported, ⟨hschema, hraw, hfiles, hone, himports⟩, hignored,
      hsettled, hvalid, hexport⟩
    exact ⟨full, raw, localIo, hschema, hraw, hfiles, hone, (materializeObject_settledBy
      (OptionSchema.collectedSchema_fits hschema) (raw_length hschema hraw)).mpr
        ⟨imported, himports, hignored, hsettled, hvalid⟩, hexport⟩

/-- **The precedence of the sources.** In a successful parse an option has the value of its winning
source alone if and only if nothing of its initializer is left below it. A vector whose initializer
has elements keeps them, unless a configuration file wins, or a value of the command line or of the
environment comes after a configuration file or a default: then what the source gives stands behind
the elements of the initializer. -/
theorem precedence_iff
    (hparse : parseOptionsInto world config argv externalImport externalExports object =
      .ok object') :
    ∃ full raw localIo imported,
      Reading world config argv externalImport full raw localIo imported ∧
      ∀ k : Fin fields.options.length,
        ((optionSources world.getenv raw imported object k).write world.text (full.spec k)
            (emptied _ (fields.get object k)) = .ok (fields.get object' k) ↔
          (optionSources world.getenv raw imported object k).Replaces) ∧
        (¬(optionSources world.getenv raw imported object k).Replaces → ∃ items,
          (∀ field field', (optionSources world.getenv raw imported object k).write world.text
              (full.spec k) field = .ok field' → field' = appended _ field items) ∧
          fields.get object' k = appended _ (fields.get object k) items) := by
  obtain ⟨full, raw, localIo, imported, hread, -, hsettled, -⟩ := parseOptionsInto_eq_ok.mp hparse
  exact ⟨full, raw, localIo, imported, hread, fun k =>
    ⟨Sources.write_emptied_iff (hsettled k).value, Sources.write_appended (hsettled k).value⟩⟩

/-- No environment and no files. -/
def Surroundings.bare (Value : Type) : Surroundings Value where
  text := ⟨fun _ => none, fun _ => none, fun _ => []⟩
  backends := []
  getenv _ := none
  load _ := .error (makeErrorCode .invalidValue)
  save _ _ := .ok ()

/-- A list of paths, and a port with a default. -/
def searchOptions : OptionFields :=
  .option { reflectedName := text "include", type := .vector .string }
    (.option { reflectedName := text "port", type := .scalar .string,
               default := some (.text (text "80")) } .nil)

/-- The paths come behind those of the initializer. -/
theorem precedence_iff_search :
    ∃ full raw localIo imported,
      Reading (.bare searchOptions.Value) {} [some (text "--include=a"), some (text "--port=8080")]
        none full raw localIo imported ∧
      ∀ k : Fin searchOptions.options.length,
        ((optionSources (fun _ => none) raw imported ([text "x"], text "1", ()) k).write
            (Surroundings.bare searchOptions.Value).text (full.spec k)
            (emptied _ (searchOptions.get ([text "x"], text "1", ()) k)) =
          .ok (searchOptions.get ([text "x", text "a"], text "8080", ()) k) ↔
        (optionSources (fun _ => none) raw imported ([text "x"], text "1", ()) k).Replaces) ∧
        (¬(optionSources (fun _ => none) raw imported ([text "x"], text "1", ()) k).Replaces →
          ∃ items, (∀ field field',
              (optionSources (fun _ => none) raw imported ([text "x"], text "1", ()) k).write
                (Surroundings.bare searchOptions.Value).text (full.spec k) field = .ok field' →
              field' = appended _ field items) ∧
            searchOptions.get ([text "x", text "a"], text "8080", ()) k =
              appended _ (searchOptions.get ([text "x"], text "1", ()) k) items) :=
  @precedence_iff searchOptions (.bare searchOptions.Value) {}
    [some (text "--include=a"), some (text "--port=8080")] none none
    ([text "x"], text "1", ()) ([text "x", text "a"], text "8080", ()) rfl

end

end NekoProto.ArgParser
