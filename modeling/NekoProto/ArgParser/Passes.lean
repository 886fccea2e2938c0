import NekoProto.ArgParser.Options
import NekoProto.ArgParser.Definition

/-!
# Passes over an options object

A pass goes over the options of an object with a running `spec_index`, and keeps what is supplied in
one list for all of them. `forEachOption_returns`: it does the same as a step for each option alone,
which sees the field and the flag of that option only (`Passed`). Nothing else of the object or of
the list changes.

The index of an option finds the spec that was made from its field (`OptionSchema.Fits`).
-/

namespace NekoProto.ArgParser

open Binary (Bytes)
open Outcome (bind_eq_ok)

/-! ## Settings -/

/-- An option with the value of its field. -/
abbrev Setting := (option : OptionDecl) × option.type.Value

namespace OptionFields

/-- The options of an object with their values. -/
def settings : (fields : OptionFields) → fields.Value → List Setting
  | nil, _ => []
  | option decl rest, (field, object) =>
    if decl.tags.ignore then rest.settings object else ⟨decl, field⟩ :: rest.settings object
  | nested _ tags fields rest, (inner, object) =>
    if tags.ignore then rest.settings object else fields.settings inner ++ rest.settings object

/-- The fields without options are the same. -/
def SameIgnored : (fields : OptionFields) → fields.Value → fields.Value → Prop
  | nil, _, _ => True
  | option decl rest, (field, object), (field', object') =>
    (decl.tags.ignore = true → field' = field) ∧ rest.SameIgnored object object'
  | nested _ tags fields rest, (inner, object), (inner', object') =>
    (if tags.ignore then inner' = inner else fields.SameIgnored inner inner') ∧
      rest.SameIgnored object object'

section

variable {decl : OptionDecl} {name : Bytes} {tags : FieldTags} {fields rest : OptionFields}
  {field field' : decl.type.Value} {inner inner' : fields.Value} {object object' : rest.Value}

theorem settings_option : (option decl rest).settings (field, object) =
    if decl.tags.ignore then rest.settings object else ⟨decl, field⟩ :: rest.settings object := rfl

theorem settings_nested : (nested name tags fields rest).settings (inner, object) =
    if tags.ignore then rest.settings object
    else fields.settings inner ++ rest.settings object := rfl

theorem sameIgnored_option :
    (option decl rest).SameIgnored (field, object) (field', object') ↔
      (decl.tags.ignore = true → field' = field) ∧ rest.SameIgnored object object' := Iff.rfl

theorem sameIgnored_nested :
    (nested name tags fields rest).SameIgnored (inner, object) (inner', object') ↔
      (if tags.ignore then inner' = inner else fields.SameIgnored inner inner') ∧
        rest.SameIgnored object object' := Iff.rfl

end

theorem map_settings : (fields : OptionFields) → (object : fields.Value) →
    (fields.settings object).map Sigma.fst = fields.options
  | nil, _ => rfl
  | option decl rest, (field, object) => by
    rw [settings_option, options]
    split_ifs
    · exact map_settings rest object
    · exact congrArg (decl :: ·) (map_settings rest object)
  | nested _ tags fields rest, (inner, object) => by
    rw [settings_nested, options]
    split_ifs
    · exact map_settings rest object
    · rw [List.map_append, map_settings fields inner, map_settings rest object]

theorem length_settings {fields : OptionFields} (object : fields.Value) :
    (fields.settings object).length = fields.options.length := by
  rw [← map_settings fields object, List.length_map]

end OptionFields

/-! ## Steps -/

/-- What is done with one option: its field and its flag, before and after. -/
abbrev Step := (option : OptionDecl) → ℕ → option.type.Value → Bool →
  Except ArgParserErrorDetail (option.type.Value × Bool)

/-- A step has been done for each option from `index` on. -/
inductive Passed (step : Step) : ℕ → List Setting → List Bool → List Setting → List Bool → Prop
  | nil {index : ℕ} : Passed step index [] [] [] []
  | cons {index : ℕ} {option : OptionDecl} {field field' : option.type.Value} {flag flag' : Bool}
    {settings settings' : List Setting} {flags flags' : List Bool} :
    step option index field flag = .ok (field', flag') →
    Passed step (index + 1) settings flags settings' flags' →
    Passed step index (⟨option, field⟩ :: settings) (flag :: flags) (⟨option, field'⟩ :: settings')
      (flag' :: flags')

namespace Passed

variable {step : Step} {index : ℕ} {ss ss' ss₁ ss₁' ss₂ ss₂' : List Setting}
  {bs bs' bs₁ bs₁' bs₂ bs₂' : List Bool}

theorem lengths (h : Passed step index ss bs ss' bs') :
    bs.length = ss.length ∧ ss'.length = ss.length ∧ bs'.length = ss.length := by
  induction h with
  | nil => exact ⟨rfl, rfl, rfl⟩
  | cons hstep h ih =>
    obtain ⟨h₁, h₂, h₃⟩ := ih
    exact ⟨congrArg (· + 1) h₁, congrArg (· + 1) h₂, congrArg (· + 1) h₃⟩

/-- The options of one part, and then those of the other. -/
theorem append_iff (hlength : bs₁.length = ss₁.length) (hlength' : ss₁'.length = ss₁.length)
    (hflags' : bs₁'.length = ss₁.length) :
    Passed step index (ss₁ ++ ss₂) (bs₁ ++ bs₂) (ss₁' ++ ss₂') (bs₁' ++ bs₂') ↔
      Passed step index ss₁ bs₁ ss₁' bs₁' ∧
        Passed step (index + ss₁.length) ss₂ bs₂ ss₂' bs₂' := by
  induction ss₁ generalizing index bs₁ ss₁' bs₁' with
  | nil =>
    obtain rfl := List.length_eq_zero_iff.mp hlength
    obtain rfl := List.length_eq_zero_iff.mp hlength'
    obtain rfl := List.length_eq_zero_iff.mp hflags'
    exact ⟨fun h => ⟨.nil, h⟩, fun h => h.2⟩
  | cons setting ss₁ ih =>
    obtain ⟨flag, bs₁, rfl⟩ := List.exists_of_length_succ _ hlength
    obtain ⟨setting', ss₁', rfl⟩ := List.exists_of_length_succ _ hlength'
    obtain ⟨flag', bs₁', rfl⟩ := List.exists_of_length_succ _ hflags'
    have hrest := @ih (index + 1) ss₁' bs₁ bs₁' (Nat.succ_injective hlength)
      (Nat.succ_injective hlength') (Nat.succ_injective hflags')
    rw [show index + 1 + ss₁.length = index + (setting :: ss₁).length by
      rw [List.length_cons]; omega] at hrest
    constructor
    · rintro (_ | ⟨hstep, h⟩)
      obtain ⟨h₁, h₂⟩ := hrest.mp h
      exact ⟨.cons hstep h₁, h₂⟩
    · rintro ⟨_ | ⟨hstep, h₁⟩, h₂⟩
      exact .cons hstep (hrest.mpr ⟨h₁, h₂⟩)

/-- One option of those that the step has been done for. -/
theorem getElem (h : Passed step index ss bs ss' bs') {k : ℕ} {option : OptionDecl}
    {field : option.type.Value} (hk : ss[k]? = some ⟨option, field⟩) :
    ∃ flag field' flag', bs[k]? = some flag ∧ ss'[k]? = some ⟨option, field'⟩ ∧
      bs'[k]? = some flag' ∧ step option (index + k) field flag = .ok (field', flag') := by
  induction h generalizing k with
  | nil => simp at hk
  | @cons index _ _ _ flag _ _ _ _ _ hstep h ih =>
    cases k with
    | zero =>
      simp only [List.getElem?_cons_zero, Option.some.injEq] at hk
      cases hk
      exact ⟨flag, _, _, rfl, rfl, rfl, hstep⟩
    | succ k =>
      obtain ⟨flag, field', flag', h₁, h₂, h₃, hstep⟩ := ih hk
      rw [show index + 1 + k = index + (k + 1) by omega] at hstep
      exact ⟨flag, field', flag', h₁, h₂, h₃, hstep⟩

/-- The step has been done for each option, if it has been done for each index. -/
theorem of_getElem (hlength : bs.length = ss.length) (hlength' : ss'.length = ss.length)
    (hflags' : bs'.length = ss.length)
    (h : ∀ k option field, ss[k]? = some ⟨option, field⟩ →
      ∃ flag field' flag', bs[k]? = some flag ∧ ss'[k]? = some ⟨option, field'⟩ ∧
        bs'[k]? = some flag' ∧ step option (index + k) field flag = .ok (field', flag')) :
    Passed step index ss bs ss' bs' := by
  induction ss generalizing index bs ss' bs' with
  | nil =>
    obtain rfl := List.length_eq_zero_iff.mp hlength
    obtain rfl := List.length_eq_zero_iff.mp hlength'
    obtain rfl := List.length_eq_zero_iff.mp hflags'
    exact .nil
  | cons setting ss ih =>
    obtain ⟨b, bs, rfl⟩ := List.exists_of_length_succ _ hlength
    obtain ⟨setting', ss', rfl⟩ := List.exists_of_length_succ _ hlength'
    obtain ⟨b', bs', rfl⟩ := List.exists_of_length_succ _ hflags'
    obtain ⟨option, field⟩ := setting
    obtain ⟨flag, field', flag', hflag, hfield', hflag', hstep⟩ := h 0 option field rfl
    cases hflag
    cases hfield'
    cases hflag'
    refine .cons hstep (ih (Nat.succ_injective hlength) (Nat.succ_injective hlength')
      (Nat.succ_injective hflags') fun k option field hk => ?_)
    obtain ⟨flag, field', flag', h₁, h₂, h₃, hstep⟩ := h (k + 1) option field hk
    rw [show index + (k + 1) = index + 1 + k by omega] at hstep
    exact ⟨flag, field', flag', h₁, h₂, h₃, hstep⟩

end Passed

/-! ## Passes -/

/-- A visit does a step with the flag at its index. -/
def Does (visit : Visit PresenceList) (step : Step) (userSpecCount count : ℕ) : Prop :=
  ∀ (option : OptionDecl) (index : ℕ) (field : option.type.Value) (flags : PresenceList),
    index < userSpecCount → index < flags.length → flags.length = count →
    visit option index field flags =
      (step option index field (flags.getD index false)).map fun done =>
        (done.1, flags.set index done.2)

section

variable {visit : Visit PresenceList} {step : Step} {userSpecCount count : ℕ}

theorem map_eq_ok {ε α β : Type} {x : Except ε α} {f : α → β} {b : β} :
    x.map f = .ok b ↔ ∃ a, x = .ok a ∧ b = f a := by
  cases x with
  | error e => simp [Except.map]
  | ok a => simp [Except.map, eq_comm]

theorem pure_eq_ok {ε α : Type} {a b : α} : (pure a : Except ε α) = .ok b ↔ a = b :=
  ⟨Except.ok.inj, congrArg Except.ok⟩

theorem forEachOption_option {decl : OptionDecl} {rest : OptionFields} {field : decl.type.Value}
    {object : rest.Value} {index : ℕ} {s : PresenceList} :
    forEachOption visit (.option decl rest) (field, object) index s =
      if decl.tags.ignore then do
        let (object, index, s) ← forEachOption visit rest object index s
        return ((field, object), index, s)
      else do
        let (field, s) ← visit decl index field s
        let (object, index, s) ← forEachOption visit rest object (index + 1) s
        return ((field, object), index, s) := rfl

theorem forEachOption_nested {name : Bytes} {tags : FieldTags} {fields rest : OptionFields}
    {inner : fields.Value} {object : rest.Value} {index : ℕ} {s : PresenceList} :
    forEachOption visit (.nested name tags fields rest) (inner, object) index s =
      if tags.ignore then do
        let (object, index, s) ← forEachOption visit rest object index s
        return ((inner, object), index, s)
      else do
        let (inner, index, s) ← forEachOption visit fields inner index s
        let (object, index, s) ← forEachOption visit rest object index s
        return ((inner, object), index, s) := rfl

/-- **A pass does its step for each option alone**, in the order of the options. -/
theorem forEachOption_returns (hdoes : Does visit step userSpecCount count) :
    (fields : OptionFields) → ∀ {object object' : fields.Value} {pre flags post s' : List Bool}
    {index index' : ℕ}, pre.length = index → flags.length = fields.options.length →
    index + fields.options.length ≤ userSpecCount → (pre ++ flags ++ post).length = count →
    (forEachOption visit fields object index (pre ++ flags ++ post) = .ok (object', index', s') ↔
      index' = index + fields.options.length ∧ fields.SameIgnored object object' ∧
        ∃ flags', s' = pre ++ flags' ++ post ∧
          Passed step index (fields.settings object) flags (fields.settings object') flags')
  | .nil, object, object', pre, flags, post, s', index, index', hpre, hflags, hbound, hcount => by
    obtain rfl := List.length_eq_zero_iff.mp hflags
    constructor
    · intro h
      cases h
      exact ⟨rfl, trivial, [], rfl, .nil⟩
    · rintro ⟨rfl, -, flags', rfl, hpassed⟩
      cases hpassed
      rfl
  | .option decl rest, (field, object), (field', object'), pre, flags, post, s', index, index',
      hpre, hflags, hbound, hcount => by
    rw [forEachOption_option, OptionFields.sameIgnored_option, OptionFields.settings_option,
      OptionFields.settings_option]
    rw [OptionFields.options] at hflags hbound ⊢
    by_cases hignore : decl.tags.ignore = true
    · rw [if_pos hignore] at hflags hbound
      simp only [if_pos hignore, bind_eq_ok, Prod.exists, pure_eq_ok,
        forEachOption_returns hdoes rest hpre hflags hbound hcount]
      constructor
      · rintro ⟨_, _, _, ⟨rfl, hsame, flags', rfl, hpassed⟩, heq⟩
        cases heq
        exact ⟨rfl, ⟨fun _ => rfl, hsame⟩, flags', rfl, hpassed⟩
      · rintro ⟨rfl, ⟨hfield, hsame⟩, flags', rfl, hpassed⟩
        rw [hfield hignore]
        exact ⟨_, _, _, ⟨rfl, hsame, flags', rfl, hpassed⟩, rfl⟩
    · rw [if_neg hignore] at hflags hbound
      obtain ⟨flag, flags, rfl⟩ := List.exists_of_length_succ _ hflags
      rw [List.length_cons] at hbound
      have hget : (pre ++ flag :: flags ++ post).getD index false = flag := by
        subst hpre
        simp
      have hset : ∀ flag', (pre ++ flag :: flags ++ post).set index flag' =
          (pre ++ [flag']) ++ flags ++ post := by
        intro flag'
        subst hpre
        simp
      have hvisit := hdoes decl index field (pre ++ flag :: flags ++ post) (by omega)
        (by simp only [List.length_append, List.length_cons]; omega) hcount
      rw [hget] at hvisit
      have hrest : ∀ {object' : rest.Value} {flag' : Bool} {index' : ℕ} {s' : List Bool}, _ :=
        fun {object'} {flag'} {index'} {s'} => @forEachOption_returns hdoes rest object object'
          (pre ++ [flag']) flags post s' (index + 1) index' (by simp [hpre])
          (Nat.succ_injective hflags) (by omega)
          (by simp only [List.length_append, List.length_cons, List.length_nil] at hcount ⊢; omega)
      simp only [if_neg hignore, bind_eq_ok, hvisit, map_eq_ok, Prod.exists, pure_eq_ok,
        List.length_cons]
      constructor
      · rintro ⟨_, _, ⟨_, flag', hstep, heq⟩, _, _, _, hpass, heq'⟩
        cases heq
        cases heq'
        rw [hset] at hpass
        obtain ⟨rfl, hsame, flags', rfl, hpassed⟩ := hrest.mp hpass
        exact ⟨by omega, ⟨fun h => absurd h hignore, hsame⟩, flag' :: flags', by simp,
          .cons hstep hpassed⟩
      · rintro ⟨rfl, ⟨-, hsame⟩, flags', rfl, _ | ⟨hstep, hpassed⟩⟩
        refine ⟨_, _, ⟨_, _, hstep, rfl⟩, _, _, _, ?_, rfl⟩
        rw [hset]
        exact hrest.mpr ⟨by omega, hsame, _, by simp, hpassed⟩
  | .nested name tags fields rest, (inner, object), (inner', object'), pre, flags, post, s', index,
      index', hpre, hflags, hbound, hcount => by
    rw [forEachOption_nested, OptionFields.sameIgnored_nested, OptionFields.settings_nested,
      OptionFields.settings_nested]
    rw [OptionFields.options] at hflags hbound ⊢
    by_cases hignore : tags.ignore = true
    · rw [if_pos hignore] at hflags hbound
      simp only [if_pos hignore, bind_eq_ok, Prod.exists, pure_eq_ok,
        forEachOption_returns hdoes rest hpre hflags hbound hcount]
      constructor
      · rintro ⟨_, _, _, ⟨rfl, hsame, flags', rfl, hpassed⟩, heq⟩
        cases heq
        exact ⟨rfl, ⟨rfl, hsame⟩, flags', rfl, hpassed⟩
      · rintro ⟨rfl, ⟨rfl, hsame⟩, flags', rfl, hpassed⟩
        exact ⟨_, _, _, ⟨rfl, hsame, flags', rfl, hpassed⟩, rfl⟩
    · rw [if_neg hignore, List.length_append] at hflags hbound
      obtain ⟨first, second, rfl, hfirst, hsecond⟩ : ∃ first second, flags = first ++ second ∧
          first.length = fields.options.length ∧ second.length = rest.options.length :=
        ⟨flags.take fields.options.length, flags.drop fields.options.length,
          (List.take_append_drop _ _).symm, by rw [List.length_take]; omega,
          by rw [List.length_drop]; omega⟩
      have hcounts : ∀ flags' : List Bool, flags'.length = fields.options.length →
          (pre ++ flags' ++ second ++ post).length = count := by
        intro flags' hlength
        simp only [List.length_append] at hcount ⊢
        omega
      have hinner : ∀ {inner₁ : fields.Value} {index₁ : ℕ} {s₁ : List Bool}, _ :=
        fun {inner₁} {index₁} {s₁} => @forEachOption_returns hdoes fields inner inner₁
          pre first (second ++ post) s₁ index index₁ hpre hfirst (by omega)
          (by rw [← List.append_assoc]; exact hcounts first hfirst)
      have hrest : ∀ {object₁ : rest.Value} {flags' : List Bool} {index₁ : ℕ} {s₁ : List Bool}
          (hlength : flags'.length = fields.options.length), _ :=
        fun {object₁} {flags'} {index₁} {s₁} hlength => @forEachOption_returns hdoes rest object
          object₁ (pre ++ flags') second post s₁ (index + fields.options.length) index₁
          (by rw [List.length_append, hpre, hlength]) hsecond (by omega) (hcounts flags' hlength)
      have hassoc : pre ++ (first ++ second) ++ post = pre ++ first ++ (second ++ post) := by simp
      simp only [if_neg hignore, bind_eq_ok, Prod.exists, pure_eq_ok, hassoc, hinner,
        List.length_append]
      constructor
      · rintro ⟨_, _, _, ⟨rfl, hsame, flags₁, rfl, hpassed⟩, _, _, _, hpass, heq⟩
        cases heq
        have hlength : flags₁.length = fields.options.length := by
          rw [hpassed.lengths.2.2, OptionFields.length_settings]
        rw [← List.append_assoc] at hpass
        obtain ⟨rfl, hsame₂, flags₂, rfl, hpassed₂⟩ := (hrest hlength).mp hpass
        refine ⟨by omega, ⟨hsame, hsame₂⟩, flags₁ ++ flags₂, by simp, ?_⟩
        rw [Passed.append_iff hpassed.lengths.1 hpassed.lengths.2.1 hpassed.lengths.2.2,
          OptionFields.length_settings]
        exact ⟨hpassed, hpassed₂⟩
      · rintro ⟨rfl, ⟨hsame, hsame₂⟩, flags', rfl, hpassed⟩
        have hlengths := hpassed.lengths.2.2
        rw [List.length_append, OptionFields.length_settings, OptionFields.length_settings]
          at hlengths
        obtain ⟨flags₁, flags₂, rfl, hlength⟩ : ∃ flags₁ flags₂, flags' = flags₁ ++ flags₂ ∧
            flags₁.length = fields.options.length :=
          ⟨flags'.take fields.options.length, flags'.drop fields.options.length,
            (List.take_append_drop _ _).symm, by rw [List.length_take]; omega⟩
        rw [Passed.append_iff (by rw [hfirst, OptionFields.length_settings])
          (by rw [OptionFields.length_settings, OptionFields.length_settings])
          (by rw [hlength, OptionFields.length_settings]), OptionFields.length_settings] at hpassed
        refine ⟨_, _, _, ⟨rfl, hsame, flags₁, rfl, hpassed.1⟩, _, _, _, ?_, rfl⟩
        rw [← List.append_assoc]
        exact (hrest hlength).mpr ⟨by omega, hsame₂, flags₂, by simp, hpassed.2⟩

end

/-! ## Specs -/

/-- The spec of an option, in some scope. -/
def MadeFrom (separator : UInt8) (option : OptionDecl) (spec : ArgSpec) : Prop :=
  ∃ pre, ArgSchema.SameNames (makeArgSpec pre option.reflectedName option.tags option.type.isBool
    option.type.isVector separator) spec

/-- The specs of an options type: first those of its options, then those of the files. -/
structure OptionSchema.Fits (full : OptionSchema) (fields : OptionFields) : Prop where
  userSpecCount : full.schema.userSpecCount = fields.options.length
  count_le : fields.options.length ≤ full.schema.specs.length
  made : ∀ (k : ℕ) (option : OptionDecl), fields.options[k]? = some option →
    ∃ arg, full.schema.specs[k]? = some arg ∧ MadeFrom full.schema.nestedSeparator option arg ∧
      full.values[k]? = some option.value

namespace OptionSchema

section

variable {full : OptionSchema} {fields : OptionFields} {separator : UInt8}

theorem collectSchemaInto_specs : (fields : OptionFields) → ∀ (pre : Bytes) (schema : ArgSchema),
    (ArgSchema.collectSchemaInto pre separator fields.toList schema).nestedSeparator =
      schema.nestedSeparator ∧
    ∃ specs, (ArgSchema.collectSchemaInto pre separator fields.toList schema).specs =
      schema.specs ++ specs ∧ List.Forall₂ (MadeFrom separator) fields.options specs
  | .nil, pre, schema => by
    refine ⟨rfl, [], ?_, .nil⟩
    rw [List.append_nil]
    rfl
  | .option decl rest, pre, schema => by
    rw [OptionFields.toList, OptionFields.options, ArgSchema.collectSchemaInto,
      ArgSchema.collectField]
    split_ifs with hignore
    · exact collectSchemaInto_specs rest pre schema
    · obtain ⟨hseparator, specs, hspecs, hmade⟩ := collectSchemaInto_specs rest pre
        (schema.pushUserSpec (makeArgSpec pre decl.reflectedName decl.tags decl.type.isBool
          decl.type.isVector separator))
      refine ⟨hseparator, makeArgSpec pre decl.reflectedName decl.tags decl.type.isBool
        decl.type.isVector separator :: specs, ?_, .cons ⟨pre, rfl⟩ hmade⟩
      rw [hspecs, ArgSchema.pushUserSpec, List.append_assoc, List.singleton_append]
  | .nested name tags fields rest, pre, schema => by
    rw [OptionFields.toList, OptionFields.options, ArgSchema.collectSchemaInto,
      ArgSchema.collectField]
    split_ifs with hignore
    · exact collectSchemaInto_specs rest pre schema
    · obtain ⟨hseparator, specs, hspecs, hmade⟩ := collectSchemaInto_specs fields
        (joinArgName pre (fieldName name tags) separator) schema
      obtain ⟨hseparator', specs', hspecs', hmade'⟩ := collectSchemaInto_specs rest pre
        (ArgSchema.collectSchemaInto (joinArgName pre (fieldName name tags) separator) separator
          fields.toList schema)
      refine ⟨hseparator'.trans hseparator, specs ++ specs', ?_, List.rel_append hmade hmade'⟩
      rw [hspecs', hspecs, List.append_assoc]

/-- The schema is the one that the command line is parsed with. -/
theorem schema_collect (fields : OptionFields) (separator : UInt8)
    (builtins : List (Bytes × ConfigIoBuiltinSpec)) :
    (collect fields separator builtins).schema =
      ArgSchema.collectSchema fields.toList separator (builtins.map Prod.fst) := by
  have hfold : ∀ (builtins : List (Bytes × ConfigIoBuiltinSpec)) (full : OptionSchema),
      (builtins.foldl pushBuiltin full).schema =
        (builtins.map Prod.fst).foldl ArgSchema.pushConfigIoSpecIfAvailable full.schema := by
    intro builtins
    induction builtins with
    | nil => exact fun _ => rfl
    | cons builtin builtins ih =>
      intro full
      rw [List.foldl_cons, List.map_cons, List.foldl_cons, ih]
      refine congrArg (List.foldl _ · _) ?_
      rw [pushBuiltin]
      split_ifs with htaken
      · rw [ArgSchema.pushConfigIoSpecIfAvailable, if_pos htaken]
      · rfl
  exact hfold builtins _

theorem Fits.pushBuiltin (h : full.Fits fields) (builtin : Bytes × ConfigIoBuiltinSpec) :
    (full.pushBuiltin builtin).Fits fields := by
  unfold OptionSchema.pushBuiltin ArgSchema.pushConfigIoSpecIfAvailable
  split_ifs with htaken
  · exact h
  · refine ⟨h.userSpecCount, ?_, fun k option hk => ?_⟩
    · rw [List.length_append]
      exact h.count_le.trans (Nat.le_add_right _ _)
    · obtain ⟨arg, harg, hmade, hvalue⟩ := h.made k option hk
      refine ⟨arg, ?_, hmade, ?_⟩
      · rw [List.getElem?_append_left (List.getElem?_eq_some_iff.mp harg).1, harg]
      · rw [List.getElem?_append_left (List.getElem?_eq_some_iff.mp hvalue).1, hvalue]

theorem collect_fits (fields : OptionFields) (separator : UInt8)
    (builtins : List (Bytes × ConfigIoBuiltinSpec)) :
    (collect fields separator builtins).Fits fields := by
  obtain ⟨hseparator, specs, hspecs, hmade⟩ :=
    @collectSchemaInto_specs separator fields [] { nestedSeparator := separator }
  rw [List.nil_append] at hspecs
  unfold collect
  apply List.foldlRecOn builtins pushBuiltin (motive := fun full => full.Fits fields) ?_
    fun full hfull builtin _ => hfull.pushBuiltin builtin
  refine ⟨?_, ?_, fun k option hk => ?_⟩
  · show List.length (ArgSchema.specs _) = _
    rw [hspecs, hmade.length_eq]
  · show _ ≤ List.length (ArgSchema.specs _)
    rw [hspecs, hmade.length_eq]
  · have hlt := (List.getElem?_eq_some_iff.mp hk).1
    have hget := hmade.get hlt (hmade.length_eq ▸ hlt)
    have hoption : fields.options.get ⟨k, hlt⟩ = option :=
      (List.getElem?_eq_some_iff.mp hk).2
    rw [hoption] at hget
    refine ⟨specs.get ⟨k, hmade.length_eq ▸ hlt⟩, ?_, ?_, ?_⟩
    · show (ArgSchema.specs _)[k]? = _
      rw [hspecs]
      exact List.getElem?_eq_getElem _
    · show MadeFrom (ArgSchema.nestedSeparator _) _ _
      rwa [hseparator]
    · show (fields.options.map OptionDecl.value)[k]? = _
      rw [List.getElem?_map, hk, Option.map_some]

/-- Validating a schema keeps its specs. -/
theorem Fits.of_validated (h : full.Fits fields) {schema' : ArgSchema}
    (hvalidate : full.schema.validateSchemaDefinition = .ok schema') :
    ({ full with schema := schema' } : OptionSchema).Fits fields := by
  obtain ⟨-, ⟨specs, rfl, hsame⟩, -⟩ := ArgSchema.validateSchemaDefinition_ok hvalidate
  refine ⟨h.userSpecCount, hsame.length_eq ▸ h.count_le, fun k option hk => ?_⟩
  obtain ⟨arg, harg, ⟨pre, hmade⟩, hvalue⟩ := h.made k option hk
  have hlt := (List.getElem?_eq_some_iff.mp harg).1
  have hget := hsame.get hlt (hsame.length_eq ▸ hlt)
  have hfound : full.schema.specs.get ⟨k, hlt⟩ = arg := (List.getElem?_eq_some_iff.mp harg).2
  rw [hfound] at hget
  refine ⟨specs.get ⟨k, hsame.length_eq ▸ hlt⟩, List.getElem?_eq_getElem _, ⟨pre, ?_⟩, hvalue⟩
  unfold ArgSchema.SameNames at hmade hget ⊢
  rw [hget, hmade]

theorem collectedSchema_fits {backends : List ConfigIoBackend} {config : ParserConfig}
    (h : collectedSchema fields backends config = .ok full) : full.Fits fields := by
  obtain ⟨schema', hvalidate, heq⟩ := bind_eq_ok.mp h
  cases heq
  exact (collect_fits fields config.nestedSeparator _).of_validated hvalidate

end

end OptionSchema

end NekoProto.ArgParser
