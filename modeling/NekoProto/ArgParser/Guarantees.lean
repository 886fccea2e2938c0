import NekoProto.ArgParser.Precedence

/-!
# What a parsed object keeps to

`parsed_guarantees`: in every object that the parser returns

1. a value that comes from the command line, the environment or a default is in its range and among
   its choices, the whole vector if it is one. What a configuration file or an initializer says is
   not looked at.
2. an option that is required has a source.
3. an option that is active finds the options that it requires active, and those it conflicts with
   inactive. The references are the names that the tags say, resolved as the schema does.
-/

namespace NekoProto.ArgParser

open Binary (Bytes)
open Outcome (bind_eq_ok)

/-! ## Valid values -/

/-- The values that an option may have. -/
def Admits (spec : ValueSpec) (T : FieldType) (value : T.Value) : Prop :=
  (∀ range, spec.range = some range → T.all (scalarInRange range.1 range.2 T.item) value = true) ∧
  (spec.choices ≠ [] →
    T.all (choiceValueAllowed spec.choices spec.caseInsensitiveChoices T.item) value = true)

section

variable {lib : FloatingText} {spec : OptionSpec} {T : FieldType} {field field' value : T.Value}

theorem validateRange_admits {spec : ValueSpec} (h : validateRange spec T value = .ok ()) :
    ∀ range, spec.range = some range →
      T.all (scalarInRange range.1 range.2 T.item) value = true := by
  intro range hrange
  rw [validateRange, hrange] at h
  dsimp only at h
  split_ifs at h with htype hall
  exact hall

theorem validateChoices_admits {spec : ValueSpec} (h : validateChoices spec T value = .ok ()) :
    spec.choices ≠ [] →
      T.all (choiceValueAllowed spec.choices spec.caseInsensitiveChoices T.item) value = true := by
  intro hchoices
  rw [validateChoices, if_neg hchoices] at h
  split_ifs at h with htype hall
  exact hall

theorem validateFieldValue_admits {spec : ValueSpec}
    (h : validateFieldValue spec T value = .ok ()) : Admits spec T value := by
  obtain ⟨⟨⟩, hrange, hchoices⟩ := bind_eq_ok.mp h
  exact ⟨validateRange_admits hrange, validateChoices_admits hchoices⟩

/-- The last of several values is checked together with those before it. -/
theorem assignValues_admits {values : List Bytes} (hne : values ≠ [])
    (h : assignValues lib spec values field = .ok field') : Admits spec.value T field' := by
  induction values generalizing field with
  | nil => exact absurd rfl hne
  | cons value values ih =>
    obtain ⟨middle, hfirst, hrest⟩ := bind_eq_ok.mp h
    cases values with
    | nil =>
      cases hrest
      exact validateFieldValue_admits (assignTextToField_eq_ok.mp hfirst).2
    | cons next values => exact ih (List.cons_ne_nil _ _) hrest

/-- What is written from a text or from a default is a valid value. -/
theorem Sources.write_admits {sources : Sources T}
    (hconfiguration : sources.first ≠ .configuration) (hinitializer : sources.first ≠ .initializer)
    (h : sources.write lib spec field = .ok field') : Admits spec.value T field' := by
  obtain ⟨hfirst, hwrite⟩ | ⟨_, -, hwrite⟩ | ⟨_, hfirst, -⟩ | ⟨_, -, -, hwrite⟩ | ⟨hfirst, -⟩ :=
    @Sources.write_cases lib spec T sources
  · rw [hwrite] at h
    refine assignValues_admits (fun hnil => ?_) h
    rw [Sources.first, hnil, if_neg (not_not.mpr rfl)] at hfirst
    split_ifs at hfirst
  · rw [hwrite] at h
    exact validateFieldValue_admits (assignTextToField_eq_ok.mp h).2
  · exact absurd hfirst hconfiguration
  · rw [hwrite] at h
    exact validateFieldValue_admits (assignDefaultToField_eq_ok.mp h).2
  · exact absurd hfirst hinitializer

end

/-! ## References -/

namespace ArgSchema

variable {schema schema' : ArgSchema} {spec spec' : ArgSpec} {index k : ℕ} {kind : Bytes}
  {references : List Bytes} {found : List ℕ}

/-- The targets are those that the lookup finds. -/
theorem targets_eq_ok : schema.targets spec index kind references = .ok found ↔
    List.Forall₂ (fun reference target =>
      schema.findReferenceIndex spec reference = some target ∧ target ≠ index)
      references found := by
  induction references generalizing found with
  | nil =>
    rw [targets, List.forall₂_nil_left_iff, Except.ok.injEq, eq_comm]
  | cons reference references ih =>
    rw [targets, List.forall₂_cons_left_iff]
    cases hfind : schema.findReferenceIndex spec reference with
    | none =>
      refine iff_of_false (fun h => by cases h) ?_
      rintro ⟨target, -, ⟨h, -⟩, -⟩
      cases h
    | some target =>
      dsimp only
      by_cases heq : target = index
      · rw [if_pos heq]
        refine iff_of_false (fun h => by cases h) ?_
        rintro ⟨_, -, ⟨h, hne⟩, -⟩
        cases h
        exact hne heq
      · rw [if_neg heq]
        simp only [bind_eq_ok, ih, pure_eq_ok]
        constructor
        · rintro ⟨rest, hrest, rfl⟩
          exact ⟨target, rest, ⟨rfl, heq⟩, hrest, rfl⟩
        · rintro ⟨_, rest, ⟨h, -⟩, hrest, rfl⟩
          cases h
          exact ⟨rest, hrest, rfl⟩

theorem resolveSpecs_getElem {specs specs' : List ArgSpec}
    (h : schema.resolveSpecs specs index = .ok specs') (hspec : specs[k]? = some spec)
    (huser : index + k < schema.userSpecCount) :
    ∃ spec', specs'[k]? = some spec' ∧ schema.resolveSpec spec (index + k) = .ok spec' := by
  induction specs generalizing index specs' k with
  | nil => cases hspec
  | cons first specs ih =>
    rw [resolveSpecs, if_pos (by omega)] at h
    obtain ⟨first', hfirst, h⟩ := bind_eq_ok.mp h
    obtain ⟨rest, hrest, h⟩ := bind_eq_ok.mp h
    cases h
    cases k with
    | zero =>
      cases hspec
      exact ⟨first', rfl, hfirst⟩
    | succ k =>
      obtain ⟨spec', hspec', hresolve⟩ := ih hrest hspec (by omega)
      refine ⟨spec', hspec', ?_⟩
      rwa [← Nat.add_assoc, Nat.add_right_comm]

theorem findIdx?_sameNames {specs specs' : List ArgSpec} {test : ArgSpec → Bool}
    (htest : ∀ spec other, SameNames spec other → test other = test spec)
    (h : List.Forall₂ SameNames specs specs') : specs'.findIdx? test = specs.findIdx? test := by
  induction h with
  | nil => rfl
  | cons hfirst _ ih => rw [List.findIdx?_cons, List.findIdx?_cons, htest _ _ hfirst, ih]

theorem climb_congr (h : schema'.nestedSeparator = schema.nestedSeparator)
    (scope reference : Bytes) : schema'.climb scope reference = schema.climb scope reference := by
  fun_induction climb schema scope reference with
  | case1 scope first second third reference hdots ih =>
    rw [climb, if_pos hdots, h]
    exact ih
  | case2 scope first second third reference hdots => rw [climb, if_neg hdots]
  | case3 scope reference hshort => rw [climb.eq_2 _ _ _ hshort]

/-- Resolving the references does not change what they find. -/
theorem findReferenceIndex_sameNames {specs : List ArgSpec} {reference : Bytes}
    (h : List.Forall₂ SameNames schema.specs specs) (hspec : SameNames spec spec') :
    ({ schema with specs := specs } : ArgSchema).findReferenceIndex spec' reference =
      schema.findReferenceIndex spec reference := by
  have hlong : ∀ name, ({ schema with specs := specs } : ArgSchema).findLongIndex name =
      schema.findLongIndex name :=
    fun name => findIdx?_sameNames (fun _ _ heq => by rw [heq]; rfl) h
  have hshort : ∀ name, ({ schema with specs := specs } : ArgSchema).findShortIndex name =
      schema.findShortIndex name :=
    fun name => findIdx?_sameNames (fun _ _ heq => by rw [heq]; rfl) h
  have hexact : ∀ name, ({ schema with specs := specs } : ArgSchema).findExactReferenceIndex name =
      schema.findExactReferenceIndex name :=
    fun name => findIdx?_sameNames (fun _ _ heq => by rw [heq]; rfl) h
  have hname : ({ schema with specs := specs } : ArgSchema).resolveReferenceName spec' reference =
      schema.resolveReferenceName spec reference := by
    have hscope : spec'.scope = spec.scope := by rw [hspec]
    unfold resolveReferenceName
    rw [hscope, @climb_congr schema { schema with specs := specs } rfl]
    rfl
  unfold findReferenceIndex
  simp only [hlong, hshort, hexact, hname]

/-- What the references of a spec find in the schema. -/
def Resolved (schema : ArgSchema) (index : ℕ) (references : List Bytes) (targets : List ℕ) :
    Prop :=
  List.Forall₂ (fun reference target =>
    schema.findReferenceIndex (schema.specAt index) reference = some target ∧ target ≠ index)
    references targets

/-- The indices of a user spec are what its references find. -/
theorem resolved_of_validated (h : schema.validateSchemaDefinition = .ok schema')
    (huser : k < schema.userSpecCount) (hlt : k < schema.specs.length) :
    schema'.Resolved k (schema'.specAt k).requiresNames (schema'.specAt k).requireIndices ∧
      schema'.Resolved k (schema'.specAt k).conflicts (schema'.specAt k).conflictIndices := by
  rw [validateSchemaDefinition] at h
  split_ifs at h with hseparator
  obtain ⟨names, hnames, h⟩ := bind_eq_ok.mp h
  obtain ⟨_, hpositionals, h⟩ := bind_eq_ok.mp h
  obtain ⟨specs, hspecs, h⟩ := bind_eq_ok.mp h
  cases h
  obtain ⟨hsame, -⟩ := resolveSpecs_ok hspecs
  obtain ⟨spec', hspec', hresolve⟩ := resolveSpecs_getElem hspecs
    (List.getElem?_eq_getElem hlt) (by omega)
  rw [Nat.zero_add] at hresolve
  obtain ⟨hnamed, -⟩ := resolveSpec_ok hresolve
  obtain ⟨requireIndices, hrequires, h⟩ := bind_eq_ok.mp hresolve
  obtain ⟨conflictIndices, hconflicts, heq⟩ := bind_eq_ok.mp h
  have hat : ({ schema with specs := specs } : ArgSchema).specAt k = spec' := by
    rw [specAt, List.getD_eq_getElem?_getD, hspec', Option.getD_some]
  have hresolved : ∀ {references : List Bytes} {kind : Bytes} {targets : List ℕ},
      schema.targets schema.specs[k] k kind references = .ok targets →
        ({ schema with specs := specs } : ArgSchema).Resolved k references targets := by
    intro references kind targets htargets
    unfold Resolved
    rw [hat]
    simp only [findReferenceIndex_sameNames hsame hnamed]
    exact targets_eq_ok.mp htargets
  rw [hat]
  cases heq
  exact ⟨hresolved hrequires, hresolved hconflicts⟩

end ArgSchema

/-! ## Guarantees -/

section

variable {fields : OptionFields} {world : Surroundings fields.Value} {config : ParserConfig}
  {argv : List (Option Bytes)} {externalImport : Option ConfigIoFile}
  {externalExports : Option ConfigIoSelection} {full : OptionSchema} {object object' : fields.Value}

/-- What the parser promises of an option of an object, given where the values come from. -/
structure Guaranteed (full : OptionSchema)
    (sources : (k : Fin fields.options.length) → Sources (fields.options.get k).type)
    (object : fields.Value) (k : Fin fields.options.length) : Prop where
  admits : (sources k).first ≠ .configuration → (sources k).first ≠ .initializer →
    Admits (fields.options.get k).value _ (fields.get object k)
  required : (fields.options.get k).tags.required = true → (sources k).supplied = true
  requirements : ActiveAt object (fun k => (sources k).supplied) k →
    ∀ reference ∈ (fields.options.get k).tags.requiresNames, ∃ target,
      full.schema.findReferenceIndex (full.schema.specAt k) reference = some target ∧
        target ≠ k ∧ ActiveAt object (fun k => (sources k).supplied) target
  conflicts : ActiveAt object (fun k => (sources k).supplied) k →
    ∀ reference ∈ (fields.options.get k).tags.conflicts, ∃ target,
      full.schema.findReferenceIndex (full.schema.specAt k) reference = some target ∧
        target ≠ k ∧ ¬ActiveAt object (fun k => (sources k).supplied) target

theorem exists_target {α β : Type} {R : α → β → Prop} {references : List α} {targets : List β}
    (h : List.Forall₂ R references targets) {reference : α} (hmem : reference ∈ references) :
    ∃ target ∈ targets, R reference target := by
  induction h with
  | nil => cases hmem
  | cons hfirst _ ih =>
    rcases List.mem_cons.mp hmem with rfl | hmem
    · exact ⟨_, List.mem_cons_self, hfirst⟩
    · obtain ⟨target, htarget, hR⟩ := ih hmem
      exact ⟨target, List.mem_cons_of_mem _ htarget, hR⟩

/-- The tags of an option stand in its spec. -/
theorem OptionSchema.Fits.specAt_tags (h : full.Fits fields) (k : Fin fields.options.length) :
    (full.schema.specAt k).required = (fields.options.get k).tags.required ∧
      (full.schema.specAt k).requiresNames = (fields.options.get k).tags.requiresNames ∧
      (full.schema.specAt k).conflicts = (fields.options.get k).tags.conflicts := by
  obtain ⟨arg, harg, ⟨pre, hmade⟩, -⟩ := h.made k _ (List.getElem?_eq_getElem k.isLt)
  rw [ArgSchema.specAt, List.getD_eq_getElem?_getD, harg, Option.getD_some, hmade]
  exact ⟨rfl, rfl, rfl⟩

/-- **What a parsed object keeps to.** -/
theorem parsed_guarantees
    (hparse : parseOptionsInto world config argv externalImport externalExports object =
      .ok object') :
    ∃ full raw localIo imported,
      Reading world config argv externalImport full raw localIo imported ∧
      ∀ k, Guaranteed full (optionSources world.getenv raw imported object) object' k := by
  obtain ⟨full, raw, localIo, imported, hread, -, hsettled, hvalid, -⟩ :=
    parseOptionsInto_eq_ok.mp hparse
  refine ⟨full, raw, localIo, imported, hread, fun k => ?_⟩
  have hfits := OptionSchema.collectedSchema_fits hread.schema
  obtain ⟨hrequired, hrequires, hconflicts⟩ := hfits.specAt_tags k
  obtain ⟨schema', hvalidate, heq⟩ := bind_eq_ok.mp hread.schema
  cases heq
  have hdeclared := OptionSchema.collect_fits fields config.nestedSeparator
    (configIoBuiltins world.backends config.configIo)
  obtain ⟨hrequireIndices, hconflictIndices⟩ := ArgSchema.resolved_of_validated hvalidate
    (k.isLt.trans_eq hdeclared.userSpecCount.symm) (k.isLt.trans_le hdeclared.count_le)
  refine ⟨fun hconfiguration hinitializer => ?_, fun htag => ?_, fun hactive reference hmem => ?_,
    fun hactive reference hmem => ?_⟩
  · have hadmits := Sources.write_admits hconfiguration hinitializer (hsettled k).value
    rwa [hfits.spec_value k] at hadmits
  · exact hvalid.required k (hrequired.trans htag)
  · rw [← hrequires] at hmem
    obtain ⟨target, htarget, hfind, hne⟩ := exists_target hrequireIndices hmem
    exact ⟨target, hfind, hne, (hvalid.requirements k hactive target htarget).2.2⟩
  · rw [← hconflicts] at hmem
    obtain ⟨target, htarget, hfind, hne⟩ := exists_target hconflictIndices hmem
    exact ⟨target, hfind, hne, (hvalid.conflicts k hactive target htarget).2.2⟩

/-- A login that requires a token and conflicts with a guest. -/
def loginOptions : OptionFields :=
  .option { reflectedName := text "login", type := .scalar .string,
            tags := { requiresNames := [text "token"], conflicts := [text "guest"] } }
    (.option { reflectedName := text "token", type := .scalar .string,
               value := { choices := [text "a", text "b"] } }
      (.option { reflectedName := text "guest", type := .scalar (.arithmetic .bool) } .nil))

/-- The guest is said to be none. -/
theorem parsed_guarantees_login :
    ∃ full raw localIo imported,
      Reading (.bare loginOptions.Value) {}
        [some (text "--login=x"), some (text "--token=a"), some (text "--guest=no")] none full raw
        localIo imported ∧
      ∀ k, Guaranteed full (optionSources (fun _ => none) raw imported
        (([], [], false, ()) : loginOptions.Value)) (text "x", text "a", false, ()) k :=
  @parsed_guarantees loginOptions (.bare loginOptions.Value) {}
    [some (text "--login=x"), some (text "--token=a"), some (text "--guest=no")] none none
    ([], [], false, ()) (text "x", text "a", false, ()) rfl

end

end NekoProto.ArgParser
