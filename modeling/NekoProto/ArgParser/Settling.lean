import NekoProto.ArgParser.Passes

/-!
# Settling the options of an object

`materializeObject_eq_ok`: the passes for the defaults, for a configuration file and for what is
given explicitly settle each option on its own (`settle`), and then the constraints between the
options are checked. So the value of an option does not depend on where the other values come from.

1. An object by the values of its options (`OptionFields.get`), and objects with given values.
2. The visits of the passes do their steps (`Does`).
3. The three passes in turn, and the constraints.
-/

namespace NekoProto.ArgParser

open Binary (Bytes)
open Outcome (bind_eq_ok)

/-! ## Objects by their options -/

namespace OptionFields

variable {fields : OptionFields}

theorem settings_fst (object : fields.Value) (k : Fin fields.options.length) :
    ((fields.settings object).get (k.cast (length_settings object).symm)).fst =
      fields.options.get k := by
  have h := congrArg (fun options => options[(k : ℕ)]?) (map_settings fields object)
  rw [List.getElem?_map, List.getElem?_eq_getElem (by rw [length_settings]; exact k.isLt),
    List.getElem?_eq_getElem k.isLt] at h
  exact Option.some.inj h

/-- The value of an option. -/
def get (object : fields.Value) (k : Fin fields.options.length) :
    (fields.options.get k).type.Value :=
  cast (congrArg (fun option => option.type.Value) (settings_fst object k))
    ((fields.settings object).get (k.cast (length_settings object).symm)).snd

theorem settings_getElem? (object : fields.Value) (k : Fin fields.options.length) :
    (fields.settings object)[(k : ℕ)]? = some ⟨fields.options.get k, get object k⟩ := by
  rw [List.getElem?_eq_getElem (by rw [length_settings]; exact k.isLt), Option.some.injEq]
  refine Sigma.ext (settings_fst object k) ?_
  exact (cast_heq _ _).symm

theorem sameIgnored_refl : (fields : OptionFields) → (object : fields.Value) →
    fields.SameIgnored object object
  | .nil, _ => trivial
  | .option _ rest, (_, object) => ⟨fun _ => rfl, sameIgnored_refl rest object⟩
  | .nested _ tags fields rest, (inner, object) => by
    refine sameIgnored_nested.mpr ⟨?_, sameIgnored_refl rest object⟩
    split_ifs
    · rfl
    · exact sameIgnored_refl fields inner

theorem sameIgnored_trans : (fields : OptionFields) → {object object' object'' : fields.Value} →
    fields.SameIgnored object object' → fields.SameIgnored object' object'' →
    fields.SameIgnored object object''
  | .nil, _, _, _, _, _ => trivial
  | .option _ rest, (_, _), (_, _), (_, _), h, h' =>
    ⟨fun hignore => (h'.1 hignore).trans (h.1 hignore), sameIgnored_trans rest h.2 h'.2⟩
  | .nested _ tags fields rest, (_, _), (_, _), (_, _), h, h' => by
    obtain ⟨hinner, hrest⟩ := sameIgnored_nested.mp h
    obtain ⟨hinner', hrest'⟩ := sameIgnored_nested.mp h'
    refine sameIgnored_nested.mpr ⟨?_, sameIgnored_trans rest hrest hrest'⟩
    split_ifs at hinner hinner' ⊢
    · exact hinner'.trans hinner
    · exact sameIgnored_trans fields hinner hinner'

theorem sameIgnored_symm : (fields : OptionFields) → {object object' : fields.Value} →
    fields.SameIgnored object object' → fields.SameIgnored object' object
  | .nil, _, _, _ => trivial
  | .option _ rest, (_, _), (_, _), h =>
    ⟨fun hignore => (h.1 hignore).symm, sameIgnored_symm rest h.2⟩
  | .nested _ tags fields rest, (_, _), (_, _), h => by
    obtain ⟨hinner, hrest⟩ := sameIgnored_nested.mp h
    refine sameIgnored_nested.mpr ⟨?_, sameIgnored_symm rest hrest⟩
    split_ifs at hinner ⊢
    · exact hinner.symm
    · exact sameIgnored_symm fields hinner

/-- There is an object with given settings. -/
theorem exists_settings : (fields : OptionFields) → (object : fields.Value) → {ss : List Setting} →
    ss.map Sigma.fst = fields.options →
    ∃ object', fields.SameIgnored object object' ∧ fields.settings object' = ss
  | .nil, _, ss, h => ⟨(), trivial, (List.map_eq_nil_iff.mp h).symm⟩
  | .option decl rest, (field, object), ss, h => by
    rw [options] at h
    split_ifs at h with hignore
    · obtain ⟨object', hsame, hsettings⟩ := exists_settings rest object h
      refine ⟨(field, object'), ⟨fun _ => rfl, hsame⟩, ?_⟩
      rw [settings_option, if_pos hignore, hsettings]
    · obtain ⟨⟨_, field'⟩, ss, rfl, rfl, hrest⟩ := List.map_eq_cons_iff.mp h
      obtain ⟨object', hsame, hsettings⟩ := exists_settings rest object hrest
      refine ⟨(field', object'), ⟨fun h => absurd h hignore, hsame⟩, ?_⟩
      rw [settings_option, if_neg hignore, hsettings]
  | .nested name tags fields rest, (inner, object), ss, h => by
    rw [options] at h
    split_ifs at h with hignore
    · obtain ⟨object', hsame, hsettings⟩ := exists_settings rest object h
      refine ⟨(inner, object'), sameIgnored_nested.mpr ⟨?_, hsame⟩, ?_⟩
      · rw [if_pos hignore]
      · rw [settings_nested, if_pos hignore, hsettings]
    · obtain ⟨ss₁, ss₂, rfl, hinner, hrest⟩ := List.map_eq_append_iff.mp h
      obtain ⟨inner', hsame₁, hsettings₁⟩ := exists_settings fields inner hinner
      obtain ⟨object', hsame₂, hsettings₂⟩ := exists_settings rest object hrest
      refine ⟨(inner', object'), sameIgnored_nested.mpr ⟨?_, hsame₂⟩, ?_⟩
      · rwa [if_neg hignore]
      · rw [settings_nested, if_neg hignore, hsettings₁, hsettings₂]

/-- There is an object with given values of its options. -/
theorem exists_get (object : fields.Value)
    (value : (k : Fin fields.options.length) → (fields.options.get k).type.Value) :
    ∃ object', fields.SameIgnored object object' ∧ ∀ k, get object' k = value k := by
  have hmap : (List.ofFn fun k => (⟨fields.options.get k, value k⟩ : Setting)).map Sigma.fst =
      fields.options := by
    rw [List.map_ofFn]
    exact List.ofFn_getElem
  obtain ⟨object', hsame, hsettings⟩ := exists_settings fields object hmap
  refine ⟨object', hsame, fun k => ?_⟩
  have hk := settings_getElem? object' k
  rw [hsettings, List.getElem?_ofFn, dif_pos k.isLt, Option.some.injEq] at hk
  exact (eq_of_heq (Sigma.mk.inj hk).2).symm

end OptionFields

/-! ## Steps at each index -/

section

variable {fields : OptionFields} {step : Step} {object object' : fields.Value}
  {flags flags' : List Bool}

/-- A pass, option by option. -/
theorem passed_iff (hflags : flags.length = fields.options.length)
    (hflags' : flags'.length = fields.options.length) :
    Passed step 0 (fields.settings object) flags (fields.settings object') flags' ↔
      ∀ k : Fin fields.options.length,
        step (fields.options.get k) k (fields.get object k) (flags.getD k false) =
          .ok (fields.get object' k, flags'.getD k false) := by
  constructor
  · intro h k
    obtain ⟨flag, field', flag', hflag, hfield', hflag', hstep⟩ :=
      h.getElem (OptionFields.settings_getElem? object k)
    rw [OptionFields.settings_getElem? object' k, Option.some.injEq] at hfield'
    obtain rfl := eq_of_heq (Sigma.mk.inj hfield').2
    rw [Nat.zero_add] at hstep
    rw [List.getD_eq_getElem?_getD, List.getD_eq_getElem?_getD, hflag, hflag']
    exact hstep
  · intro h
    refine .of_getElem (by rw [hflags, OptionFields.length_settings])
      (by rw [OptionFields.length_settings, OptionFields.length_settings])
      (by rw [hflags', OptionFields.length_settings]) fun k option field hk => ?_
    have hlt : k < fields.options.length := by
      rw [← OptionFields.length_settings object]
      exact (List.getElem?_eq_some_iff.mp hk).1
    rw [OptionFields.settings_getElem? object ⟨k, hlt⟩, Option.some.injEq] at hk
    cases hk
    refine ⟨flags.getD k false, _, flags'.getD k false, ?_,
      OptionFields.settings_getElem? object' ⟨k, hlt⟩, ?_, ?_⟩
    · rw [List.getD_eq_getElem?_getD, List.getElem?_eq_getElem (hflags ▸ hlt), Option.getD_some]
    · rw [List.getD_eq_getElem?_getD, List.getElem?_eq_getElem (hflags' ▸ hlt), Option.getD_some]
    · rw [Nat.zero_add]
      exact h ⟨k, hlt⟩

end

/-! ## Visits -/

section

variable {lib : FloatingText} {full : OptionSchema} {fields : OptionFields} {count : ℕ}

/-- What `visitDefault` does with one option. -/
def stepDefault (lib : FloatingText) (full : OptionSchema) : Step :=
  fun option index field flag =>
    match full.userSpec index with
    | none => .error (outOfRange "applying default for" option)
    | some spec =>
      (applyDefaultOption lib spec option.default field).map fun done =>
        (done.1, done.2 || flag)

/-- What `visitExplicit` does with one option. -/
def stepExplicit (lib : FloatingText) (full : OptionSchema) (getenv : Bytes → Option Bytes)
    (raw : RawParseResult) : Step :=
  fun option index field flag =>
    match full.userSpec index, raw[index]? with
    | some spec, some values =>
      (materializeOneOption lib spec getenv values flag field).map fun done =>
        (done.1, done.2 || flag)
    | _, _ => .error (outOfRange "materializing" option)

/-- What `visitImported` does with one option. -/
def stepImported : Step := fun option _ field _ =>
  .ok (field, importedFieldSupplied option.type field)

/-- What `visitActive` does with one option. -/
def stepActive (supplied : List Bool) : Step := fun option index field _ =>
  .ok (field, fieldRelationshipActive (supplied.getD index false) option.type field)

/-- A flag is set, or stays as it is. -/
theorem set_or {flags : List Bool} {index : ℕ} {supplied : Bool} :
    (if supplied then flags.set index true else flags) =
      flags.set index (supplied || flags.getD index false) := by
  cases supplied with
  | true => rfl
  | false =>
    by_cases hlt : index < flags.length
    · rw [List.getD_eq_getElem?_getD, List.getElem?_eq_getElem hlt]
      exact (List.set_getElem_self hlt).symm
    · exact (List.set_eq_of_length_le (Nat.not_lt.mp hlt)).symm

theorem visitDefault_does :
    Does (visitDefault lib full) (stepDefault lib full) full.schema.userSpecCount count := by
  intro option index field flags _ _ _
  unfold visitDefault stepDefault
  cases full.userSpec index with
  | none => rfl
  | some spec =>
    cases h : applyDefaultOption lib spec option.default field with
    | error e =>
      simp only [h]
      rfl
    | ok done =>
      simp only [h]
      show Except.ok (done.1, if done.2 then flags.set index true else flags) = _
      rw [set_or]
      rfl

theorem visitExplicit_does {getenv : Bytes → Option Bytes} {raw : RawParseResult} :
    Does (visitExplicit lib full getenv raw) (stepExplicit lib full getenv raw)
      full.schema.userSpecCount count := by
  intro option index field flags _ _ _
  unfold visitExplicit stepExplicit
  cases full.userSpec index with
  | none => rfl
  | some spec =>
    cases raw[index]? with
    | none => rfl
    | some values =>
      cases h : materializeOneOption lib spec getenv values (flags.getD index false) field with
      | error e =>
        simp only [h]
        rfl
      | ok done =>
        simp only [h]
        show Except.ok (done.1, if done.2 then flags.set index true else flags) = _
        rw [set_or]
        rfl

theorem visitImported_does :
    Does (visitImported full) stepImported full.schema.userSpecCount count := by
  intro option index field flags huser hlt _
  exact if_pos ⟨huser, hlt⟩

theorem visitActive_does {supplied : List Bool} (hsupplied : supplied.length = count) :
    Does (visitActive full supplied) (stepActive supplied) full.schema.userSpecCount count := by
  intro option index field flags huser hlt hcount
  exact if_pos ⟨huser, by omega, hlt⟩

variable {visit : Visit PresenceList} {step : Step} {object object' : fields.Value}
  {flags post s' : List Bool} {missed : String}

/-- A pass over a whole object reaches all specs of the user. -/
theorem wholePass_eq_ok (hfits : full.Fits fields)
    (hdoes : Does visit step full.schema.userSpecCount count)
    (hflags : flags.length = fields.options.length) (hcount : (flags ++ post).length = count) :
    wholePass full visit missed fields object (flags ++ post) = .ok (object', s') ↔
      fields.SameIgnored object object' ∧ ∃ flags', s' = flags' ++ post ∧
        flags'.length = fields.options.length ∧ ∀ k : Fin fields.options.length,
          step (fields.options.get k) k (fields.get object k) (flags.getD k false) =
            .ok (fields.get object' k, flags'.getD k false) := by
  have hpass : ∀ {object₁ : fields.Value} {index₁ : ℕ} {s₁ : List Bool}, _ :=
    fun {object₁} {index₁} {s₁} => @forEachOption_returns visit step _ count hdoes fields object
      object₁ [] flags post s₁ 0 index₁ rfl hflags (by rw [hfits.userSpecCount]; omega) hcount
  simp only [List.nil_append, Nat.zero_add] at hpass
  unfold wholePass
  simp only [bind_eq_ok, Prod.exists, hpass]
  constructor
  · rintro ⟨object₁, _, _, ⟨rfl, hsame, flags', rfl, hpassed⟩, h⟩
    rw [if_neg (not_not.mpr hfits.userSpecCount.symm)] at h
    cases h
    have hlength : flags'.length = fields.options.length := by
      rw [hpassed.lengths.2.2, OptionFields.length_settings]
    exact ⟨hsame, flags', rfl, hlength, (passed_iff hflags hlength).mp hpassed⟩
  · rintro ⟨hsame, flags', rfl, hlength, hpassed⟩
    refine ⟨object', _, _, ⟨rfl, hsame, flags', rfl, (passed_iff hflags hlength).mpr hpassed⟩, ?_⟩
    rw [if_neg (not_not.mpr hfits.userSpecCount.symm)]
    rfl

end

/-! ## Settling -/

/-- A configuration file replaces a field, and says anew whether it is supplied. -/
def importedOr {T : FieldType} (imported : Option T.Value) (fallback : T.Value × Bool) :
    T.Value × Bool :=
  match imported with
  | some field => (field, importedFieldSupplied T field)
  | none => fallback

/-- What the sources of one option give: its field, and whether it is supplied. The default is
applied even if another value follows. -/
def settle (lib : FloatingText) (spec : OptionSpec) {T : FieldType}
    (default : Option (DefaultValue T)) (getenv : Bytes → Option Bytes) (raw : List Bytes)
    (imported : Option T.Value) (initial : T.Value) :
    Except ArgParserErrorDetail (T.Value × Bool) := do
  let fallback ← applyDefaultOption lib spec default initial
  let before := importedOr imported fallback
  let done ← materializeOneOption lib spec getenv raw before.2 before.1
  return (done.1, done.2 || before.2)

/-- The spec of an option. -/
def OptionSchema.spec (full : OptionSchema) (index : ℕ) : OptionSpec :=
  ⟨full.schema.specAt index, full.values.getD index {}⟩

/-- The object of a configuration file, if there is one. -/
def Imports {Value : Type} (load : ConfigIoFile → Except ArgParserErrorDetail Value)
    (importFile : Option ConfigIoFile) (imported : Option Value) : Prop :=
  match importFile with
  | none => imported = none
  | some file => ∃ object, load file = .ok object ∧ imported = some object

section

variable {fields : OptionFields}

/-- The options of `object'` are settled, one by one, over those of `object`. -/
structure Settled (lib : FloatingText) (full : OptionSchema) (getenv : Bytes → Option Bytes)
    (raw : RawParseResult) (imported : Option fields.Value) (object object' : fields.Value)
    (supplied : Fin fields.options.length → Bool) : Prop where
  ignored : fields.SameIgnored (imported.getD object) object'
  each : ∀ k : Fin fields.options.length,
    settle lib (full.spec k) (fields.options.get k).default getenv (raw.getD k [])
      (imported.map (fields.get · k)) (fields.get object k) =
        .ok (fields.get object' k, supplied k)

/-- The option at an index counts in the relations between options. -/
def ActiveAt (object : fields.Value) (supplied : Fin fields.options.length → Bool)
    (index : ℕ) : Prop :=
  ∃ h : index < fields.options.length,
    fieldRelationshipActive (supplied ⟨index, h⟩) _ (fields.get object ⟨index, h⟩) = true

/-- The constraints between the options of an object. -/
structure Constrained (full : OptionSchema) (object : fields.Value)
    (supplied : Fin fields.options.length → Bool) : Prop where
  required : ∀ k : Fin fields.options.length,
    (full.schema.specAt k).required = true → supplied k = true
  requirements : ∀ index, ActiveAt object supplied index →
    ∀ target ∈ (full.schema.specAt index).requireIndices,
      target < full.schema.specs.length ∧ target ≠ index ∧ ActiveAt object supplied target
  conflicts : ∀ index, ActiveAt object supplied index →
    ∀ target ∈ (full.schema.specAt index).conflictIndices,
      target < full.schema.specs.length ∧ target ≠ index ∧ ¬ActiveAt object supplied target

end

section

variable {full : OptionSchema} {fields : OptionFields} {object object' : fields.Value}
  {flags post : List Bool} {schema : ArgSchema} {active : List Bool}

theorem OptionSchema.Fits.userSpec_eq (h : full.Fits fields) (k : Fin fields.options.length) :
    full.userSpec k = some (full.spec k) := by
  obtain ⟨arg, harg, -, hvalue⟩ := h.made k _ (List.getElem?_eq_getElem k.isLt)
  have hlt : (k : ℕ) < full.schema.userSpecCount := k.isLt.trans_eq h.userSpecCount.symm
  rw [OptionSchema.userSpec, if_pos hlt, harg, hvalue, OptionSchema.spec, ArgSchema.specAt,
    List.getD_eq_getElem?_getD, List.getD_eq_getElem?_getD, harg, hvalue]
  rfl

/-! ### Constraints -/

theorem validateRequiredOptions_eq_ok {supplied : List Bool} {indices : List ℕ} :
    validateRequiredOptions schema supplied indices = .ok () ↔
      ∀ index ∈ indices, (schema.specAt index).required = true →
        supplied.getD index false = true := by
  induction indices with
  | nil => simp [validateRequiredOptions]
  | cons index indices ih =>
    rw [validateRequiredOptions, List.forall_mem_cons]
    by_cases hmissing : ((schema.specAt index).required && !supplied.getD index false) = true
    · rw [if_pos hmissing]
      obtain ⟨hrequired, hsupplied⟩ := Bool.and_eq_true_iff.mp hmissing
      refine iff_of_false nofun fun h => ?_
      rw [h.1 hrequired] at hsupplied
      cases hsupplied
    · rw [if_neg hmissing, ih, Iff.comm, and_iff_right_iff_imp]
      intro _ hrequired
      rw [hrequired, Bool.true_and, Bool.not_eq_true', Bool.not_eq_false] at hmissing
      exact hmissing

theorem checkRequirements_eq_ok {index : ℕ} {targets : List ℕ} :
    checkRequirements schema active index targets = .ok () ↔ ∀ target ∈ targets,
      target < schema.specs.length ∧ target ≠ index ∧ active.getD target false = true := by
  induction targets with
  | nil => simp [checkRequirements]
  | cons target targets ih =>
    rw [checkRequirements, List.forall_mem_cons]
    by_cases hinvalid : schema.specs.length ≤ target ∨ target = index
    · rw [if_pos hinvalid]
      refine iff_of_false nofun fun h => ?_
      rcases hinvalid with hle | heq
      · exact absurd h.1.1 (Nat.not_lt.mpr hle)
      · exact h.1.2.1 heq
    · rw [if_neg hinvalid]
      rw [not_or, Nat.not_le] at hinvalid
      by_cases hinactive : active.getD target false = false
      · rw [if_pos hinactive]
        refine iff_of_false nofun fun h => ?_
        exact Bool.false_ne_true (hinactive.symm.trans h.1.2.2)
      · rw [if_neg hinactive, ih, Iff.comm, and_iff_right_iff_imp]
        exact fun _ => ⟨hinvalid.1, hinvalid.2, Bool.not_eq_false _ ▸ hinactive⟩

theorem checkConflicts_eq_ok {index : ℕ} {targets : List ℕ} :
    checkConflicts schema active index targets = .ok () ↔ ∀ target ∈ targets,
      target < schema.specs.length ∧ target ≠ index ∧ ¬active.getD target false = true := by
  induction targets with
  | nil => simp [checkConflicts]
  | cons target targets ih =>
    rw [checkConflicts, List.forall_mem_cons]
    by_cases hinvalid : schema.specs.length ≤ target ∨ target = index
    · rw [if_pos hinvalid]
      refine iff_of_false nofun fun h => ?_
      rcases hinvalid with hle | heq
      · exact absurd h.1.1 (Nat.not_lt.mpr hle)
      · exact h.1.2.1 heq
    · rw [if_neg hinvalid]
      rw [not_or, Nat.not_le] at hinvalid
      by_cases hactive : active.getD target false = true
      · rw [if_pos hactive]
        exact iff_of_false nofun fun h => h.1.2.2 hactive
      · rw [if_neg hactive, ih, Iff.comm, and_iff_right_iff_imp]
        exact fun _ => ⟨hinvalid.1, hinvalid.2, hactive⟩

theorem validateCrossFieldConstraints_eq_ok {indices : List ℕ} :
    validateCrossFieldConstraints schema active indices = .ok () ↔
      ∀ index ∈ indices, active.getD index false = true →
        (∀ target ∈ (schema.specAt index).requireIndices,
          target < schema.specs.length ∧ target ≠ index ∧ active.getD target false = true) ∧
        ∀ target ∈ (schema.specAt index).conflictIndices,
          target < schema.specs.length ∧ target ≠ index ∧ ¬active.getD target false = true := by
  induction indices with
  | nil => simp [validateCrossFieldConstraints]
  | cons index indices ih =>
    rw [validateCrossFieldConstraints, List.forall_mem_cons]
    by_cases hinactive : active.getD index false = false
    · rw [if_pos hinactive, ih, Iff.comm, and_iff_right_iff_imp]
      exact fun _ h => absurd (hinactive.symm.trans h) Bool.false_ne_true
    · rw [if_neg hinactive]
      rw [Bool.not_eq_false] at hinactive
      simp only [bind_eq_ok, ih, hinactive, forall_const]
      constructor
      · rintro ⟨⟨⟩, hrequirements, ⟨⟩, hconflicts, hrest⟩
        exact ⟨⟨checkRequirements_eq_ok.mp hrequirements, checkConflicts_eq_ok.mp hconflicts⟩,
          hrest⟩
      · rintro ⟨⟨hrequirements, hconflicts⟩, hrest⟩
        exact ⟨(), checkRequirements_eq_ok.mpr hrequirements, (),
          checkConflicts_eq_ok.mpr hconflicts, hrest⟩

theorem getD_append_left {index : ℕ} (h : index < flags.length) :
    (flags ++ post).getD index false = flags.getD index false := by
  rw [List.getD_eq_getElem?_getD, List.getElem?_append_left h, ← List.getD_eq_getElem?_getD]

/-- **The constraints** are checked on what the options are in the end. -/
theorem validateMaterializedOptions_eq_ok (hfits : full.Fits fields)
    (hflags : flags.length = fields.options.length)
    (hcount : (flags ++ post).length = full.schema.specs.length) :
    validateMaterializedOptions full fields object (flags ++ post) = .ok () ↔
      Constrained full object fun k => flags.getD k false := by
  have hfalse : (full.schema.specs.map fun _ => false) =
      List.replicate fields.options.length false ++
        List.replicate (full.schema.specs.length - fields.options.length) false := by
    rw [← List.replicate_add, Nat.add_sub_cancel' hfits.count_le, List.map_const']
  have hactive : ∀ active, markActiveOptions full fields object (flags ++ post) = .ok active ↔
      ∃ flags', active = flags' ++
          List.replicate (full.schema.specs.length - fields.options.length) false ∧
        flags'.length = fields.options.length ∧ ∀ k : Fin fields.options.length,
          flags'.getD k false =
            fieldRelationshipActive (flags.getD k false) _ (fields.get object k) := by
    intro active
    unfold markActiveOptions
    simp only [bind_eq_ok, Prod.exists, hfalse,
      wholePass_eq_ok hfits (visitActive_does hcount) List.length_replicate
        (by rw [← hfalse, List.length_map])]
    constructor
    · rintro ⟨object₁, _, ⟨-, flags', rfl, hlength, hstep⟩, heq⟩
      cases heq
      refine ⟨flags', rfl, hlength, fun k => ?_⟩
      have hk := (Prod.mk.inj (Except.ok.inj (hstep k))).2
      rw [getD_append_left (k.isLt.trans_eq hflags.symm)] at hk
      exact hk.symm
    · rintro ⟨flags', rfl, hlength, hvalue⟩
      refine ⟨object, _, ⟨OptionFields.sameIgnored_refl fields object, flags', rfl, hlength,
        fun k => ?_⟩, rfl⟩
      unfold stepActive
      rw [getD_append_left (k.isLt.trans_eq hflags.symm), hvalue]
  obtain ⟨flags', hlength, hvalue⟩ : ∃ flags' : List Bool, flags'.length = fields.options.length ∧
      ∀ k : Fin fields.options.length, flags'.getD k false =
        fieldRelationshipActive (flags.getD k false) _ (fields.get object k) := by
    refine ⟨List.ofFn fun k => fieldRelationshipActive (flags.getD k false) _ (fields.get object k),
      List.length_ofFn, fun k => ?_⟩
    rw [List.getD_eq_getElem?_getD, List.getElem?_ofFn, dif_pos k.isLt, Option.getD_some]
  have hat : ∀ index, (flags' ++ List.replicate
      (full.schema.specs.length - fields.options.length) false).getD index false = true ↔
        ActiveAt object (fun k => flags.getD k false) index := by
    intro index
    by_cases hlt : index < fields.options.length
    · rw [getD_append_left (hlt.trans_eq hlength.symm), hvalue ⟨index, hlt⟩]
      exact ⟨fun h => ⟨hlt, h⟩, fun h => h.2⟩
    · refine iff_of_false ?_ fun h => hlt h.1
      rw [List.getD_eq_getElem?_getD, List.getElem?_append_right (by omega),
        List.getElem?_replicate]
      split_ifs <;> exact Bool.false_ne_true
  unfold validateMaterializedOptions
  simp only [bind_eq_ok, hactive]
  constructor
  · rintro ⟨⟨⟩, hrequired, _, ⟨flags₁, rfl, hlength₁, hvalue₁⟩, hcross⟩
    obtain rfl : flags₁ = flags' := by
      refine List.ext_getElem (hlength₁.trans hlength.symm) fun k hk hk' => ?_
      have h := (hvalue₁ ⟨k, hlength₁ ▸ hk⟩).trans (hvalue ⟨k, hlength₁ ▸ hk⟩).symm
      rw [List.getD_eq_getElem?_getD, List.getD_eq_getElem?_getD, List.getElem?_eq_getElem hk,
        List.getElem?_eq_getElem hk'] at h
      exact h
    rw [validateRequiredOptions_eq_ok] at hrequired
    simp only [validateCrossFieldConstraints_eq_ok, hat, List.mem_range] at hcross
    refine ⟨fun k hk => ?_, fun index hindex => ?_, fun index hindex => ?_⟩
    · have := hrequired k (List.mem_range.mpr (k.isLt.trans_eq hfits.userSpecCount.symm)) hk
      rwa [getD_append_left (k.isLt.trans_eq hflags.symm)] at this
    · exact (hcross index (hfits.userSpecCount ▸ hindex.1) hindex).1
    · exact (hcross index (hfits.userSpecCount ▸ hindex.1) hindex).2
  · intro h
    refine ⟨(), ?_, _, ⟨flags', rfl, hlength, hvalue⟩, ?_⟩
    · rw [validateRequiredOptions_eq_ok]
      intro index hindex hrequired
      have hlt : index < fields.options.length :=
        hfits.userSpecCount ▸ List.mem_range.mp hindex
      rw [getD_append_left (hlt.trans_eq hflags.symm)]
      exact h.required ⟨index, hlt⟩ hrequired
    · simp only [validateCrossFieldConstraints_eq_ok, hat, List.mem_range]
      exact fun index _ hindex => ⟨h.requirements index hindex, h.conflicts index hindex⟩

/-! ### The three passes -/

variable {world : Surroundings fields.Value} {raw : RawParseResult}
  {importFile : Option ConfigIoFile} {lib : FloatingText}

theorem applyDefaultsInto_eq_ok (hfits : full.Fits fields)
    (hflags : flags.length = fields.options.length) {s' : List Bool} :
    applyDefaultsInto lib full fields object (flags ++ post) = .ok (object', s') ↔
      fields.SameIgnored object object' ∧ ∃ flags', s' = flags' ++ post ∧
        flags'.length = fields.options.length ∧ ∀ k : Fin fields.options.length,
          ∃ done, applyDefaultOption lib (full.spec k) (fields.options.get k).default
              (fields.get object k) = .ok done ∧
            (done.1, done.2 || flags.getD k false) =
              (fields.get object' k, flags'.getD k false) := by
  refine (wholePass_eq_ok hfits visitDefault_does hflags rfl).trans (and_congr_right fun _ =>
    exists_congr fun flags' => and_congr_right fun _ => and_congr_right fun _ =>
      forall_congr' fun k => ?_)
  unfold stepDefault
  rw [hfits.userSpec_eq k]
  simp only [map_eq_ok]
  exact exists_congr fun done => and_congr_right fun _ => eq_comm

theorem materializeExplicitOptionsInto_eq_ok (hfits : full.Fits fields)
    (hflags : flags.length = fields.options.length) (hraw : fields.options.length ≤ raw.length)
    {getenv : Bytes → Option Bytes} {s' : List Bool} :
    materializeExplicitOptionsInto lib full getenv raw fields object (flags ++ post) =
        .ok (object', s') ↔
      fields.SameIgnored object object' ∧ ∃ flags', s' = flags' ++ post ∧
        flags'.length = fields.options.length ∧ ∀ k : Fin fields.options.length,
          ∃ done, materializeOneOption lib (full.spec k) getenv (raw.getD k [])
              (flags.getD k false) (fields.get object k) = .ok done ∧
            (done.1, done.2 || flags.getD k false) =
              (fields.get object' k, flags'.getD k false) := by
  refine (wholePass_eq_ok hfits visitExplicit_does hflags rfl).trans (and_congr_right fun _ =>
    exists_congr fun flags' => and_congr_right fun _ => and_congr_right fun _ =>
      forall_congr' fun k => ?_)
  have hvalues : raw[(k : ℕ)]? = some (raw.getD k []) := by
    rw [List.getD_eq_getElem?_getD, List.getElem?_eq_getElem (k.isLt.trans_le hraw),
      Option.getD_some]
  unfold stepExplicit
  rw [hfits.userSpec_eq k, hvalues]
  simp only [map_eq_ok]
  exact exists_congr fun done => and_congr_right fun _ => eq_comm

theorem markImportedOptionsSupplied_eq_ok (hfits : full.Fits fields)
    (hflags : flags.length = fields.options.length) {s' : List Bool} :
    markImportedOptionsSupplied full fields object (flags ++ post) = .ok s' ↔
      ∃ flags', s' = flags' ++ post ∧ flags'.length = fields.options.length ∧
        ∀ k : Fin fields.options.length, flags'.getD k false =
          importedFieldSupplied _ (fields.get object k) := by
  have hcleared : ((flags ++ post).take full.schema.userSpecCount).map (fun _ => false) ++
      (flags ++ post).drop full.schema.userSpecCount = flags.map (fun _ => false) ++ post := by
    rw [hfits.userSpecCount, ← hflags, List.take_left, List.drop_left]
  unfold markImportedOptionsSupplied
  rw [hcleared]
  simp only [bind_eq_ok, Prod.exists, wholePass_eq_ok hfits visitImported_does
    ((List.length_map _).trans hflags) rfl]
  constructor
  · rintro ⟨object₁, _, ⟨-, flags', rfl, hlength, hstep⟩, heq⟩
    cases heq
    exact ⟨flags', rfl, hlength, fun k => (Prod.mk.inj (Except.ok.inj (hstep k))).2.symm⟩
  · rintro ⟨flags', rfl, hlength, hvalue⟩
    refine ⟨object, _, ⟨OptionFields.sameIgnored_refl fields object, flags', rfl, hlength,
      fun k => ?_⟩, rfl⟩
    unfold stepImported
    rw [hvalue]

theorem importInto_eq_ok (hfits : full.Fits fields)
    (hflags : flags.length = fields.options.length) {s' : List Bool} :
    importInto world full importFile object (flags ++ post) = .ok (object', s') ↔
      ∃ imported, Imports world.load importFile imported ∧ object' = imported.getD object ∧
        ∃ flags', s' = flags' ++ post ∧ flags'.length = fields.options.length ∧
          ∀ k : Fin fields.options.length,
            importedOr (imported.map (fields.get · k)) (fields.get object k, flags.getD k false) =
              (fields.get object' k, flags'.getD k false) := by
  cases importFile with
  | none =>
    constructor
    · intro h
      cases h
      exact ⟨none, rfl, rfl, flags, rfl, hflags, fun _ => rfl⟩
    · rintro ⟨_, rfl, rfl, flags', rfl, hlength, hvalue⟩
      obtain rfl : flags = flags' := by
        refine List.ext_getElem (hflags.trans hlength.symm) fun k hk hk' => ?_
        have h := (Prod.mk.inj (hvalue ⟨k, hflags ▸ hk⟩)).2
        rw [List.getD_eq_getElem?_getD, List.getD_eq_getElem?_getD, List.getElem?_eq_getElem hk,
          List.getElem?_eq_getElem hk'] at h
        exact h
      rfl
  | some file =>
    unfold importInto Imports
    simp only [bind_eq_ok, markImportedOptionsSupplied_eq_ok hfits hflags]
    constructor
    · rintro ⟨loaded, hload, _, ⟨flags', rfl, hlength, hvalue⟩, heq⟩
      cases heq
      exact ⟨some _, ⟨_, hload, rfl⟩, rfl, flags', rfl, hlength,
        fun k => congrArg (Prod.mk _) (hvalue k).symm⟩
    · rintro ⟨_, ⟨loaded, hload, rfl⟩, rfl, flags', rfl, hlength, hvalue⟩
      exact ⟨_, hload, _, ⟨flags', rfl, hlength,
        fun k => (Prod.mk.inj (hvalue k)).2.symm⟩, rfl⟩

theorem settle_eq_ok {spec : OptionSpec} {T : FieldType} {default : Option (DefaultValue T)}
    {getenv : Bytes → Option Bytes} {values : List Bytes} {imported : Option T.Value}
    {initial value : T.Value} {supplied : Bool} :
    settle lib spec default getenv values imported initial = .ok (value, supplied) ↔
      ∃ fallback, applyDefaultOption lib spec default initial = .ok fallback ∧
        ∃ done, materializeOneOption lib spec getenv values (importedOr imported fallback).2
            (importedOr imported fallback).1 = .ok done ∧
          (done.1, done.2 || (importedOr imported fallback).2) = (value, supplied) := by
  unfold settle
  simp only [bind_eq_ok, pure_eq_ok]

/-- **The three passes settle each option on its own.** What they leave is then checked against the
constraints between the options. -/
theorem materializeObject_eq_ok (hfits : full.Fits fields)
    (hraw : raw.length = full.schema.specs.length) :
    materializeObject world full raw importFile object = .ok object' ↔
      ∃ imported supplied, Imports world.load importFile imported ∧
        Settled world.text full world.getenv raw imported object object' supplied ∧
        Constrained full object' supplied := by
  obtain ⟨post, hpost, hfalse⟩ : ∃ post : List Bool,
      fields.options.length + post.length = full.schema.specs.length ∧
        (full.schema.specs.map fun _ => false) =
          List.replicate fields.options.length false ++ post := by
    refine ⟨List.replicate (full.schema.specs.length - fields.options.length) false, ?_, ?_⟩
    · rw [List.length_replicate, Nat.add_sub_cancel' hfits.count_le]
    · rw [← List.replicate_add, Nat.add_sub_cancel' hfits.count_le, List.map_const']
  have hrawle : fields.options.length ≤ raw.length := hraw ▸ hfits.count_le
  have hfirst : ∀ k : Fin fields.options.length,
      (List.replicate fields.options.length false).getD k false = false := by
    intro k
    rw [List.getD_eq_getElem?_getD, List.getElem?_replicate, if_pos k.isLt]
    rfl
  have hpassed : ∀ {flags : List Bool}, flags.length = fields.options.length →
      (flags ++ post).length = full.schema.specs.length := by
    intro flags hlength
    rw [List.length_append, hlength, hpost]
  unfold materializeObject
  simp only [bind_eq_ok, Prod.exists, hfalse,
    applyDefaultsInto_eq_ok hfits List.length_replicate, hfirst, Bool.or_false]
  constructor
  · rintro ⟨object₁, _, ⟨hsame₁, flags₁, rfl, hlength₁, hdefault⟩, object₂, _, himport, object₃, _,
      hexplicit, ⟨⟩, hvalid, heq⟩
    obtain ⟨imported, himports, rfl, flags₂, rfl, hlength₂, hoverlay⟩ :=
      (importInto_eq_ok hfits hlength₁).mp himport
    obtain ⟨hsame₃, flags₃, rfl, hlength₃, hdone⟩ :=
      (materializeExplicitOptionsInto_eq_ok hfits hlength₂ hrawle).mp hexplicit
    rw [validateMaterializedOptions_eq_ok hfits hlength₃ (hpassed hlength₃)] at hvalid
    cases heq
    refine ⟨imported, _, himports, ⟨?_, fun k => ?_⟩, hvalid⟩
    · cases imported with
      | none => exact OptionFields.sameIgnored_trans fields hsame₁ hsame₃
      | some loaded => exact hsame₃
    · obtain ⟨field, flag, hfallback, hpair⟩ := hdefault k
      have hbefore : importedOr (imported.map (fields.get · k)) (field, flag) =
          (fields.get (imported.getD object₁) k, flags₂.getD k false) := by
        rw [← hoverlay k, ← hpair]
      exact settle_eq_ok.mpr ⟨(field, flag), hfallback, by rw [hbefore]; exact hdone k⟩
  · rintro ⟨imported, supplied, himports, ⟨hignored, heach⟩, hvalid⟩
    choose fallback hfallback done hdone hresult using fun k => settle_eq_ok.mp (heach k)
    obtain ⟨object₁, hsame₁, hget₁⟩ := fields.exists_get object fun k => (fallback k).1
    have hflags : ∀ flag : Fin fields.options.length → Bool,
        ∃ flags : List Bool, flags.length = fields.options.length ∧
          ∀ k : Fin fields.options.length, flags.getD k false = flag k := by
      intro flag
      refine ⟨List.ofFn flag, List.length_ofFn, fun k => ?_⟩
      rw [List.getD_eq_getElem?_getD, List.getElem?_ofFn, dif_pos k.isLt, Option.getD_some]
    obtain ⟨flags₁, hlength₁, hvalue₁⟩ := hflags fun k => (fallback k).2
    obtain ⟨flags₂, hlength₂, hvalue₂⟩ := hflags fun k =>
      (importedOr (imported.map (fields.get · k)) (fallback k)).2
    obtain ⟨flags₃, hlength₃, hvalue₃⟩ := hflags supplied
    have hbefore : ∀ k, importedOr (imported.map (fields.get · k)) (fallback k) =
        (fields.get (imported.getD object₁) k, flags₂.getD k false) := by
      intro k
      rw [hvalue₂]
      cases imported with
      | none => exact Prod.ext (hget₁ k).symm rfl
      | some loaded => rfl
    refine ⟨object₁, _, ⟨hsame₁, flags₁, rfl, hlength₁, fun k => ⟨_, _, hfallback k, ?_⟩⟩,
      imported.getD object₁, flags₂ ++ post, ?_, object', flags₃ ++ post, ?_, (), ?_, rfl⟩
    · rw [hget₁, hvalue₁]
    · refine (importInto_eq_ok hfits hlength₁).mpr ⟨imported, himports, rfl, flags₂, rfl, hlength₂,
        fun k => ?_⟩
      rw [← hbefore k, hget₁, hvalue₁]
    · refine (materializeExplicitOptionsInto_eq_ok hfits hlength₂ hrawle).mpr ⟨?_, flags₃, rfl,
        hlength₃, fun k => ⟨done k, ?_, ?_⟩⟩
      · cases imported with
        | none =>
          exact OptionFields.sameIgnored_trans fields (OptionFields.sameIgnored_symm fields hsame₁)
            hignored
        | some loaded => exact hignored
      · have := hdone k
        rwa [hbefore k] at this
      · have := hresult k
        rw [hbefore k] at this
        rw [hvalue₃]
        exact this
    · rw [validateMaterializedOptions_eq_ok hfits hlength₃ (hpassed hlength₃)]
      exact (funext hvalue₃ : (fun k : Fin _ => flags₃.getD k false) = supplied) ▸ hvalid

end

end NekoProto.ArgParser
