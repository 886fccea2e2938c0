import NekoProto.ArgParser.Schema
import NekoProto.Lib.Outcome
import Mathlib.Tactic.Common
import Mathlib.Data.List.Nodup

/-!
# What a validated schema satisfies

`validateSchemaDefinition` goes through the specs and takes down the names of each: the names of
the two kinds that a spec claims are `longClaims` and `shortClaims`. A schema that passes is a
`Definition`: its paths and characters are valid, no name is claimed twice, a repeatable positional
is the last one, and every reference has a target that is not its own spec. The schema that comes
out differs only in the indices of the targets (`SameNames`), so it is a `Definition` as well.
-/

namespace NekoProto.ArgParser

open Binary (Bytes)
open Outcome (bind_eq_ok)

/-! ## The names of a spec -/

namespace ArgSpec

variable (spec : ArgSpec)

/-- The long names that the spec takes. -/
def longClaims : List Bytes :=
  (if spec.positional then [] else [spec.longName]) ++ spec.aliases.filter (1 < ·.length)

/-- The short names that the spec takes. -/
def shortClaims : List Bytes :=
  (if spec.positional ∨ spec.shortName = [] then [] else [spec.shortName]) ++
    spec.aliases.filter (·.length == 1)

/-- A name that begins with a character for short options. -/
def ShortName (name : Bytes) : Prop := ∃ ch rest, name = ch :: rest ∧ isShortOptionCharacter ch

/-- The spec by itself is valid. -/
structure Valid (separator : UInt8) : Prop where
  longName : isValidOptionPath spec.longName separator = true
  kind : ¬ (spec.positional = true ∧ spec.flag = true)
  longClaims : ∀ name ∈ spec.longClaims, isValidOptionPath name separator = true
  shortClaims : ∀ name ∈ spec.shortClaims, ShortName name

variable {spec} {name : Bytes}

theorem answersLong_mem (h : spec.answersLong name = true) : name ∈ spec.longClaims := by
  simp only [answersLong, Bool.and_eq_true, Bool.not_eq_true', Bool.or_eq_true, beq_iff_eq,
    List.any_eq_true, decide_eq_true_eq] at h
  obtain ⟨hoption, rfl | ⟨other, hother, hlength, rfl⟩⟩ := h
  · simp [longClaims, hoption]
  · simp [longClaims, hother, hlength]

theorem answersShort_mem (h : spec.answersShort name = true) : name ∈ spec.shortClaims := by
  simp only [answersShort, Bool.and_eq_true, Bool.not_eq_true', Bool.or_eq_true, beq_iff_eq,
    bne_iff_ne, List.any_eq_true] at h
  obtain ⟨hoption, ⟨hne, rfl⟩ | ⟨other, hother, hlength, rfl⟩⟩ := h
  · simp [shortClaims, hoption, hne]
  · simp [shortClaims, hother, hlength]

end ArgSpec

/-! ## Taking names down -/

/-- The names that are taken. -/
def NameEntries.longNames (names : NameEntries) : List Bytes := names.long.map (·.1)

/-- The names that are taken. -/
def NameEntries.shortNames (names : NameEntries) : List Bytes := names.short.map (·.1)

/-- `after` has the claimed names besides those of `before`, and no name is claimed twice. -/
structure Extends (before : NameEntries) (long short : List Bytes) (after : NameEntries) :
    Prop where
  long : after.longNames = before.longNames ++ long
  short : after.shortNames = before.shortNames ++ short
  longNodup : before.longNames.Nodup → after.longNames.Nodup
  shortNodup : before.shortNames.Nodup → after.shortNames.Nodup

namespace Extends

variable {before middle after : NameEntries} {long short long' short' : List Bytes}

protected theorem refl : Extends before [] [] before :=
  ⟨(List.append_nil _).symm, (List.append_nil _).symm, id, id⟩

protected theorem trans (h : Extends before long short middle)
    (h' : Extends middle long' short' after) :
    Extends before (long ++ long') (short ++ short') after where
  long := by rw [h'.long, h.long, List.append_assoc]
  short := by rw [h'.short, h.short, List.append_assoc]
  longNodup := h'.longNodup ∘ h.longNodup
  shortNodup := h'.shortNodup ∘ h.shortNodup

end Extends

namespace ArgSchema

variable {schema : ArgSchema} {names names' : NameEntries} {spec : ArgSpec} {index : ℕ}
  {name : Bytes}

theorem checkName_ok {entries entries' : List (Bytes × ℕ)} {kind : Bytes}
    (h : schema.checkName entries name index kind = .ok entries') :
    entries' = entries ++ [(name, index)] ∧ name ∉ entries.map (·.1) := by
  rw [checkName] at h
  split at h
  · cases h
  · next hfind =>
      refine ⟨(Except.ok.inj h).symm, ?_⟩
      rw [List.mem_map]
      rintro ⟨entry, hmem, rfl⟩
      have hnot := List.find?_eq_none.mp hfind entry hmem
      exact hnot (beq_self_eq_true entry.1)

theorem checkLong_ok (h : schema.checkLong names name index = .ok names') :
    Extends names [name] [] names' := by
  obtain ⟨long, hcheck, h⟩ := bind_eq_ok.mp h
  obtain ⟨rfl, hfresh⟩ := checkName_ok hcheck
  cases h
  refine ⟨by simp [NameEntries.longNames], by simp [NameEntries.shortNames], ?_, id⟩
  intro hnodup
  simp only [NameEntries.longNames, List.map_append, List.map_cons, List.map_nil]
  exact List.nodup_append.mpr ⟨hnodup, List.nodup_singleton _,
    fun a ha b hb => by rintro rfl; exact hfresh (List.mem_singleton.mp hb ▸ ha)⟩

theorem checkShort_ok (h : schema.checkShort names name index = .ok names') :
    Extends names [] [name] names' := by
  obtain ⟨short, hcheck, h⟩ := bind_eq_ok.mp h
  obtain ⟨rfl, hfresh⟩ := checkName_ok hcheck
  cases h
  refine ⟨by simp [NameEntries.longNames], by simp [NameEntries.shortNames], id, ?_⟩
  intro hnodup
  simp only [NameEntries.shortNames, List.map_append, List.map_cons, List.map_nil]
  exact List.nodup_append.mpr ⟨hnodup, List.nodup_singleton _,
    fun a ha b hb => by rintro rfl; exact hfresh (List.mem_singleton.mp hb ▸ ha)⟩

/-- The names of an option. -/
theorem checkOption_ok (h : schema.checkOption spec index names = .ok names') :
    Extends names [spec.longName] (if spec.shortName = [] then [] else [spec.shortName]) names' ∧
      (spec.shortName ≠ [] → ArgSpec.ShortName spec.shortName) := by
  obtain ⟨middle, hlong, h⟩ := bind_eq_ok.mp h
  have hlong := checkLong_ok hlong
  cases hname : spec.shortName with
  | nil =>
    rw [hname] at h
    cases h
    exact ⟨by simpa using hlong, fun hne => absurd rfl hne⟩
  | cons ch rest =>
    rw [hname] at h
    simp only at h
    split at h
    · next hch =>
        have hshort := checkShort_ok h
        exact ⟨by simpa using hlong.trans hshort, fun _ => ⟨ch, rest, rfl, hch⟩⟩
    · cases h

/-- One alias. -/
theorem checkAlias_ok {other : Bytes} (h : schema.checkAlias spec index other names = .ok names') :
    Extends names ([other].filter (1 < ·.length)) ([other].filter (·.length == 1)) names' ∧
      (1 < other.length → isValidOptionPath other schema.nestedSeparator = true) ∧
      (other.length = 1 → ArgSpec.ShortName other) := by
  match other, h with
  | [], h => cases h
  | [ch], h =>
    rw [checkAlias] at h
    split at h
    · next hch => exact ⟨checkShort_ok h, fun hlt => absurd hlt (by simp), fun _ =>
        ⟨ch, [], rfl, hch⟩⟩
    · cases h
  | ch :: next :: rest, h =>
    simp only [checkAlias] at h
    split at h
    · next hpath =>
        refine ⟨?_, fun _ => hpath, fun heq => by simp at heq⟩
        have hlong : [ch :: next :: rest].filter (1 < ·.length) = [ch :: next :: rest] := by simp
        have hshort : [ch :: next :: rest].filter (·.length == 1) = [] := by simp
        rw [hlong, hshort]
        exact checkLong_ok h
    · cases h

theorem checkAliases_ok {aliases : List Bytes}
    (h : schema.checkAliases spec index aliases names = .ok names') :
    Extends names (aliases.filter (1 < ·.length)) (aliases.filter (·.length == 1)) names' ∧
      ∀ other ∈ aliases,
        (1 < other.length → isValidOptionPath other schema.nestedSeparator = true) ∧
          (other.length = 1 → ArgSpec.ShortName other) := by
  induction aliases generalizing names with
  | nil =>
    cases h
    exact ⟨Extends.refl, fun other hmem => by simp at hmem⟩
  | cons other aliases ih =>
    obtain ⟨middle, hfirst, hrest⟩ := bind_eq_ok.mp h
    obtain ⟨hextends, hvalid⟩ := checkAlias_ok hfirst
    obtain ⟨hextends', hvalid'⟩ := ih hrest
    have hcons : ∀ p : Bytes → Bool, (other :: aliases).filter p =
        [other].filter p ++ aliases.filter p :=
      fun p => List.filter_append (p := p) [other] aliases
    rw [hcons, hcons]
    exact ⟨hextends.trans hextends', List.forall_mem_cons.mpr ⟨hvalid, hvalid'⟩⟩

/-- The checks of one spec. -/
theorem checkSpec_ok (h : schema.checkSpec spec index names = .ok names') :
    Extends names spec.longClaims spec.shortClaims names' ∧
      spec.Valid schema.nestedSeparator := by
  rw [checkSpec] at h
  split at h
  · cases h
  next hpath =>
  rw [not_not] at hpath
  split at h
  · cases h
  next hkind =>
  rw [Bool.and_eq_true] at hkind
  split at h
  · next hpositional =>
      obtain ⟨hextends, hvalid⟩ := checkAliases_ok h
      have hlong : spec.longClaims = spec.aliases.filter (1 < ·.length) := by
        simp [ArgSpec.longClaims, hpositional]
      have hshort : spec.shortClaims = spec.aliases.filter (·.length == 1) := by
        simp [ArgSpec.shortClaims, hpositional]
      refine ⟨hlong ▸ hshort ▸ hextends, hpath, hkind, ?_, ?_⟩
      · intro name hmem
        obtain ⟨hmem, hlength⟩ := List.mem_filter.mp (hlong ▸ hmem)
        exact (hvalid name hmem).1 (by simpa using hlength)
      · intro name hmem
        obtain ⟨hmem, hlength⟩ := List.mem_filter.mp (hshort ▸ hmem)
        exact (hvalid name hmem).2 (by simpa using hlength)
  · next hoption =>
      rw [Bool.not_eq_true] at hoption
      obtain ⟨middle, hfirst, hrest⟩ := bind_eq_ok.mp h
      obtain ⟨hextends, hshortName⟩ := checkOption_ok hfirst
      obtain ⟨hextends', hvalid⟩ := checkAliases_ok hrest
      have hlong : spec.longClaims = [spec.longName] ++ spec.aliases.filter (1 < ·.length) := by
        simp [ArgSpec.longClaims, hoption]
      have hshort : spec.shortClaims = (if spec.shortName = [] then [] else [spec.shortName]) ++
          spec.aliases.filter (·.length == 1) := by
        simp [ArgSpec.shortClaims, hoption]
      refine ⟨hlong ▸ hshort ▸ hextends.trans hextends', hpath, hkind, ?_, ?_⟩
      · intro name hmem
        rw [hlong, List.singleton_append, List.mem_cons] at hmem
        obtain rfl | hmem := hmem
        · exact hpath
        · obtain ⟨hmem, hlength⟩ := List.mem_filter.mp hmem
          exact (hvalid name hmem).1 (by simpa using hlength)
      · intro name hmem
        rw [hshort, List.mem_append] at hmem
        obtain hmem | hmem := hmem
        · split at hmem
          · simp at hmem
          · next hne => exact List.mem_singleton.mp hmem ▸ hshortName hne
        · obtain ⟨hmem, hlength⟩ := List.mem_filter.mp hmem
          exact (hvalid name hmem).2 (by simpa using hlength)

theorem checkSpecs_ok {specs : List ArgSpec}
    (h : schema.checkSpecs specs index names = .ok names') :
    Extends names (specs.flatMap (·.longClaims)) (specs.flatMap (·.shortClaims)) names' ∧
      ∀ spec ∈ specs, spec.Valid schema.nestedSeparator := by
  induction specs generalizing index names with
  | nil =>
    cases h
    exact ⟨Extends.refl, fun spec hmem => by simp at hmem⟩
  | cons spec specs ih =>
    obtain ⟨middle, hfirst, hrest⟩ := bind_eq_ok.mp h
    obtain ⟨hextends, hvalid⟩ := checkSpec_ok hfirst
    obtain ⟨hextends', hvalid'⟩ := ih hrest
    rw [List.flatMap_cons, List.flatMap_cons]
    exact ⟨hextends.trans hextends', List.forall_mem_cons.mpr ⟨hvalid, hvalid'⟩⟩

theorem checkPositionals_ok {positionals : List ℕ}
    (h : schema.checkPositionals positionals = .ok ())
    {pre rest : List ℕ} {next : ℕ} (heq : positionals = pre ++ index :: next :: rest)
    (hspec : schema.specs[index]? = some spec) : spec.repeatable = false := by
  induction pre generalizing positionals with
  | nil =>
    rw [heq, List.nil_append, checkPositionals, hspec] at h
    simp only at h
    split at h
    · cases h
    · next hrepeatable => simpa using hrepeatable
  | cons first pre ih =>
    obtain ⟨second, tail, htail⟩ :
        ∃ second tail, pre ++ index :: next :: rest = second :: tail := by
      cases pre with
      | nil => exact ⟨_, _, rfl⟩
      | cons second pre => exact ⟨_, _, rfl⟩
    refine ih ?_ rfl
    rw [heq, List.cons_append, htail, checkPositionals] at h
    rw [htail]
    split at h
    · split at h
      · cases h
      · exact h
    · exact h

/-! ## References -/

theorem targets_ok {kind : Bytes} {references : List Bytes} {found : List ℕ}
    (h : schema.targets spec index kind references = .ok found) :
    ∀ reference ∈ references,
      ∃ target, schema.findReferenceIndex spec reference = some target ∧ target ≠ index := by
  induction references generalizing found with
  | nil => simp
  | cons reference references ih =>
    rw [targets] at h
    split at h
    · next target hfind =>
        split at h
        · cases h
        · next hne =>
            obtain ⟨rest, hrest, -⟩ := bind_eq_ok.mp h
            exact List.forall_mem_cons.mpr ⟨⟨target, hfind, hne⟩, ih hrest⟩
    · cases h

/-- The two specs differ at most in the indices of their targets. -/
def SameNames (spec other : ArgSpec) : Prop :=
  other = { spec with
    requireIndices := other.requireIndices, conflictIndices := other.conflictIndices }

theorem resolveSpec_ok {spec' : ArgSpec} (h : schema.resolveSpec spec index = .ok spec') :
    SameNames spec spec' ∧
      ∀ reference ∈ spec.requiresNames ++ spec.conflicts,
        ∃ target, schema.findReferenceIndex spec reference = some target ∧ target ≠ index := by
  obtain ⟨requireIndices, hrequires, h⟩ := bind_eq_ok.mp h
  obtain ⟨conflictIndices, hconflicts, h⟩ := bind_eq_ok.mp h
  cases h
  exact ⟨rfl, List.forall_mem_append.mpr ⟨targets_ok hrequires, targets_ok hconflicts⟩⟩

theorem resolveSpecs_ok {specs specs' : List ArgSpec}
    (h : schema.resolveSpecs specs index = .ok specs') :
    List.Forall₂ SameNames specs specs' ∧
      ∀ offset spec, specs[offset]? = some spec → index + offset < schema.userSpecCount →
        ∀ reference ∈ spec.requiresNames ++ spec.conflicts,
          ∃ target, schema.findReferenceIndex spec reference = some target ∧
            target ≠ index + offset := by
  induction specs generalizing index specs' with
  | nil =>
    cases h
    exact ⟨.nil, fun offset spec hspec => by simp at hspec⟩
  | cons spec specs ih =>
    rw [resolveSpecs] at h
    split at h
    · next huser =>
        obtain ⟨spec', hfirst, h⟩ := bind_eq_ok.mp h
        obtain ⟨rest, hrest, h⟩ := bind_eq_ok.mp h
        cases h
        obtain ⟨hsame, hfound⟩ := resolveSpec_ok hfirst
        obtain ⟨hsame', hfound'⟩ := ih hrest
        refine ⟨.cons hsame hsame', ?_⟩
        intro offset other hother hlt
        cases offset with
        | zero =>
          cases hother
          exact hfound
        | succ offset =>
          have hshift : index + (offset + 1) = index + 1 + offset := by omega
          rw [hshift]
          exact hfound' offset other hother (hshift ▸ hlt)
    · next huser =>
        cases h
        refine ⟨List.forall₂_same.mpr fun _ _ => rfl, ?_⟩
        intro offset other _ hlt
        omega

end ArgSchema

/-! ## Definitions -/

/-- What `validateSchemaDefinition` establishes. -/
structure ArgSchema.Definition (schema : ArgSchema) : Prop where
  separator : schema.badSeparator = false
  valid : ∀ spec ∈ schema.specs, spec.Valid schema.nestedSeparator
  longNodup : (schema.specs.flatMap (·.longClaims)).Nodup
  shortNodup : (schema.specs.flatMap (·.shortClaims)).Nodup
  repeatableLast : ∀ pre index next rest spec,
    schema.positionalSpecs = pre ++ index :: next :: rest →
      schema.specs[index]? = some spec → spec.repeatable = false

namespace ArgSchema

variable {schema schema' : ArgSchema}

/-- A schema that passes is a definition, and each reference has a target besides its own spec. -/
theorem validateSchemaDefinition_ok (h : schema.validateSchemaDefinition = .ok schema') :
    schema.Definition ∧
      (∃ specs, schema' = { schema with specs := specs } ∧
        List.Forall₂ SameNames schema.specs specs) ∧
      ∀ index spec, schema.specs[index]? = some spec → index < schema.userSpecCount →
        ∀ reference ∈ spec.requiresNames ++ spec.conflicts,
          ∃ target, schema.findReferenceIndex spec reference = some target ∧ target ≠ index := by
  rw [validateSchemaDefinition] at h
  split at h
  · cases h
  next hseparator =>
  obtain ⟨names, hnames, h⟩ := bind_eq_ok.mp h
  obtain ⟨_, hpositionals, h⟩ := bind_eq_ok.mp h
  obtain ⟨specs, hspecs, h⟩ := bind_eq_ok.mp h
  cases h
  obtain ⟨hextends, hvalid⟩ := checkSpecs_ok hnames
  obtain ⟨hsame, hfound⟩ := resolveSpecs_ok hspecs
  have hlong : names.longNames = schema.specs.flatMap (·.longClaims) := hextends.long
  have hshort : names.shortNames = schema.specs.flatMap (·.shortClaims) := hextends.short
  refine ⟨⟨by simpa using hseparator, hvalid, hlong ▸ hextends.longNodup List.nodup_nil,
    hshort ▸ hextends.shortNodup List.nodup_nil, ?_⟩, ⟨specs, rfl, hsame⟩, ?_⟩
  · intro pre index next rest spec heq hspec
    exact checkPositionals_ok hpositionals heq hspec
  · intro index spec hspec huser
    have hfound := hfound index spec hspec (by omega)
    simpa only [Nat.zero_add] using hfound

end ArgSchema

/-! ### Names are taken once -/

/-- Two specs that take one name are the same. -/
theorem claims_unique {specs : List ArgSpec} {claims : ArgSpec → List Bytes}
    (h : (specs.flatMap claims).Nodup) {i j : ℕ} {spec other : ArgSpec} {name : Bytes}
    (hspec : specs[i]? = some spec) (hother : specs[j]? = some other)
    (hmem : name ∈ claims spec) (hmem' : name ∈ claims other) : i = j := by
  have hdisjoint := List.pairwise_iff_getElem.mp (List.nodup_flatMap.mp h).2
  obtain ⟨hi, rfl⟩ := List.getElem?_eq_some_iff.mp hspec
  obtain ⟨hj, rfl⟩ := List.getElem?_eq_some_iff.mp hother
  obtain hlt | heq | hgt := Nat.lt_trichotomy i j
  · exact absurd hmem' (hdisjoint i j hi hj hlt hmem)
  · exact heq
  · exact absurd hmem (hdisjoint j i hj hi hgt hmem')

namespace ArgSchema.Definition

variable {schema : ArgSchema} (h : schema.Definition) {i j : ℕ} {spec other : ArgSpec}
  {name : Bytes}

include h

theorem valid_getElem? (hspec : schema.specs[i]? = some spec) :
    spec.Valid schema.nestedSeparator :=
  h.valid spec (List.mem_of_getElem? hspec)

theorem long_unique (hspec : schema.specs[i]? = some spec) (hother : schema.specs[j]? = some other)
    (hname : spec.answersLong name = true) (hname' : other.answersLong name = true) : i = j :=
  claims_unique h.longNodup hspec hother (ArgSpec.answersLong_mem hname)
    (ArgSpec.answersLong_mem hname')

theorem short_unique (hspec : schema.specs[i]? = some spec)
    (hother : schema.specs[j]? = some other) (hname : spec.answersShort name = true)
    (hname' : other.answersShort name = true) : i = j :=
  claims_unique h.shortNodup hspec hother (ArgSpec.answersShort_mem hname)
    (ArgSpec.answersShort_mem hname')

end ArgSchema.Definition

/-- The lookup finds the one spec that passes the test. -/
theorem findIdx?_unique {specs : List ArgSpec} {test : ArgSpec → Bool} {i : ℕ} {spec : ArgSpec}
    (hspec : specs[i]? = some spec) (htest : test spec = true)
    (hunique : ∀ j other, specs[j]? = some other → test other = true → j = i) :
    specs.findIdx? test = some i := by
  obtain ⟨hi, rfl⟩ := List.getElem?_eq_some_iff.mp hspec
  rw [List.findIdx?_eq_some_iff_getElem]
  refine ⟨hi, htest, ?_⟩
  intro j hj htest'
  have heq := hunique j _ (List.getElem?_eq_getElem (by omega)) htest'
  omega

namespace ArgSchema

variable {schema schema' : ArgSchema} {i : ℕ} {spec : ArgSpec} {name : Bytes}

theorem Definition.findLongIndex (h : schema.Definition) (hspec : schema.specs[i]? = some spec)
    (hname : spec.answersLong name = true) : schema.findLongIndex name = some i :=
  findIdx?_unique hspec hname fun _ _ hother hname' => h.long_unique hother hspec hname' hname

theorem Definition.findShortIndex (h : schema.Definition) (hspec : schema.specs[i]? = some spec)
    (hname : spec.answersShort name = true) : schema.findShortIndex name = some i :=
  findIdx?_unique hspec hname fun _ _ hother hname' => h.short_unique hother hspec hname' hname

/-! ### The schema that comes out -/

theorem map_sameNames {specs specs' : List ArgSpec} {α : Type} (f : ArgSpec → α)
    (hf : ∀ spec other, SameNames spec other → f other = f spec)
    (h : List.Forall₂ SameNames specs specs') : specs'.map f = specs.map f := by
  induction h with
  | nil => rfl
  | cons hfirst _ ih => rw [List.map_cons, List.map_cons, hf _ _ hfirst, ih]

theorem getElem?_sameNames {specs specs' : List ArgSpec} (h : List.Forall₂ SameNames specs specs')
    {index : ℕ} {other : ArgSpec} (hother : specs'[index]? = some other) :
    ∃ spec, specs[index]? = some spec ∧ SameNames spec other := by
  obtain ⟨hlength, hget⟩ := List.forall₂_iff_get.mp h
  obtain ⟨hlt, rfl⟩ := List.getElem?_eq_some_iff.mp hother
  exact ⟨_, List.getElem?_eq_getElem (hlength ▸ hlt), hget index (hlength ▸ hlt) hlt⟩

/-- The checks of the names hold for the schema that comes out as well. -/
theorem definition_of_validated (h : schema.validateSchemaDefinition = .ok schema') :
    schema'.Definition := by
  obtain ⟨hdefinition, ⟨specs, rfl, hsame⟩, -⟩ := validateSchemaDefinition_ok h
  have hlong : specs.flatMap (·.longClaims) = schema.specs.flatMap (·.longClaims) := by
    rw [List.flatMap_def, List.flatMap_def, map_sameNames _ (fun _ _ heq => by rw [heq]; rfl) hsame]
  have hshort : specs.flatMap (·.shortClaims) = schema.specs.flatMap (·.shortClaims) := by
    rw [List.flatMap_def, List.flatMap_def, map_sameNames _ (fun _ _ heq => by rw [heq]; rfl) hsame]
  refine ⟨hdefinition.separator, ?_, hlong ▸ hdefinition.longNodup,
    hshort ▸ hdefinition.shortNodup, ?_⟩
  · intro other hmem
    obtain ⟨index, hindex⟩ := List.getElem?_of_mem hmem
    obtain ⟨spec, hspec, heq⟩ := getElem?_sameNames hsame hindex
    have hvalid := hdefinition.valid_getElem? hspec
    rw [heq]
    exact ⟨hvalid.longName, hvalid.kind, hvalid.longClaims, hvalid.shortClaims⟩
  · intro pre index next rest other hpositionals hother
    obtain ⟨spec, hspec, heq⟩ := getElem?_sameNames hsame hother
    have hrepeatable := hdefinition.repeatableLast pre index next rest spec hpositionals hspec
    rw [heq]
    exact hrepeatable

end ArgSchema

/-! ## Collected schemas -/

/-- What `collectSchema` gives besides: a short name is a character, the positional specs are
listed in their order, and only user specs have references. -/
structure ArgSchema.Collected (schema : ArgSchema) : Prop where
  shortName : ∀ spec ∈ schema.specs, spec.shortName.length ≤ 1
  positionals : ∀ index, index ∈ schema.positionalSpecs ↔
    ∃ spec, schema.specs[index]? = some spec ∧ spec.positional = true
  sorted : schema.positionalSpecs.Pairwise (· < ·)
  builtins : ∀ index spec, schema.specs[index]? = some spec → schema.userSpecCount ≤ index →
    spec.requiresNames = [] ∧ spec.conflicts = []

namespace ArgSchema

/-- What holds while the user specs are collected. -/
structure Collecting (schema : ArgSchema) : Prop where
  shortName : ∀ spec ∈ schema.specs, spec.shortName.length ≤ 1
  positionals : ∀ index, index ∈ schema.positionalSpecs ↔
    ∃ spec, schema.specs[index]? = some spec ∧ spec.positional = true
  sorted : schema.positionalSpecs.Pairwise (· < ·)

variable {schema : ArgSchema}

theorem Collecting.lt_length (h : schema.Collecting) {index : ℕ}
    (hindex : index ∈ schema.positionalSpecs) : index < schema.specs.length := by
  obtain ⟨spec, hspec, -⟩ := (h.positionals index).mp hindex
  exact (List.getElem?_eq_some_iff.mp hspec).1

theorem getElem?_concat {specs : List ArgSpec} {spec other : ArgSpec} {index : ℕ} :
    (specs ++ [spec])[index]? = some other ↔
      specs[index]? = some other ∨ (index = specs.length ∧ other = spec) := by
  obtain hlt | heq | hgt := Nat.lt_trichotomy index specs.length
  · rw [List.getElem?_append_left hlt]
    exact ⟨.inl, fun h => h.elim id fun h => absurd h.1 (Nat.ne_of_lt hlt)⟩
  · subst heq
    simp [eq_comm]
  · rw [List.getElem?_eq_none (by simp only [List.length_append, List.length_singleton]; omega),
      List.getElem?_eq_none (Nat.le_of_lt hgt)]
    simp only [reduceCtorEq, false_or, false_iff, not_and]
    intro heq
    omega

theorem Collecting.pushUserSpec (h : schema.Collecting) {spec : ArgSpec}
    (hspec : spec.shortName.length ≤ 1) : (schema.pushUserSpec spec).Collecting where
  shortName := by
    intro other hmem
    obtain hmem | hmem := List.mem_append.mp hmem
    · exact h.shortName other hmem
    · exact List.mem_singleton.mp hmem ▸ hspec
  positionals := by
    intro index
    have hold := h.positionals index
    simp only [ArgSchema.pushUserSpec, getElem?_concat]
    cases hpositional : spec.positional with
    | true =>
      simp only [if_true, List.mem_append, List.mem_singleton, hold]
      constructor
      · rintro (⟨other, hother, hpos⟩ | rfl)
        · exact ⟨other, .inl hother, hpos⟩
        · exact ⟨spec, .inr ⟨rfl, rfl⟩, hpositional⟩
      · rintro ⟨other, hother | ⟨rfl, rfl⟩, hpos⟩
        · exact .inl ⟨other, hother, hpos⟩
        · exact .inr rfl
    | false =>
      simp only [Bool.false_eq_true, if_false, hold]
      constructor
      · rintro ⟨other, hother, hpos⟩
        exact ⟨other, .inl hother, hpos⟩
      · rintro ⟨other, hother | ⟨rfl, rfl⟩, hpos⟩
        · exact ⟨other, hother, hpos⟩
        · exact absurd (hpositional.symm.trans hpos) (by decide)
  sorted := by
    simp only [ArgSchema.pushUserSpec]
    split
    · rw [List.pairwise_append]
      refine ⟨h.sorted, List.pairwise_singleton _ _, ?_⟩
      intro index hindex last hlast
      rw [List.mem_singleton.mp hlast]
      exact h.lt_length hindex
    · exact h.sorted

theorem makeArgSpec_shortName (pre reflectedName : Bytes) (tags : FieldTags)
    (isBool isVector : Bool) (separator : UInt8) :
    (makeArgSpec pre reflectedName tags isBool isVector separator).shortName.length ≤ 1 := by
  simp only [makeArgSpec]
  cases tags.shortName <;> simp

mutual

theorem Collecting.collectField (pre : Bytes) (separator : UInt8) :
    (field : OptionField) → {schema : ArgSchema} → schema.Collecting →
      (collectField pre separator field schema).Collecting
  | .option reflectedName tags isBool isVector, schema, h => by
    simp only [ArgSchema.collectField]
    split
    · exact h
    · exact h.pushUserSpec (makeArgSpec_shortName ..)
  | .nested reflectedName tags fields, schema, h => by
    simp only [ArgSchema.collectField]
    split
    · exact h
    · exact Collecting.collectSchemaInto _ separator fields h

theorem Collecting.collectSchemaInto (pre : Bytes) (separator : UInt8) :
    (fields : List OptionField) → {schema : ArgSchema} → schema.Collecting →
      (collectSchemaInto pre separator fields schema).Collecting
  | [], schema, h => by
    simp only [ArgSchema.collectSchemaInto]
    exact h
  | field :: fields, schema, h => by
    simp only [ArgSchema.collectSchemaInto]
    exact Collecting.collectSchemaInto pre separator fields
      (Collecting.collectField pre separator field h)

end

theorem Collected.pushConfigIoSpecIfAvailable (h : schema.Collected) (name : Bytes) :
    (schema.pushConfigIoSpecIfAvailable name).Collected := by
  rw [ArgSchema.pushConfigIoSpecIfAvailable]
  split
  · exact h
  · refine ⟨?_, ?_, h.sorted, ?_⟩
    · intro spec hmem
      obtain hmem | hmem := List.mem_append.mp hmem
      · exact h.shortName spec hmem
      · rw [List.mem_singleton.mp hmem]
        exact Nat.zero_le 1
    · intro index
      rw [h.positionals]
      simp only [getElem?_concat]
      constructor
      · rintro ⟨other, hother, hpos⟩
        exact ⟨other, .inl hother, hpos⟩
      · rintro ⟨other, hother | ⟨rfl, rfl⟩, hpos⟩
        · exact ⟨other, hother, hpos⟩
        · exact absurd hpos Bool.false_ne_true
    · intro index spec hspec hindex
      obtain hspec | ⟨-, rfl⟩ := getElem?_concat.mp hspec
      · exact h.builtins index spec hspec hindex
      · exact ⟨rfl, rfl⟩

/-- **The schema of every options type is collected.** -/
theorem collectSchema_collected (fields : List OptionField) (separator : UInt8)
    (builtins : List Bytes) : (collectSchema fields separator builtins).Collected := by
  have hempty : ({ nestedSeparator := separator } : ArgSchema).Collecting :=
    ⟨fun spec hmem => by simp at hmem, fun index => by simp, .nil⟩
  have hcollecting := Collecting.collectSchemaInto [] separator fields hempty
  rw [collectSchema]
  refine List.foldlRecOn builtins _ ⟨hcollecting.shortName, hcollecting.positionals,
    hcollecting.sorted, ?_⟩ fun schema hschema name _ => hschema.pushConfigIoSpecIfAvailable name
  intro index spec hspec hindex
  have hlt := (List.getElem?_eq_some_iff.mp hspec).1
  exact absurd hlt (Nat.not_lt.mpr hindex)

/-- Validating does not change what was collected. -/
theorem Collected.of_validated {schema' : ArgSchema} (h : schema.Collected)
    (hvalidate : schema.validateSchemaDefinition = .ok schema') : schema'.Collected := by
  obtain ⟨-, ⟨specs, rfl, hsame⟩, -⟩ := validateSchemaDefinition_ok hvalidate
  refine ⟨?_, ?_, h.sorted, ?_⟩
  · intro other hmem
    obtain ⟨index, hindex⟩ := List.getElem?_of_mem hmem
    obtain ⟨spec, hspec, heq⟩ := getElem?_sameNames hsame hindex
    have hlength := h.shortName spec (List.mem_of_getElem? hspec)
    rw [heq]
    exact hlength
  · intro index
    have hpositional : (specs.map (·.positional))[index]? =
        (schema.specs.map (·.positional))[index]? :=
      congrArg (·[index]?) (map_sameNames _ (fun _ _ heq => by rw [heq]) hsame)
    rw [List.getElem?_map, List.getElem?_map] at hpositional
    have hiff : ∀ spec : Option ArgSpec, (∃ found, spec = some found ∧ found.positional = true) ↔
        spec.map (·.positional) = some true := fun spec => by simp
    rw [h.positionals, hiff, hiff, hpositional]
  · intro index other hother hindex
    obtain ⟨spec, hspec, heq⟩ := getElem?_sameNames hsame hother
    have hnone := h.builtins index spec hspec hindex
    rw [heq]
    exact hnone

end ArgSchema

end NekoProto.ArgParser
