import NekoProto.ArgParser.Definition
import NekoProto.ArgParser.References
import Mathlib.Tactic.Common

/-!
# Which references are unambiguous

A reference matches the specs that carry the name it stands for (`matchesAt`), and the lookup takes
the first of them (`findReferenceIndex_eq`). Names are unique within the long names of the options
and within their short names, but a reference that is no explicit spelling is compared with both
kinds and with the names of positional specs, which nothing keeps apart. `unambiguous_iff` says when
a schema that passes has one target for each reference.
-/

namespace NekoProto.ArgParser

open Binary (Bytes)

theorem findIdx?_congr {specs : List ArgSpec} {test test' : ArgSpec → Bool}
    (h : ∀ spec ∈ specs, test spec = test' spec) : specs.findIdx? test = specs.findIdx? test' := by
  induction specs with
  | nil => rfl
  | cons spec specs ih =>
    obtain ⟨hfirst, hrest⟩ := List.forall_mem_cons.mp h
    rw [List.findIdx?_cons, List.findIdx?_cons, hfirst, ih hrest]

theorem findIdx?_const_false (specs : List ArgSpec) :
    specs.findIdx? (fun _ => false) = none :=
  List.findIdx?_eq_none_iff.mpr fun _ _ => rfl

namespace ArgSchema

variable (schema : ArgSchema)

/-- The reference, as `source` writes it, matches `spec`. A single character denotes a short
option where nothing has its path. -/
def matchesAt (source : ArgSpec) (reference : Bytes) (spec : ArgSpec) : Bool :=
  if [minus, minus].isPrefixOf reference then spec.answersLong (reference.drop 2)
  else if [minus].isPrefixOf reference ∧ reference.length = 2 then
    spec.answersShort (reference.drop 1)
  else
    let path := schema.resolveReferenceName source reference
    path != [] &&
      (spec.matchesReference path ||
        (reference.length == 1 && spec.answersShort reference &&
          schema.specs.all fun other => !other.matchesReference path))

/-- The reference matches the spec at `index`. -/
def Matches (source : ArgSpec) (reference : Bytes) (index : ℕ) : Prop :=
  ∃ spec, schema.specs[index]? = some spec ∧ schema.matchesAt source reference spec = true

/-- **The lookup takes the first spec that matches.** -/
theorem findReferenceIndex_eq (source : ArgSpec) (reference : Bytes) :
    schema.findReferenceIndex source reference =
      schema.specs.findIdx? (schema.matchesAt source reference) := by
  rw [findReferenceIndex]
  split
  · next hlong =>
      refine congrArg (schema.specs.findIdx? ·) (funext fun spec => ?_)
      rw [matchesAt, if_pos hlong]
  next hlong =>
  split
  · next hshort =>
      refine congrArg (schema.specs.findIdx? ·) (funext fun spec => ?_)
      rw [matchesAt, if_neg hlong, if_pos hshort]
  next hshort =>
  have hmatches : ∀ spec, schema.matchesAt source reference spec =
      (schema.resolveReferenceName source reference != [] &&
        (spec.matchesReference (schema.resolveReferenceName source reference) ||
          (reference.length == 1 && spec.answersShort reference &&
            schema.specs.all fun other =>
              !other.matchesReference (schema.resolveReferenceName source reference)))) := by
    intro spec
    rw [matchesAt, if_neg hlong, if_neg hshort]
  rw [funext hmatches]
  generalize schema.resolveReferenceName source reference = path
  simp only
  split
  · next hempty =>
      subst hempty
      exact (findIdx?_const_false schema.specs).symm
  next hempty =>
  have hne : (path != []) = true := by simpa using hempty
  cases hexact : schema.findExactReferenceIndex path with
  | some index =>
    -- some spec has the path, so nothing is taken for a short option
    have hall : (schema.specs.all fun other => !other.matchesReference path) = false := by
      obtain ⟨hlt, hmatch, -⟩ := List.findIdx?_eq_some_iff_getElem.mp hexact
      rw [List.all_eq_false]
      exact ⟨_, List.getElem_mem hlt, by simpa using hmatch⟩
    simp only [hne, hall, Bool.and_false, Bool.or_false, Bool.true_and]
    exact hexact.symm
  | none =>
    have hnone : ∀ spec ∈ schema.specs, spec.matchesReference path = false := by
      intro spec hmem
      simpa using List.findIdx?_eq_none_iff.mp hexact spec hmem
    have hall : (schema.specs.all fun other => !other.matchesReference path) = true := by
      rw [List.all_eq_true]
      intro spec hmem
      rw [hnone spec hmem]
      rfl
    have hcongr : schema.specs.findIdx? (fun spec => path != [] &&
        (spec.matchesReference path || (reference.length == 1 && spec.answersShort reference &&
          schema.specs.all fun other => !other.matchesReference path))) =
        schema.specs.findIdx? fun spec => reference.length == 1 && spec.answersShort reference := by
      refine findIdx?_congr fun spec hmem => ?_
      rw [hne, hall, hnone spec hmem]
      simp only [Bool.true_and, Bool.false_or, Bool.and_true]
    rw [hcongr]
    by_cases hlength : reference.length = 1
    · simp [hlength, findShortIndex]
    · have hlength' : (reference.length == 1) = false := by simpa using hlength
      rw [if_neg hlength, hlength']
      exact (findIdx?_const_false schema.specs).symm

/-- Each reference of a user spec matches exactly one spec, and that is another one. -/
def Unambiguous : Prop :=
  ∀ index spec, schema.specs[index]? = some spec → index < schema.userSpecCount →
    ∀ reference ∈ spec.requiresNames ++ spec.conflicts,
      ∃ target, target ≠ index ∧
        ∀ other, schema.Matches spec reference other ↔ other = target

/-- Two specs carry the name, and nothing keeps their names apart: one of them is positional, or
the name is a single character (the long name of the one and the short name of the other). -/
def Clash (name : Bytes) : Prop :=
  ∃ (i j : ℕ) (spec other : ArgSpec), i ≠ j ∧ schema.specs[i]? = some spec ∧
    schema.specs[j]? = some other ∧
    spec.matchesReference name = true ∧ other.matchesReference name = true ∧
    (spec.positional = true ∨ name.length = 1)

/-- No reference by path stands for a name of two specs that nothing keeps apart. -/
def ClashFree : Prop :=
  ∀ index spec, schema.specs[index]? = some spec → index < schema.userSpecCount →
    ∀ reference ∈ spec.requiresNames ++ spec.conflicts, ¬ ExplicitSpelling reference →
      ¬ schema.Clash (schema.resolveReferenceName spec reference)

variable {schema} {source spec : ArgSpec} {reference : Bytes}

theorem Matches.unique_of_explicit (h : schema.Definition) (hexplicit : ExplicitSpelling reference)
    {i j : ℕ} (hi : schema.Matches source reference i) (hj : schema.Matches source reference j) :
    i = j := by
  obtain ⟨spec, hspec, hmatch⟩ := hi
  obtain ⟨other, hother, hmatch'⟩ := hj
  rw [matchesAt] at hmatch hmatch'
  split at hmatch
  · next hlong =>
      rw [if_pos hlong] at hmatch'
      exact h.long_unique hspec hother hmatch hmatch'
  · next hlong =>
      have hshort := hexplicit.resolve_left hlong
      rw [if_pos hshort] at hmatch
      rw [if_neg hlong, if_pos hshort] at hmatch'
      exact h.short_unique hspec hother hmatch hmatch'

theorem matchesAt_path (hexplicit : ¬ ExplicitSpelling reference) :
    schema.matchesAt source reference spec =
      (schema.resolveReferenceName source reference != [] &&
        (spec.matchesReference (schema.resolveReferenceName source reference) ||
          (reference.length == 1 && spec.answersShort reference &&
            schema.specs.all fun other =>
              !other.matchesReference (schema.resolveReferenceName source reference)))) := by
  have hlong : ¬ [minus, minus].isPrefixOf reference = true := fun h => hexplicit (.inl h)
  have hshort : ¬ ([minus].isPrefixOf reference = true ∧ reference.length = 2) :=
    fun h => hexplicit (.inr h)
  rw [matchesAt, if_neg hlong, if_neg hshort]

end ArgSchema

/-! ## Names that are kept apart -/

/-- The name of an option of more than one character is one of its long names. -/
theorem ArgSpec.mem_longClaims {spec : ArgSpec} {name : Bytes}
    (hname : spec.matchesReference name = true) (hoption : spec.positional = false)
    (hshort : spec.shortName.length ≤ 1) (hlength : 1 < name.length) : name ∈ spec.longClaims := by
  simp only [matchesReference, Bool.or_eq_true, beq_iff_eq, List.any_eq_true] at hname
  simp only [longClaims, hoption, Bool.false_eq_true, if_false, List.mem_append,
    List.mem_singleton, List.mem_filter, decide_eq_true_eq]
  obtain (rfl | rfl) | ⟨other, hother, rfl⟩ := hname
  · exact .inl rfl
  · omega
  · exact .inr ⟨hother, hlength⟩

namespace ArgSchema

variable {schema schema' : ArgSchema}

/-- Without a clash, two specs that carry a name are the same. -/
theorem unique_of_not_clash (h : schema.Definition) (hcollected : schema.Collected) {name : Bytes}
    (hne : name ≠ []) (hclash : ¬ schema.Clash name) {i j : ℕ} {spec other : ArgSpec}
    (hspec : schema.specs[i]? = some spec) (hother : schema.specs[j]? = some other)
    (hname : spec.matchesReference name = true) (hname' : other.matchesReference name = true) :
    i = j := by
  by_contra hij
  have hspecOption : spec.positional = false := by
    rw [← Bool.not_eq_true]
    exact fun hpos => hclash ⟨i, j, spec, other, hij, hspec, hother, hname, hname', .inl hpos⟩
  have hotherOption : other.positional = false := by
    rw [← Bool.not_eq_true]
    exact fun hpos =>
      hclash ⟨j, i, other, spec, Ne.symm hij, hother, hspec, hname', hname, .inl hpos⟩
  have hlength : 1 < name.length := by
    have hpos := List.length_pos_iff.mpr hne
    have hone : name.length ≠ 1 := fun hone =>
      hclash ⟨i, j, spec, other, hij, hspec, hother, hname, hname', .inr hone⟩
    omega
  have hshort := fun (found : ArgSpec) (hfound : found ∈ schema.specs) =>
    hcollected.shortName found hfound
  exact hij (claims_unique h.longNodup hspec hother
    (ArgSpec.mem_longClaims hname hspecOption (hshort spec (List.mem_of_getElem? hspec)) hlength)
    (ArgSpec.mem_longClaims hname' hotherOption (hshort other (List.mem_of_getElem? hother))
      hlength))

/-- Without a clash of the path, a reference by path matches one spec at most. -/
theorem Matches.unique_of_not_clash (h : schema.Definition) (hcollected : schema.Collected)
    {source : ArgSpec} {reference : Bytes} (hexplicit : ¬ ExplicitSpelling reference)
    (hclash : ¬ schema.Clash (schema.resolveReferenceName source reference)) {i j : ℕ}
    (hi : schema.Matches source reference i) (hj : schema.Matches source reference j) : i = j := by
  obtain ⟨spec, hspec, hmatch⟩ := hi
  obtain ⟨other, hother, hmatch'⟩ := hj
  rw [matchesAt_path hexplicit, Bool.and_eq_true, Bool.or_eq_true, Bool.and_eq_true,
    Bool.and_eq_true, List.all_eq_true] at hmatch hmatch'
  obtain ⟨hne, hmatch⟩ := hmatch
  have hne : schema.resolveReferenceName source reference ≠ [] := by simpa using hne
  obtain hpath | ⟨⟨-, hshort⟩, hnone⟩ := hmatch
  · obtain hpath' | ⟨-, hnone'⟩ := hmatch'.2
    · exact ArgSchema.unique_of_not_clash h hcollected hne hclash hspec hother hpath hpath'
    · have hnot := hnone' spec (List.mem_of_getElem? hspec)
      simp [hpath] at hnot
  · obtain hpath' | ⟨⟨-, hshort'⟩, -⟩ := hmatch'.2
    · have hnot := hnone other (List.mem_of_getElem? hother)
      simp [hpath'] at hnot
    · exact h.short_unique hspec hother hshort hshort'

/-- **A schema that passes is unambiguous exactly if none of its references by path stands for a
name that a positional spec shares, or that is the long name of one option and the short name of
another.** -/
theorem unambiguous_iff (hcollected : schema.Collected)
    (h : schema.validateSchemaDefinition = .ok schema') :
    schema.Unambiguous ↔ schema.ClashFree := by
  obtain ⟨hdefinition, -, hfound⟩ := validateSchemaDefinition_ok h
  constructor
  · intro hunambiguous index spec hspec huser reference hreference hexplicit hclash
    obtain ⟨target, -, htarget⟩ := hunambiguous index spec hspec huser reference hreference
    obtain ⟨i, j, first, second, hij, hfirst, hsecond, hname, hname', -⟩ := hclash
    obtain ⟨found, hlookup, -⟩ := hfound index spec hspec huser reference hreference
    have hne : schema.resolveReferenceName spec reference ≠ [] := by
      rw [findReferenceIndex_eq] at hlookup
      obtain ⟨hlt, hmatch, -⟩ := List.findIdx?_eq_some_iff_getElem.mp hlookup
      rw [matchesAt_path hexplicit, Bool.and_eq_true] at hmatch
      simpa using hmatch.1
    have hmatches : ∀ k carrier, schema.specs[k]? = some carrier →
        carrier.matchesReference (schema.resolveReferenceName spec reference) = true →
          k = target := by
      intro k carrier hcarrier hcarries
      refine (htarget k).mp ⟨carrier, hcarrier, ?_⟩
      rw [matchesAt_path hexplicit, hcarries]
      simpa using hne
    exact hij ((hmatches i first hfirst hname).trans (hmatches j second hsecond hname').symm)
  · intro hfree index spec hspec huser reference hreference
    obtain ⟨target, hlookup, htarget⟩ := hfound index spec hspec huser reference hreference
    refine ⟨target, htarget, fun other => ⟨fun hother => ?_, ?_⟩⟩
    · have hmatch : schema.Matches spec reference target := by
        rw [findReferenceIndex_eq] at hlookup
        obtain ⟨hlt, hmatch, -⟩ := List.findIdx?_eq_some_iff_getElem.mp hlookup
        exact ⟨_, List.getElem?_eq_getElem hlt, hmatch⟩
      by_cases hexplicit : ExplicitSpelling reference
      · exact hother.unique_of_explicit hdefinition hexplicit hmatch
      · exact hother.unique_of_not_clash hdefinition hcollected hexplicit
          (hfree index spec hspec huser reference hreference hexplicit) hmatch
    · rintro rfl
      rw [findReferenceIndex_eq] at hlookup
      obtain ⟨hlt, hmatch, -⟩ := List.findIdx?_eq_some_iff_getElem.mp hlookup
      exact ⟨_, List.getElem?_eq_getElem hlt, hmatch⟩

/-- A login that requires a token. -/
theorem unambiguous_iff_login :
    (collectSchema
        [.option (text "login") { requiresNames := [text "token"] } true false,
         .option (text "token") {} false false] dot []).Unambiguous ↔
      (collectSchema
        [.option (text "login") { requiresNames := [text "token"] } true false,
         .option (text "token") {} false false] dot []).ClashFree :=
  @unambiguous_iff _
    { specs :=
        [{ longName := text "login", flag := true, requiresNames := [text "token"],
           requireIndices := [1] },
         { longName := text "token" }]
      userSpecCount := 2 }
    (collectSchema_collected _ _ _) (by decide +kernel)

/-- A reference `"v"` beside a field `v` and a field `verbose` with the short name `v`: both match,
and the schema passes. -/
theorem short_and_long_name :
    ((collectSchema
        [.option (text "v") {} false false,
         .option (text "verbose") { shortName := some 0x76 } true false,
         .option (text "quiet") { conflicts := [text "v"] } true false] dot
        []).validateSchemaDefinition.map fun schema => schema.specs.map (·.conflictIndices)) =
      .ok [[], [], [0]] ∧
    ¬ (collectSchema
        [.option (text "v") {} false false,
         .option (text "verbose") { shortName := some 0x76 } true false,
         .option (text "quiet") { conflicts := [text "v"] } true false] dot []).Unambiguous := by
  refine ⟨by decide +kernel, fun h => ?_⟩
  obtain ⟨target, -, htarget⟩ := h 2
    { longName := text "quiet", flag := true, conflicts := [text "v"] } (by decide +kernel)
    (by decide +kernel) (text "v") (by decide +kernel)
  have hlong := (htarget 0).mp ⟨{ longName := text "v" }, by decide +kernel, by decide +kernel⟩
  have hshort := (htarget 1).mp
    ⟨{ longName := text "verbose", shortName := [0x76], flag := true }, by decide +kernel,
      by decide +kernel⟩
  omega

end ArgSchema

end NekoProto.ArgParser
