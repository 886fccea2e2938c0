import NekoProto.ArgParser.Spellings
import Mathlib.Tactic.Common

/-!
# Rendering a raw result

1. Recording keeps a raw result normal (`Normal`): a spec that is not repeatable has one value at
   most, and the positional specs are filled in their order. The loop keeps this (`parse_normal`).
2. A normal result is rendered as one `--name=value` for each value of an option, `--`, and the
   values of the positional specs. Reading the tokens of one spec restores its values
   (`parse_optionTokens`, `parse_positionalTokens`), so reading all of them restores the result
   (`parse_render`).
-/

namespace NekoProto.ArgParser

open Binary (Bytes)
open Outcome (bind_eq_ok)

/-! ## What is recorded -/

section

variable {schema : ArgSchema} {config : ArgParserConfig} {result result' : RawParseResult}
  {index : ℕ} {spec : ArgSpec} {value : Bytes}

theorem recordRawValue_eq_ok :
    recordRawValue schema result index value = .ok result' ↔
      ∃ spec values, schema.specs[index]? = some spec ∧ result[index]? = some values ∧
        (spec.repeatable = true ∨ values = []) ∧
        result' = result.set index (values ++ [value]) := by
  unfold recordRawValue
  cases hspec : schema.specs[index]? with
  | none => simp
  | some spec =>
    cases hvalues : result[index]? with
    | none => simp
    | some values =>
      simp only
      by_cases hfull : ¬ spec.repeatable = true ∧ values ≠ []
      · rw [if_pos hfull]
        constructor
        · intro h
          cases h
        · rintro ⟨_, _, ⟨⟩, ⟨⟩, hfree, -⟩
          exact absurd hfree (not_or.mpr hfull)
      · rw [if_neg hfull]
        have hfree : spec.repeatable = true ∨ values = [] := by
          simpa only [not_and_or, not_not] using hfull
        constructor
        · intro h
          exact ⟨spec, values, rfl, rfl, hfree, (Except.ok.inj h).symm⟩
        · rintro ⟨_, _, ⟨⟩, ⟨⟩, -, rfl⟩
          rfl

/-- The values of a spec after one more is recorded. -/
theorem getD_set (hlength : index < result.length) (values : List Bytes) (other : ℕ) :
    (result.set index values).getD other [] =
      if other = index then values else result.getD other [] := by
  rw [List.getD_eq_getElem?_getD, List.getElem?_set]
  by_cases heq : index = other
  · subst heq
    simp [hlength]
  · rw [if_neg heq, if_neg (Ne.symm heq), List.getD_eq_getElem?_getD]

/-! ### A property that recording at options keeps -/

/-- Recording a value for an option keeps the property. -/
def KeptByOptions (schema : ArgSchema) (P : RawParseResult → Prop) : Prop :=
  ∀ result index spec value result', schema.specs[index]? = some spec → spec.positional = false →
    P result → recordRawValue schema result index value = .ok result' → P result'

theorem findLongIndex_option {name : Bytes} (h : schema.findLongIndex name = some index) :
    ∃ spec, schema.specs[index]? = some spec ∧ spec.positional = false := by
  obtain ⟨hlt, hname, -⟩ := List.findIdx?_eq_some_iff_getElem.mp h
  rw [ArgSpec.answersLong, Bool.and_eq_true, Bool.not_eq_true'] at hname
  exact ⟨_, List.getElem?_eq_getElem hlt, hname.1⟩

theorem findShortIndex_option {name : Bytes} (h : schema.findShortIndex name = some index) :
    ∃ spec, schema.specs[index]? = some spec ∧ spec.positional = false := by
  obtain ⟨hlt, hname, -⟩ := List.findIdx?_eq_some_iff_getElem.mp h
  rw [ArgSpec.answersShort, Bool.and_eq_true, Bool.not_eq_true'] at hname
  exact ⟨_, List.getElem?_eq_getElem hlt, hname.1⟩

variable {P : RawParseResult → Prop} (hP : KeptByOptions schema P) {took : Bool}
  {next : Option Bytes}

include hP

theorem KeptByOptions.recordRawOption {value : Option Bytes}
    (hspec : schema.specs[index]? = some spec) (hoption : spec.positional = false)
    (h : P result)
    (hrecord : recordRawOption schema config result index next value = .ok (result', took)) :
    P result' := by
  have himplicit : recordImplicit schema result index = .ok (result', took) → P result' := by
    intro himplicit
    rw [recordImplicit] at himplicit
    split at himplicit
    · obtain ⟨middle, hvalue, heq⟩ := bind_eq_ok.mp himplicit
      obtain ⟨rfl, -⟩ := Prod.mk.inj (Except.ok.inj heq)
      exact hP _ _ _ _ _ hspec hoption h hvalue
    · cases himplicit
  unfold ArgParser.recordRawOption at hrecord
  split at hrecord
  · obtain ⟨middle, hvalue, heq⟩ := bind_eq_ok.mp hrecord
    obtain ⟨rfl, -⟩ := Prod.mk.inj (Except.ok.inj heq)
    exact hP _ _ _ _ _ hspec hoption h hvalue
  · split at hrecord
    · split at hrecord
      · obtain ⟨middle, hvalue, heq⟩ := bind_eq_ok.mp hrecord
        obtain ⟨rfl, -⟩ := Prod.mk.inj (Except.ok.inj heq)
        exact hP _ _ _ _ _ hspec hoption h hvalue
      · exact himplicit hrecord
    · exact himplicit hrecord

omit hP in
theorem unknownOption_ok {message : Bytes}
    (h : unknownOption config result message = .ok (result', took)) : result' = result := by
  rw [unknownOption] at h
  split at h
  · exact (Prod.mk.inj (Except.ok.inj h)).1.symm
  · cases h

theorem KeptByOptions.parseLong {body : Bytes} (h : P result)
    (hparse : parseLong schema config result body next = .ok (result', took)) : P result' := by
  rw [ArgParser.parseLong] at hparse
  simp only at hparse
  split at hparse
  · rw [unknownOption_ok hparse]
    exact h
  · next index hfind =>
      obtain ⟨spec, hspec, hoption⟩ := findLongIndex_option hfind
      exact hP.recordRawOption hspec hoption h hparse

theorem KeptByOptions.parseCluster {body : Bytes} (h : P result)
    (hparse : parseCluster schema config next body result = .ok (result', took)) : P result' := by
  induction body generalizing result with
  | nil =>
    obtain ⟨rfl, -⟩ := Prod.mk.inj (Except.ok.inj hparse)
    exact h
  | cons ch remainder ih =>
    rw [ArgParser.parseCluster] at hparse
    split at hparse
    · split at hparse
      · exact ih h hparse
      · cases hparse
    · next index hfind =>
        obtain ⟨spec, hspec, hoption⟩ := findShortIndex_option hfind
        split at hparse
        · split at hparse
          · obtain ⟨middle, hvalue, heq⟩ := bind_eq_ok.mp hparse
            obtain ⟨rfl, -⟩ := Prod.mk.inj (Except.ok.inj heq)
            exact hP _ _ _ _ _ hspec hoption h hvalue
          · exact hP.recordRawOption hspec hoption h hparse
        · obtain ⟨middle, hvalue, hrest⟩ := bind_eq_ok.mp hparse
          exact ih (hP _ _ _ _ _ hspec hoption h hvalue) hrest

omit hP in
theorem findShort_option {name : Bytes} {value found : Option Bytes}
    (h : findShort schema name value = some (index, found)) :
    ∃ spec, schema.specs[index]? = some spec ∧ spec.positional = false := by
  unfold findShort at h
  split at h
  · next other hfind =>
      obtain ⟨rfl, -⟩ := Prod.mk.inj (Option.some.inj h)
      exact findShortIndex_option hfind
  · split at h
    · split at h
      · obtain ⟨other, hfind, heq⟩ := Option.map_eq_some_iff.mp h
        obtain ⟨rfl, -⟩ := Prod.mk.inj heq
        exact findShortIndex_option hfind
      · cases h
    · cases h

theorem KeptByOptions.parseShort {body : Bytes} (h : P result)
    (hparse : parseShort schema config result body next = .ok (result', took)) : P result' := by
  rw [ArgParser.parseShort] at hparse
  simp only at hparse
  split at hparse
  · exact hP.parseCluster h hparse
  · split at hparse
    · rw [unknownOption_ok hparse]
      exact h
    · next index value hfind =>
        obtain ⟨spec, hspec, hoption⟩ := findShort_option hfind
        exact hP.recordRawOption hspec hoption h hparse

end

/-! ## Normal results -/

/-- The values of a spec. -/
def RawState.valuesAt (state : RawState) (index : ℕ) : List Bytes := state.result.getD index []

/-- What the loop keeps. The positional specs before `positionalIndex` have values, those behind it
have none, and the one at it has some only if it is repeatable. -/
structure Normal (schema : ArgSchema) (state : RawState) : Prop where
  length : state.result.length = schema.specs.length
  single : ∀ index spec, schema.specs[index]? = some spec → spec.repeatable = false →
    (state.valuesAt index).length ≤ 1
  behind : ∀ position index, schema.positionalSpecs[position]? = some index →
    position < state.positionalIndex → state.valuesAt index ≠ []
  ahead : ∀ position index, schema.positionalSpecs[position]? = some index →
    state.positionalIndex < position → state.valuesAt index = []
  here : ∀ index spec, schema.positionalSpecs[state.positionalIndex]? = some index →
    schema.specs[index]? = some spec → spec.repeatable = false → state.valuesAt index = []

namespace Normal

variable {schema : ArgSchema} {config : ArgParserConfig} {state state' : RawState}
  {result : RawParseResult} {index : ℕ} {spec : ArgSpec} {value : Bytes}

theorem start : Normal schema (RawState.start schema) := by
  have hvalues : ∀ index, (RawState.start schema).valuesAt index = [] := by
    intro index
    rw [RawState.valuesAt, List.getD_eq_getElem?_getD, RawState.start, List.getElem?_replicate]
    split <;> rfl
  exact ⟨List.length_replicate, fun index _ _ _ => by rw [hvalues]; exact Nat.zero_le 1,
    fun _ _ _ hlt => absurd hlt (Nat.not_lt_zero _), fun _ index _ _ => hvalues index,
    fun index _ _ _ _ => hvalues index⟩

/-- The values after one is recorded. -/
theorem valuesAt_record (h : Normal schema state)
    (hrecord : recordRawValue schema state.result index value = .ok result) :
    ∃ spec, schema.specs[index]? = some spec ∧
      (spec.repeatable = true ∨ state.valuesAt index = []) ∧
      result.length = schema.specs.length ∧
      ∀ other, result.getD other [] =
        if other = index then state.valuesAt index ++ [value] else state.valuesAt other := by
  obtain ⟨spec, values, hspec, hvalues, hfree, rfl⟩ := recordRawValue_eq_ok.mp hrecord
  have hlt := (List.getElem?_eq_some_iff.mp hvalues).1
  have hat : state.valuesAt index = values := by
    rw [RawState.valuesAt, List.getD_eq_getElem?_getD, hvalues, Option.getD_some]
  refine ⟨spec, hspec, hat ▸ hfree, by rw [List.length_set, h.length], fun other => ?_⟩
  rw [getD_set hlt, hat]
  rfl

theorem single_record (h : Normal schema state)
    (hrecord : recordRawValue schema state.result index value = .ok result) :
    ∀ other spec, schema.specs[other]? = some spec → spec.repeatable = false →
      (result.getD other []).length ≤ 1 := by
  obtain ⟨recorded, hrecorded, hfree, -, hvalues⟩ := h.valuesAt_record hrecord
  intro other spec hspec hrepeatable
  rw [hvalues]
  split
  · next heq =>
      subst heq
      obtain rfl := Option.some.inj (hspec.symm.trans hrecorded)
      rw [hrepeatable] at hfree
      rw [hfree.resolve_left Bool.false_ne_true]
      exact Nat.le_refl 1
  · exact h.single other spec hspec hrepeatable

/-- Recording a value for an option does not touch the positional specs. -/
theorem option_kept (hcollected : schema.Collected) (state : RawState) :
    KeptByOptions schema fun result => Normal schema { state with result := result } := by
  intro result index spec value result' hspec hoption h hrecord
  obtain ⟨-, -, -, hlength, hvalues⟩ := h.valuesAt_record hrecord
  have hsame : ∀ (position other : ℕ), schema.positionalSpecs[position]? = some other →
      RawState.valuesAt { state with result := result' } other =
        RawState.valuesAt { state with result := result } other := by
    intro position other hother
    obtain ⟨found, hfound, hpositional⟩ :=
      (hcollected.positionals other).mp (List.mem_of_getElem? hother)
    refine (hvalues other).trans (if_neg ?_)
    rintro rfl
    obtain rfl := Option.some.inj (hspec.symm.trans hfound)
    exact absurd (hoption.symm.trans hpositional) Bool.false_ne_true
  refine ⟨hlength, h.single_record hrecord, ?_, ?_, ?_⟩
  · intro position other hother hlt
    rw [hsame position other hother]
    exact h.behind position other hother hlt
  · intro position other hother hlt
    rw [hsame position other hother]
    exact h.ahead position other hother hlt
  · intro other found hother hfound hrepeatable
    rw [hsame _ other hother]
    exact h.here other found hother hfound hrepeatable

/-- A positional spec is listed once. -/
theorem position_unique (hcollected : schema.Collected) {position other : ℕ}
    (hposition : schema.positionalSpecs[position]? = some index)
    (hother : schema.positionalSpecs[other]? = some index) : position = other := by
  have hnodup : schema.positionalSpecs.Nodup := hcollected.sorted.imp fun hlt => Nat.ne_of_lt hlt
  obtain ⟨hlt, heq⟩ := List.getElem?_eq_some_iff.mp hposition
  obtain ⟨hlt', heq'⟩ := List.getElem?_eq_some_iff.mp hother
  exact hnodup.getElem_inj_iff.mp (heq.trans heq'.symm)

/-- A value for the positional spec at `positionalIndex`. -/
theorem recordRawPositional (hcollected : schema.Collected) (h : Normal schema state)
    (hrecord : recordRawPositional schema state value = .ok state') : Normal schema state' := by
  unfold ArgParser.recordRawPositional at hrecord
  split at hrecord
  · cases hrecord
  next index hindex =>
  obtain ⟨result, hvalue, hrecord⟩ := bind_eq_ok.mp hrecord
  obtain ⟨spec, hspec, -, hlength, hvalues⟩ := h.valuesAt_record hvalue
  have hsame : ∀ (position other : ℕ), schema.positionalSpecs[position]? = some other →
      position ≠ state.positionalIndex → result.getD other [] = state.valuesAt other := by
    intro position other hother hne
    refine (hvalues other).trans (if_neg ?_)
    rintro rfl
    exact hne (position_unique hcollected hother hindex)
  have hat : result.getD index [] = state.valuesAt index ++ [value] :=
    (hvalues index).trans (if_pos rfl)
  rw [specAt_eq hspec] at hrecord
  split at hrecord
  · next hrepeatable =>
      cases hrecord
      refine ⟨hlength, h.single_record hvalue, ?_, ?_, ?_⟩
      · intro position other hother hlt
        show result.getD other [] ≠ []
        rw [hsame position other hother (Nat.ne_of_lt hlt)]
        exact h.behind position other hother hlt
      · intro position other hother hlt
        show result.getD other [] = []
        rw [hsame position other hother (Nat.ne_of_gt hlt)]
        exact h.ahead position other hother hlt
      · intro other found hother hfound hnot
        obtain rfl := Option.some.inj (hindex.symm.trans hother)
        obtain rfl := Option.some.inj (hspec.symm.trans hfound)
        exact absurd (hnot.symm.trans hrepeatable) Bool.false_ne_true
  · cases hrecord
    refine ⟨hlength, h.single_record hvalue, ?_, ?_, ?_⟩
    · intro position other hother hlt
      show result.getD other [] ≠ []
      by_cases heq : position = state.positionalIndex
      · subst heq
        obtain rfl := Option.some.inj (hindex.symm.trans hother)
        rw [hat]
        exact List.append_ne_nil_of_right_ne_nil _ (List.cons_ne_nil _ _)
      · rw [hsame position other hother heq]
        exact h.behind position other hother (Nat.lt_of_le_of_ne (Nat.le_of_lt_succ hlt) heq)
    · intro position other hother hlt
      show result.getD other [] = []
      have hlt : state.positionalIndex < position := Nat.lt_of_succ_lt hlt
      rw [hsame position other hother (Nat.ne_of_gt hlt)]
      exact h.ahead position other hother hlt
    · intro other found hother _ _
      show result.getD other [] = []
      rw [hsame _ other hother (Nat.succ_ne_self _)]
      exact h.ahead _ other hother (Nat.lt_succ_self _)

/-- One round of the loop. -/
theorem parseArgument (hcollected : schema.Collected) (h : Normal schema state) {arg : Bytes}
    {next : Option Bytes} {took : Bool}
    (hparse : parseArgument schema config state arg next = .ok (state', took)) :
    Normal schema state' := by
  have hpositional : ∀ value, (do
      let state ← ArgParser.recordRawPositional schema state value
      return (state, false)) = .ok (state', took) → Normal schema state' := by
    intro value hrecord
    obtain ⟨after, hvalue, heq⟩ := bind_eq_ok.mp hrecord
    obtain ⟨rfl, -⟩ := Prod.mk.inj (Except.ok.inj heq)
    exact h.recordRawPositional hcollected hvalue
  unfold ArgParser.parseArgument at hparse
  split at hparse
  · exact hpositional arg hparse
  split at hparse
  · obtain ⟨rfl, -⟩ := Prod.mk.inj (Except.ok.inj hparse)
    exact ⟨h.length, h.single, h.behind, h.ahead, h.here⟩
  split at hparse
  · cases hparse
  split at hparse
  · cases hparse
  split at hparse
  · obtain ⟨⟨result, _⟩, hlong, heq⟩ := bind_eq_ok.mp hparse
    obtain ⟨rfl, -⟩ := Prod.mk.inj (Except.ok.inj heq)
    exact (option_kept hcollected state).parseLong h hlong
  split at hparse
  · obtain ⟨⟨result, _⟩, hshort, heq⟩ := bind_eq_ok.mp hparse
    obtain ⟨rfl, -⟩ := Prod.mk.inj (Except.ok.inj heq)
    exact (option_kept hcollected state).parseShort h hshort
  · exact hpositional arg hparse

/-- The loop. -/
theorem parseArguments (hcollected : schema.Collected) {argv : List (Option Bytes)}
    (h : Normal schema state) (hparse : parseArguments schema config argv state = .ok state') :
    Normal schema state' := by
  induction hlength : argv.length using Nat.strong_induction_on generalizing argv state with
  | _ length ih =>
    cases argv with
    | nil =>
      cases hparse
      exact h
    | cons arg rest =>
      rw [parseArguments_cons] at hparse
      obtain ⟨⟨after, took⟩, hstep, hrest⟩ := bind_eq_ok.mp hparse
      have hafter := h.parseArgument hcollected hstep
      rw [List.length_cons] at hlength
      cases took with
      | false => exact ih rest.length (by omega) hafter hrest rfl
      | true => exact ih rest.tail.length (by simp only [List.length_tail]; omega) hafter hrest rfl

end Normal

/-! ## Rendering -/

/-- `--name=value`. -/
def optionToken (spec : ArgSpec) (value : Bytes) : Option Bytes :=
  some (minus :: minus :: (spec.longName ++ equalsSign :: value))

section

variable (schema : ArgSchema) (result : RawParseResult)

/-- The tokens of the spec at `index`, if it is an option. -/
def renderSpec (index : ℕ) : List (Option Bytes) :=
  if (schema.specAt index).positional then []
  else (result.getD index []).map (optionToken (schema.specAt index))

/-- The tokens of the options. -/
def renderOptions : List (Option Bytes) :=
  (List.range schema.specs.length).flatMap (renderSpec schema result)

/-- The values of positional specs. -/
def renderPositionals (positionals : List ℕ) : List (Option Bytes) :=
  positionals.flatMap fun index => (result.getD index []).map some

/-- The canonical command line of a raw result. -/
def render : List (Option Bytes) :=
  renderOptions schema result ++ some [minus, minus] ::
    renderPositionals result schema.positionalSpecs

/-- The result with the values of some specs only. -/
def restrict (keep : ℕ → Bool) : RawParseResult :=
  (List.range schema.specs.length).map fun index => if keep index then result.getD index [] else []

end

section

variable {schema : ArgSchema} {config : ArgParserConfig} {state : RawState}
  {result : RawParseResult} {index : ℕ} {spec : ArgSpec} {keep keep' : ℕ → Bool}

theorem restrict_length : (restrict schema result keep).length = schema.specs.length := by
  rw [restrict, List.length_map, List.length_range]

theorem restrict_getElem? (hlt : index < schema.specs.length) :
    (restrict schema result keep)[index]? =
      some (if keep index then result.getD index [] else []) := by
  rw [restrict, List.getElem?_map, List.getElem?_range hlt]
  rfl

theorem restrict_congr (h : ∀ index, index < schema.specs.length →
    keep index = keep' index ∨ result.getD index [] = []) :
    restrict schema result keep = restrict schema result keep' := by
  refine List.map_congr_left fun index hindex => ?_
  obtain heq | hnil := h index (List.mem_range.mp hindex)
  · rw [heq]
  · rw [hnil, ite_self, ite_self]

theorem restrict_none : restrict schema result (fun _ => false) =
    List.replicate schema.specs.length [] := by
  rw [List.eq_replicate_iff]
  constructor
  · exact restrict_length
  · intro values hvalues
    obtain ⟨index, -, rfl⟩ := List.mem_map.mp hvalues
    rfl

theorem restrict_all (hlength : result.length = schema.specs.length) :
    restrict schema result (fun _ => true) = result := by
  refine List.ext_getElem? fun index => ?_
  by_cases hlt : index < schema.specs.length
  · rw [restrict_getElem? hlt, if_pos rfl, List.getD_eq_getElem?_getD,
      List.getElem?_eq_getElem (hlength ▸ hlt), Option.getD_some]
  · rw [List.getElem?_eq_none (by rw [restrict_length]; exact Nat.not_lt.mp hlt),
      List.getElem?_eq_none (by rw [hlength]; exact Nat.not_lt.mp hlt)]

/-- Filling in the values of one more spec. -/
theorem restrict_set (hlt : index < schema.specs.length) :
    (restrict schema result keep).set index (result.getD index []) =
      restrict schema result fun other => other == index || keep other := by
  refine List.ext_getElem? fun other => ?_
  rw [List.getElem?_set]
  by_cases heq : index = other
  · subst heq
    rw [if_pos rfl, if_pos (by rw [restrict_length]; exact hlt), restrict_getElem? hlt]
    simp
  · rw [if_neg heq]
    by_cases hother : other < schema.specs.length
    · rw [restrict_getElem? hother, restrict_getElem? hother]
      have hne : (other == index) = false := by simpa using Ne.symm heq
      rw [hne, Bool.false_or]
    · rw [List.getElem?_eq_none (by rw [restrict_length]; exact Nat.not_lt.mp hother),
        List.getElem?_eq_none (by rw [restrict_length]; exact Nat.not_lt.mp hother)]

/-! ### Reading what was rendered -/

/-- Recording a value that there is room for. -/
theorem recordRawValue_ok {current : RawParseResult} {values : List Bytes}
    (hspec : schema.specs[index]? = some spec) (hvalues : current[index]? = some values)
    (hfree : spec.repeatable = true ∨ values = []) (value : Bytes) :
    recordRawValue schema current index value = .ok (current.set index (values ++ [value])) :=
  recordRawValue_eq_ok.mpr ⟨spec, values, hspec, hvalues, hfree, rfl⟩

theorem set_getElem?_self {current : RawParseResult} {values : List Bytes}
    (h : current[index]? = some values) : current.set index values = current := by
  obtain ⟨hlt, rfl⟩ := List.getElem?_eq_some_iff.mp h
  exact List.set_getElem_self hlt

theorem getElem?_set_of_some {current : RawParseResult} {values values' : List Bytes}
    (h : current[index]? = some values) : (current.set index values')[index]? = some values' :=
  List.getElem?_set_self (List.getElem?_eq_some_iff.mp h).1

/-- Room for the values that are left, once the first one is recorded. -/
theorem room_tail {values rest : List Bytes} {value : Bytes}
    (h : spec.repeatable = true ∨ (values ++ value :: rest).length ≤ 1) :
    (spec.repeatable = true ∨ values = []) ∧
      (spec.repeatable = true ∨ (values ++ [value] ++ rest).length ≤ 1) := by
  obtain hrepeatable | hlength := h
  · exact ⟨.inl hrepeatable, .inl hrepeatable⟩
  · simp only [List.length_append, List.length_cons] at hlength
    refine ⟨.inr (List.length_eq_zero_iff.mp (by omega)), .inr ?_⟩
    simp only [List.length_append, List.length_cons, List.length_nil]
    omega

/-- The tokens of one option. -/
theorem parse_optionTokens (h : schema.Definition) (hspec : schema.specs[index]? = some spec)
    (hoption : spec.positional = false) (hforce : state.forcePositional = false)
    (rest : List (Option Bytes)) (values : List Bytes) (current : RawParseResult)
    (before : List Bytes) (hbefore : current[index]? = some before)
    (hroom : spec.repeatable = true ∨ (before ++ values).length ≤ 1) :
    parseArguments schema config (values.map (optionToken spec) ++ rest)
        { state with result := current } =
      parseArguments schema config rest
        { state with result := current.set index (before ++ values) } := by
  have hlong : spec.answersLong spec.longName = true := by simp [ArgSpec.answersLong, hoption]
  obtain ⟨hnotMem, -⟩ := h.long_notMem hspec hlong
  have hfind := h.findLongIndex hspec hlong
  induction values generalizing current before with
  | nil =>
    rw [List.append_nil, set_getElem?_self hbefore]
    rfl
  | cons value values ih =>
    obtain ⟨hfree, hroom⟩ := room_tail hroom
    have hdeclared : (schema.findLongIndex
        (cutEqual (spec.longName ++ equalsSign :: value)).1).isSome = true := by
      rw [cutEqual_append hnotMem, hfind]
      rfl
    have hforce : RawState.forcePositional { state with result := current } = false := hforce
    show parseArguments schema config
      (optionToken spec value :: (values.map (optionToken spec) ++ rest)) _ = _
    rw [parseArguments_cons, optionToken, Option.getD_some,
      parseArgument_long hforce (by simp) hdeclared, parseLong_inline hnotMem hfind,
      recordRawValue_ok hspec hbefore hfree]
    refine (ih (current.set index (before ++ [value])) (before ++ [value])
      (getElem?_set_of_some hbefore) hroom).trans ?_
    rw [List.set_set, List.append_assoc, List.singleton_append]

/-- The tokens of all options. -/
theorem parse_renderOptions (h : schema.Definition)
    (hsingle : ∀ index spec, schema.specs[index]? = some spec → spec.repeatable = false →
      (result.getD index []).length ≤ 1)
    (hforce : state.forcePositional = false) (rest : List (Option Bytes)) (count : ℕ)
    (hcount : count ≤ schema.specs.length) :
    parseArguments schema config
        ((List.range count).flatMap (renderSpec schema result) ++ rest)
        { state with result := restrict schema result fun _ => false } =
      parseArguments schema config rest
        { state with
          result := restrict schema result fun index =>
            decide (index < count) && !(schema.specAt index).positional } := by
  induction count generalizing rest with
  | zero =>
    refine congrArg (fun current => parseArguments schema config rest
      { state with result := current }) ?_
    exact restrict_congr fun index _ => .inl (by simp)
  | succ count ih =>
    have hlt : count < schema.specs.length := hcount
    have hspec : schema.specs[count]? = some schema.specs[count] := List.getElem?_eq_getElem hlt
    rw [List.range_succ, List.flatMap_append, List.append_assoc, ih _ (Nat.le_of_lt hcount),
      List.flatMap_singleton, renderSpec, specAt_eq hspec]
    split
    · next hpositional =>
        refine congrArg (fun current => parseArguments schema config rest
          { state with result := current }) ?_
        refine restrict_congr fun index _ => .inl ?_
        by_cases heq : index = count
        · subst heq
          rw [specAt_eq hspec, hpositional]
          simp
        · have hiff : (index < count + 1) ↔ index < count := by omega
          rw [decide_eq_decide.mpr hiff]
    · next hpositional =>
        rw [Bool.not_eq_true] at hpositional
        have hbefore : (restrict schema result fun index =>
            decide (index < count) && !(schema.specAt index).positional)[count]? = some [] := by
          rw [restrict_getElem? hlt]
          simp
        have hroom : schema.specs[count].repeatable = true ∨
            ([] ++ result.getD count []).length ≤ 1 := by
          cases hrepeatable : schema.specs[count].repeatable with
          | true => exact .inl rfl
          | false => exact .inr (hsingle count _ hspec hrepeatable)
        rw [parse_optionTokens h hspec hpositional hforce rest _ _ [] hbefore hroom,
          List.nil_append, restrict_set hlt]
        refine congrArg (fun current => parseArguments schema config rest
          { state with result := current }) ?_
        refine restrict_congr fun index _ => .inl ?_
        by_cases heq : index = count
        · subst heq
          rw [specAt_eq hspec, hpositional]
          simp
        · have hne : (index == count) = false := by simpa using heq
          have hiff : (index < count + 1) ↔ index < count := by omega
          rw [hne, Bool.false_or, decide_eq_decide.mpr hiff]

/-- The values of a repeatable positional spec, which all go to one position. -/
theorem parse_repeatable (hspec : schema.specs[index]? = some spec)
    (hrepeatable : spec.repeatable = true) (hforce : state.forcePositional = true)
    (hposition : schema.positionalSpecs[state.positionalIndex]? = some index)
    (values : List Bytes) (current : RawParseResult) (before : List Bytes)
    (hbefore : current[index]? = some before) :
    parseArguments schema config (values.map some) { state with result := current } =
      .ok { state with result := current.set index (before ++ values) } := by
  induction values generalizing current before with
  | nil =>
    rw [List.append_nil, set_getElem?_self hbefore]
    rfl
  | cons value values ih =>
    have hrecord : recordRawPositional schema { state with result := current } value =
        .ok { state with result := current.set index (before ++ [value]) } := by
      unfold recordRawPositional
      simp only [hposition]
      rw [recordRawValue_ok hspec hbefore (.inl hrepeatable), specAt_eq hspec, hrepeatable]
      rfl
    have hstep : ∀ next, parseArgument schema config { state with result := current } value next =
        .ok ({ state with result := current.set index (before ++ [value]) }, false) := by
      intro next
      rw [parseArgument, if_pos hforce, hrecord]
      rfl
    rw [List.map_cons, parseArguments_cons, Option.getD_some, hstep]
    refine (ih (current.set index (before ++ [value])) (before ++ [value])
      (getElem?_set_of_some hbefore)).trans ?_
    rw [List.set_set, List.append_assoc, List.singleton_append]

/-- The value of a positional spec that takes one. -/
theorem parse_single {rest : List (Option Bytes)} {current : RawParseResult} {value : Bytes}
    (hspec : schema.specs[index]? = some spec) (hrepeatable : spec.repeatable = false)
    (hforce : state.forcePositional = true)
    (hposition : schema.positionalSpecs[state.positionalIndex]? = some index)
    (hbefore : current[index]? = some []) :
    parseArguments schema config (some value :: rest) { state with result := current } =
      parseArguments schema config rest
        { state with
          result := current.set index [value]
          positionalIndex := state.positionalIndex + 1 } := by
  have hrecord : recordRawPositional schema { state with result := current } value =
      .ok { state with
        result := current.set index [value]
        positionalIndex := state.positionalIndex + 1 } := by
    unfold recordRawPositional
    simp only [hposition]
    rw [recordRawValue_ok hspec hbefore (.inr rfl), specAt_eq hspec, hrepeatable]
    rfl
  rw [parseArguments_cons, Option.getD_some, parseArgument, if_pos hforce, hrecord]
  rfl

/-- The values of the positional specs that are left. -/
theorem parse_renderPositionals (h : schema.Definition) (hcollected : schema.Collected)
    (hsingle : ∀ index spec, schema.specs[index]? = some spec → spec.repeatable = false →
      (result.getD index []).length ≤ 1)
    (hordered : ∀ i j, i ∈ schema.positionalSpecs → j ∈ schema.positionalSpecs → i < j →
      result.getD j [] ≠ [] → result.getD i [] ≠ [])
    (pre positionals : List ℕ) (hpositionals : schema.positionalSpecs = pre ++ positionals)
    (keep : ℕ → Bool) (hkeep : ∀ index ∈ positionals, keep index = false) :
    ∃ state, parseArguments schema config (renderPositionals result positionals)
        { result := restrict schema result keep
          positionalIndex := pre.length
          forcePositional := true } = .ok state ∧
      state.result =
        restrict schema result fun index => positionals.contains index || keep index := by
  induction positionals generalizing pre keep with
  | nil => exact ⟨_, rfl, rfl⟩
  | cons index positionals ih =>
    have hmem : index ∈ schema.positionalSpecs := by rw [hpositionals]; simp
    obtain ⟨spec, hspec, -⟩ := (hcollected.positionals index).mp hmem
    have hlt : index < schema.specs.length := (List.getElem?_eq_some_iff.mp hspec).1
    have hposition : schema.positionalSpecs[pre.length]? = some index := by
      rw [hpositionals, List.getElem?_append_right (Nat.le_refl _), Nat.sub_self]
      rfl
    have hnotMem : index ∉ positionals ∧ ∀ other ∈ positionals, index < other := by
      have hsorted := hcollected.sorted
      rw [hpositionals, List.pairwise_append] at hsorted
      have hlater := (List.pairwise_cons.mp hsorted.2.1).1
      exact ⟨fun hin => Nat.lt_irrefl _ (hlater index hin), hlater⟩
    have hbefore : (restrict schema result keep)[index]? = some [] := by
      rw [restrict_getElem? hlt, hkeep index (List.mem_cons_self ..)]
      rfl
    have htokens : renderPositionals result (index :: positionals) =
        (result.getD index []).map some ++ renderPositionals result positionals := by
      rw [renderPositionals, List.flatMap_cons]
      rfl
    cases hvalues : result.getD index [] with
    | nil =>
      -- nothing stands behind a positional spec without a value
      have hempty : ∀ other ∈ positionals, result.getD other [] = [] := by
        intro other hother
        by_contra hne
        refine hordered index other hmem ?_ (hnotMem.2 other hother) hne hvalues
        rw [hpositionals]
        simp [hother]
      have hnil : renderPositionals result positionals = [] := by
        rw [renderPositionals, List.flatMap_eq_nil_iff]
        intro other hother
        rw [hempty other hother]
        rfl
      rw [htokens, hvalues, hnil]
      refine ⟨_, rfl, restrict_congr fun other _ => ?_⟩
      by_cases hin : other ∈ index :: positionals
      · right
        obtain rfl | hin := List.mem_cons.mp hin
        · exact hvalues
        · exact hempty other hin
      · left
        have hcontains : (index :: positionals).contains other = false := by simpa using hin
        rw [hcontains, Bool.false_or]
    | cons value values =>
      rw [htokens, hvalues]
      cases hrepeatable : spec.repeatable with
      | true =>
        have hlast : positionals = [] := by
          cases positionals with
          | nil => rfl
          | cons next rest =>
            have hnot := h.repeatableLast pre index next rest spec hpositionals hspec
            exact absurd (hnot.symm.trans hrepeatable) Bool.false_ne_true
        subst hlast
        have hparse := @parse_repeatable schema config
          { result := [], positionalIndex := pre.length, forcePositional := true } index spec
          hspec hrepeatable rfl hposition (value :: values) _ [] hbefore
        have hnil : renderPositionals result [] = [] := rfl
        rw [hnil, List.append_nil]
        refine ⟨_, hparse, ?_⟩
        show (restrict schema result keep).set index ([] ++ value :: values) = _
        rw [List.nil_append, ← hvalues, restrict_set hlt]
        refine restrict_congr fun other _ => .inl ?_
        rw [List.contains_cons, List.contains_nil, Bool.or_false]
      | false =>
        have hnil : values = [] := by
          have hlength := hsingle index spec hspec hrepeatable
          rw [hvalues, List.length_cons] at hlength
          exact List.length_eq_zero_iff.mp (by omega)
        subst hnil
        have hparse := @parse_single schema config
          { result := [], positionalIndex := pre.length, forcePositional := true } index spec
          (renderPositionals result positionals) _ value hspec hrepeatable rfl hposition hbefore
        have hset : (restrict schema result keep).set index [value] =
            restrict schema result fun other => other == index || keep other := by
          rw [← hvalues, restrict_set hlt]
        obtain ⟨after, hrest, hresult⟩ := ih (pre ++ [index])
          (by rw [hpositionals, List.append_assoc]; rfl)
          (fun other => other == index || keep other) (by
            intro other hother
            have hne : other ≠ index := fun heq => hnotMem.1 (heq ▸ hother)
            rw [hkeep other (List.mem_cons_of_mem _ hother), Bool.or_false]
            simpa using hne)
        refine ⟨after, ?_, hresult.trans (restrict_congr fun other _ => .inl ?_)⟩
        · rw [← hrest, List.length_append, List.length_singleton, ← hset]
          exact hparse
        · rw [List.contains_cons, ← Bool.or_assoc, Bool.or_comm (positionals.contains other)]

/-- A normal result is read back from its canonical command line. -/
theorem parse_render (h : schema.Definition) (hcollected : schema.Collected)
    (hlength : result.length = schema.specs.length)
    (hsingle : ∀ index spec, schema.specs[index]? = some spec → spec.repeatable = false →
      (result.getD index []).length ≤ 1)
    (hordered : ∀ i j, i ∈ schema.positionalSpecs → j ∈ schema.positionalSpecs → i < j →
      result.getD j [] ≠ [] → result.getD i [] ≠ []) :
    parseRawArguments schema config (render schema result) = .ok result := by
  have hoptions := @parse_renderOptions schema config (RawState.start schema) result h hsingle rfl
    (some [minus, minus] :: renderPositionals result schema.positionalSpecs)
    schema.specs.length (Nat.le_refl _)
  have hstart : ({ RawState.start schema with
      result := restrict schema result fun _ => false } : RawState) = RawState.start schema := by
    rw [restrict_none]
    rfl
  have hkeep : ∀ index ∈ schema.positionalSpecs,
      (decide (index < schema.specs.length) && !(schema.specAt index).positional) = false := by
    intro index hindex
    obtain ⟨spec, hspec, hpositional⟩ := (hcollected.positionals index).mp hindex
    rw [specAt_eq hspec, hpositional]
    simp
  obtain ⟨state, hpositionals, hresult⟩ := @parse_renderPositionals schema config result h
    hcollected hsingle hordered [] schema.positionalSpecs rfl _ hkeep
  have hall : state.result = result := by
    rw [hresult]
    refine (restrict_congr fun index hlt => .inl ?_).trans (restrict_all hlength)
    have hspec : schema.specs[index]? = some schema.specs[index] := List.getElem?_eq_getElem hlt
    cases hpositional : schema.specs[index].positional with
    | true =>
      have hin := (hcollected.positionals index).mpr ⟨_, hspec, hpositional⟩
      simp [hin]
    | false =>
      rw [specAt_eq hspec, hpositional]
      simp [hlt]
  rw [parseRawArguments, render, renderOptions, ← hstart, hoptions, parseArguments_cons]
  refine (congrArg (fun r : Except ArgParserErrorDetail RawState => r.map (·.result))
    hpositionals).trans ?_
  rw [← hall]
  rfl

end

/-! ## The result -/

/-- **Every result is read back from its canonical command line**, a spec that is not repeatable has
one value at most, and a positional spec has a value only if those before it have one. -/
theorem parse_render_of_parsed {declared schema : ArgSchema} (config : ArgParserConfig)
    (hcollected : declared.Collected) (hvalidated : declared.validateSchemaDefinition = .ok schema)
    (argv : List (Option Bytes)) (result : RawParseResult)
    (hparse : parseRawArguments schema config argv = .ok result) :
    parseRawArguments schema config (render schema result) = .ok result ∧
      (∀ index spec, schema.specs[index]? = some spec → spec.repeatable = false →
        (result.getD index []).length ≤ 1) ∧
      ∀ i j, i ∈ schema.positionalSpecs → j ∈ schema.positionalSpecs → i < j →
        result.getD j [] ≠ [] → result.getD i [] ≠ [] := by
  have hdefinition := ArgSchema.definition_of_validated hvalidated
  have hcollected := hcollected.of_validated hvalidated
  obtain ⟨state, hstate, heq⟩ := bind_eq_ok.mp hparse
  obtain rfl := Except.ok.inj heq
  have hnormal := Normal.start.parseArguments hcollected hstate
  have hordered : ∀ i j, i ∈ schema.positionalSpecs → j ∈ schema.positionalSpecs → i < j →
      state.result.getD j [] ≠ [] → state.result.getD i [] ≠ [] := by
    intro i j hi hj hlt hvalue
    obtain ⟨p, hp⟩ := List.getElem?_of_mem hi
    obtain ⟨q, hq⟩ := List.getElem?_of_mem hj
    have hpq : p < q := by
      by_contra hle
      obtain heq | hlt' := Nat.eq_or_lt_of_le (Nat.not_lt.mp hle)
      · subst heq
        rw [Option.some.inj (hp.symm.trans hq)] at hlt
        exact Nat.lt_irrefl _ hlt
      · obtain ⟨hq', rfl⟩ := List.getElem?_eq_some_iff.mp hq
        obtain ⟨hp', rfl⟩ := List.getElem?_eq_some_iff.mp hp
        have hsorted := List.pairwise_iff_getElem.mp hcollected.sorted q p hq' hp' hlt'
        omega
    have hreached : q ≤ state.positionalIndex := by
      by_contra hgt
      exact hvalue (hnormal.ahead q j hq (Nat.not_le.mp hgt))
    exact hnormal.behind p i hp (Nat.lt_of_lt_of_le hpq hreached)
  exact ⟨parse_render hdefinition hcollected hnormal.length hnormal.single hordered,
    hnormal.single, hordered⟩

/-- A flag, a list of paths and an input. -/
theorem parse_render_of_parsed_tool :
    parseRawArguments
        { specs :=
            [{ longName := text "force", shortName := [0x66], flag := true },
             { longName := text "include", shortName := [0x49], repeatable := true },
             { longName := text "input", positional := true }]
          positionalSpecs := [2], userSpecCount := 3 } {}
        (render
          { specs :=
              [{ longName := text "force", shortName := [0x66], flag := true },
               { longName := text "include", shortName := [0x49], repeatable := true },
               { longName := text "input", positional := true }]
            positionalSpecs := [2], userSpecCount := 3 }
          [[[]], [text "a", text "b"], [text "x.c"]]) =
      .ok [[[]], [text "a", text "b"], [text "x.c"]] :=
  (@parse_render_of_parsed
    (ArgSchema.collectSchema
      [.option (text "force") { shortName := some 0x66 } true false,
       .option (text "include") { shortName := some 0x49 } false true,
       .option (text "input") { positional := true } false false] dot []) _ {}
    (ArgSchema.collectSchema_collected _ _ _) (by decide +kernel)
    [some (text "-Ia"), some (text "x.c"), some (text "--force"), some (text "-I"),
      some (text "b")] _ (by decide +kernel)).1

end NekoProto.ArgParser
