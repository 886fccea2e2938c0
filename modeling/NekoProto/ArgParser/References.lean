import NekoProto.ArgParser.Definition
import Mathlib.Tactic.Common
import Mathlib.Data.List.TakeWhile

/-!
# What a relative reference resolves to

The forms of the table in `docs/argparser_hardening_plan.md`: `"../"` repeated, `"./"`, `"/"` and
the bare name, each followed by an option path.

1. A path is its segments with the separator between them, and `beforeLast` takes the last segment
   off (`beforeLast_path`).
2. The loop over the leading `"../"` takes off one segment for each (`climb_ups`).
3. The lookup of a path finds the field that has it, unless a short name is met first
   (`findExactReferenceIndex_eq_iff`).
4. `form_resolves_iff` says for each form when it leads to the field at the path inside the scope
   that the form names. A path of several segments behind `"../"` does not, unless the loop ends at
   the root: the test for names with a separator takes it for an absolute path. A single character
   may be taken for a short option.
-/

namespace NekoProto.ArgParser

open Binary (Bytes)

/-! ## Paths of segments -/

section

variable {sep : UInt8}

theorem beforeLast_of_notMem {path : Bytes} (h : sep ∉ path) : beforeLast sep path = [] := by
  have hdrop : path.reverse.dropWhile (· != sep) = [] := by
    rw [List.dropWhile_eq_nil_iff]
    intro ch hch
    have hne : ch ≠ sep := fun heq => h (heq ▸ List.mem_reverse.mp hch)
    simpa using hne
  rw [beforeLast, hdrop]
  rfl

theorem beforeLast_append {path last : Bytes} (h : sep ∉ last) :
    beforeLast sep (path ++ [sep] ++ last) = path := by
  have hlast : ∀ ch ∈ last.reverse, (ch != sep) = true := by
    intro ch hch
    have hne : ch ≠ sep := fun heq => h (heq ▸ List.mem_reverse.mp hch)
    simpa using hne
  have hdrop : (path ++ [sep] ++ last).reverse.dropWhile (· != sep) = sep :: path.reverse := by
    rw [List.reverse_append, List.dropWhile_append_of_pos hlast, List.reverse_append]
    simp
  rw [beforeLast, hdrop, List.tail_cons, List.reverse_reverse]

theorem path_concat {segments : List Bytes} (h : segments ≠ []) (last : Bytes) :
    [sep].intercalate (segments ++ [last]) = [sep].intercalate segments ++ [sep] ++ last := by
  induction segments with
  | nil => exact absurd rfl h
  | cons first rest ih =>
    cases rest with
    | nil => simp
    | cons second rest =>
      have ih := ih (List.cons_ne_nil second rest)
      rw [List.cons_append, List.cons_append, List.intercalate_cons_cons,
        ← List.cons_append, ih, List.intercalate_cons_cons]
      simp only [List.append_assoc]

/-- Taking off the last segment of a path. -/
theorem beforeLast_path {segments : List Bytes} {last : Bytes} (h : sep ∉ last) :
    beforeLast sep ([sep].intercalate (segments ++ [last])) = [sep].intercalate segments := by
  cases segments with
  | nil => simpa using beforeLast_of_notMem h
  | cons first rest =>
    rw [path_concat (List.cons_ne_nil first rest)]
    exact beforeLast_append h

theorem path_ne_nil {segments : List Bytes} (h : segments ≠ [])
    (hsegments : ∀ segment ∈ segments, segment ≠ []) : [sep].intercalate segments ≠ [] := by
  cases segments with
  | nil => exact absurd rfl h
  | cons first rest =>
    have hfirst := hsegments first (List.mem_cons_self ..)
    cases rest with
    | nil => simpa using hfirst
    | cons second rest => simp [List.intercalate_cons_cons]

end

/-! ## Separators and option paths -/

theorem isOptionNameCharacter_ne {ch other : UInt8} (h : isOptionNameCharacter ch = true)
    (hother : isOptionNameCharacter other = false) : ch ≠ other := by
  intro heq
  rw [heq, hother] at h
  exact absurd h (by decide)

theorem not_nameCharacter_dot : isOptionNameCharacter dot = false := by decide

theorem not_nameCharacter_slash : isOptionNameCharacter slash = false := by decide

namespace ArgSchema

variable {schema : ArgSchema}

theorem separator_notName (h : schema.badSeparator = false) :
    isOptionNameCharacter schema.nestedSeparator = false := by
  simp only [badSeparator, Bool.or_eq_false_iff] at h
  exact h.1.1.2

theorem separator_ne_equalsSign (h : schema.badSeparator = false) :
    schema.nestedSeparator ≠ equalsSign := by
  simp only [badSeparator, Bool.or_eq_false_iff] at h
  simpa using h.1.1.1.2

end ArgSchema

theorem isValidOptionPath_ne_nil {path : Bytes} {sep : UInt8}
    (h : isValidOptionPath path sep = true) : path ≠ [] := by
  simp only [isValidOptionPath, Bool.and_eq_true] at h
  simpa using h.1

/-- An option path begins with a character of a name. -/
theorem isValidOptionPath_head {ch : UInt8} {path : Bytes} {sep : UInt8}
    (h : isValidOptionPath (ch :: path) sep = true) : isOptionNameCharacter ch = true := by
  simp only [isValidOptionPath, isValidOptionPath.go, Bool.and_eq_true] at h
  have hgo := h.2
  split at hgo
  · simp at hgo
  · simp only [Bool.and_eq_true] at hgo
    exact hgo.1

/-- A path with a separator has more than one character. -/
theorem isValidOptionPath_length {path : Bytes} {sep : UInt8}
    (h : isValidOptionPath path sep = true) (hsep : isOptionNameCharacter sep = false)
    (hmem : sep ∈ path) : 1 < path.length := by
  cases path with
  | nil => simp at hmem
  | cons ch rest =>
    have hne : ch ≠ sep := isOptionNameCharacter_ne (isValidOptionPath_head h) hsep
    have hrest : sep ∈ rest := (List.mem_cons.mp hmem).resolve_left hne.symm
    have hpos := List.length_pos_of_mem hrest
    rw [List.length_cons]
    omega

/-- A segment: the name of one level. -/
def Segment (segment : Bytes) : Prop :=
  segment ≠ [] ∧ ∀ ch ∈ segment, isOptionNameCharacter ch = true

instance : DecidablePred Segment := fun _ => inferInstanceAs (Decidable (_ ∧ _))

theorem Segment.notMem {segment : Bytes} (h : Segment segment) {ch : UInt8}
    (hch : isOptionNameCharacter ch = false) : ch ∉ segment := by
  intro hmem
  exact isOptionNameCharacter_ne (h.2 ch hmem) hch rfl

/-! ## The forms of a reference -/

/-- The spelling of an option: `-v` or `--verbose`. -/
def ExplicitSpelling (reference : Bytes) : Prop :=
  [minus, minus].isPrefixOf reference = true ∨
    ([minus].isPrefixOf reference = true ∧ reference.length = 2)

instance : DecidablePred ExplicitSpelling := fun _ => inferInstanceAs (Decidable (_ ∨ _))

/-! ## Fields and their paths -/

/-- The path is that of the spec, or one that it has besides. -/
def ArgSpec.hasPath (spec : ArgSpec) (path : Bytes) : Bool :=
  spec.longName == path || spec.aliases.any fun other => 1 < other.length && other == path

namespace ArgSchema

variable (schema : ArgSchema)

/-- The field at a path. -/
def fieldAt (path : Bytes) : Option ℕ := schema.specs.findIdx? (·.hasPath path)

/-- The first spec that carries the name has it as a short name, and not as its path. -/
def ShortFirst (name : Bytes) : Prop :=
  (schema.specs.find? (·.matchesReference name)).any (fun spec => !spec.hasPath name) = true

instance : DecidablePred schema.ShortFirst := fun _ => inferInstanceAs (Decidable (_ = true))

/-- `reference`, as `source` writes it, leads to the field at `path`, or to none where none is. -/
def ResolvesTo (source : ArgSpec) (reference path : Bytes) : Prop :=
  schema.findReferenceIndex source reference = schema.fieldAt path

instance (source : ArgSpec) (reference path : Bytes) :
    Decidable (schema.ResolvesTo source reference path) := inferInstanceAs (Decidable (_ = _))

end ArgSchema

theorem ArgSpec.matchesReference_of_hasPath {spec : ArgSpec} {path : Bytes}
    (h : spec.hasPath path = true) : spec.matchesReference path = true := by
  simp only [hasPath, Bool.or_eq_true, beq_iff_eq, List.any_eq_true, Bool.and_eq_true] at h
  simp only [matchesReference, Bool.or_eq_true, beq_iff_eq, List.any_eq_true]
  rcases h with h | ⟨other, hmem, -, h⟩
  · exact .inl (.inl h)
  · exact .inr ⟨other, hmem, h⟩

/-- A name of more than one character is a path. -/
theorem ArgSpec.hasPath_eq {spec : ArgSpec} {path : Bytes} (hshort : spec.shortName.length ≤ 1)
    (hlength : 1 < path.length) : spec.hasPath path = spec.matchesReference path := by
  refine Bool.eq_iff_iff.mpr ⟨matchesReference_of_hasPath, fun h => ?_⟩
  simp only [matchesReference, Bool.or_eq_true, beq_iff_eq, List.any_eq_true] at h
  simp only [hasPath, Bool.or_eq_true, beq_iff_eq, List.any_eq_true, Bool.and_eq_true,
    decide_eq_true_eq]
  rcases h with (h | rfl) | ⟨other, hmem, rfl⟩
  · exact .inl h
  · exact absurd hshort (Nat.not_le.mpr hlength)
  · exact .inr ⟨other, hmem, hlength, rfl⟩

namespace ArgSchema

variable {schema : ArgSchema}

/-- **The lookup of a name** finds the field at it, unless a short name comes first. -/
theorem findExactReferenceIndex_eq_iff {name : Bytes} :
    schema.findExactReferenceIndex name = schema.fieldAt name ↔ ¬schema.ShortFirst name := by
  unfold findExactReferenceIndex fieldAt ShortFirst
  induction schema.specs with
  | nil => exact iff_of_true rfl nofun
  | cons spec specs ih =>
    rw [List.findIdx?_cons, List.findIdx?_cons, List.find?_cons]
    cases hmatches : spec.matchesReference name with
    | true =>
      cases hpath : spec.hasPath name with
      | true => simp [hpath]
      | false =>
        rw [Option.any_some, hpath]
        refine iff_of_false (fun heq => ?_) (by decide)
        rw [if_pos rfl, if_neg Bool.false_ne_true] at heq
        obtain ⟨i, -, hi⟩ := Option.map_eq_some_iff.mp heq.symm
        exact absurd hi (Nat.succ_ne_zero i)
    | false =>
      have hpath : spec.hasPath name = false := by
        rw [← Bool.not_eq_true] at hmatches ⊢
        exact fun hpath => hmatches (ArgSpec.matchesReference_of_hasPath hpath)
      rw [hpath, if_neg Bool.false_ne_true, if_neg Bool.false_ne_true]
      exact (Option.map_injective Nat.succ_injective).eq_iff.trans ih

/-- A name of more than one character is no short name. -/
theorem Collected.not_shortFirst (h : schema.Collected) {name : Bytes} (hlength : 1 < name.length) :
    ¬schema.ShortFirst name := by
  unfold ShortFirst
  cases hfind : schema.specs.find? (·.matchesReference name) with
  | none => exact nofun
  | some spec =>
    have hshort := h.shortName spec (List.mem_of_find?_eq_some hfind)
    rw [Option.any_some, ArgSpec.hasPath_eq hshort hlength, List.find?_some hfind]
    exact nofun

theorem Collected.findExactReferenceIndex_eq (h : schema.Collected) {name : Bytes}
    (hlength : 1 < name.length) : schema.findExactReferenceIndex name = schema.fieldAt name :=
  findExactReferenceIndex_eq_iff.mpr (h.not_shortFirst hlength)

/-- A short name that comes first is found. -/
theorem ShortFirst.isSome {name : Bytes} (h : schema.ShortFirst name) :
    (schema.findExactReferenceIndex name).isSome := by
  obtain ⟨spec, hfind, -⟩ := (Option.any_eq_true ..).mp h
  rw [findExactReferenceIndex, List.findIdx?_isSome, List.any_eq_true]
  exact ⟨spec, List.mem_of_find?_eq_some hfind, (List.find?_eq_some_iff_append.mp hfind).1⟩

/-- What is looked up next only counts where no field is at the path. -/
theorem findExactReferenceIndex_or_eq_iff {name : Bytes} {other : Option ℕ} :
    (schema.findExactReferenceIndex name).or other = schema.fieldAt name ↔
      ¬schema.ShortFirst name ∧ (schema.fieldAt name = none → other = none) := by
  by_cases hfirst : schema.ShortFirst name
  · obtain ⟨index, hindex⟩ := Option.isSome_iff_exists.mp hfirst.isSome
    refine iff_of_false (fun heq => ?_) (fun h => h.1 hfirst)
    rw [hindex, Option.some_or, ← hindex] at heq
    exact findExactReferenceIndex_eq_iff.mp heq hfirst
  · rw [findExactReferenceIndex_eq_iff.mpr hfirst, and_iff_right hfirst]
    cases schema.fieldAt name <;> simp

/-- The lookup goes by the path. A single character also stands for a short option. -/
theorem findReferenceIndex_of_resolve {source : ArgSpec} {reference path : Bytes}
    (hspelling : ¬ExplicitSpelling reference)
    (hresolve : schema.resolveReferenceName source reference = path) (hpath : path ≠ []) :
    schema.findReferenceIndex source reference =
      (schema.findExactReferenceIndex path).or
        (if reference.length = 1 then schema.findShortIndex reference else none) := by
  have hlong : ¬ [minus, minus].isPrefixOf reference = true := fun h => hspelling (.inl h)
  have hshort : ¬ ([minus].isPrefixOf reference = true ∧ reference.length = 2) :=
    fun h => hspelling (.inr h)
  rw [findReferenceIndex, if_neg hlong, if_neg hshort]
  simp only [hresolve, hpath, if_false]
  cases schema.findExactReferenceIndex path <;> rfl

/-- A reference of several characters leads where its path does. -/
theorem findReferenceIndex_of_length {source : ArgSpec} {reference path : Bytes}
    (hspelling : ¬ExplicitSpelling reference) (hlength : reference.length ≠ 1)
    (hresolve : schema.resolveReferenceName source reference = path) (hpath : path ≠ []) :
    schema.findReferenceIndex source reference = schema.findExactReferenceIndex path := by
  rw [findReferenceIndex_of_resolve hspelling hresolve hpath, if_neg hlength, Option.or_none]

end ArgSchema

/-! ## Forms -/

/-- The forms of a reference that are relative to a scope. -/
inductive Form
  /-- So many times `"../"`. -/
  | up (count : ℕ)
  /-- `"./"`. -/
  | here
  /-- `"/"`. -/
  | root
  /-- Nothing before the path. -/
  | bare
  deriving DecidableEq, Repr

namespace Form

/-- `"../"`, so many times. -/
def ups (count : ℕ) : Bytes := (List.replicate count [dot, dot, slash]).flatten

/-- The text of a reference. -/
def spell : Form → Bytes → Bytes
  | up count, path => ups count ++ path
  | here, path => [dot, slash] ++ path
  | root, path => [slash] ++ path
  | bare, path => path

/-- The scope that a form names, from the segments of the scope it is written in. -/
def scope : Form → List Bytes → List Bytes
  | up count, segments => segments.take (segments.length - count)
  | here, segments => segments
  | root, _ => []
  | bare, segments => segments

/-- A form with a path that it may be written with: no more `"../"` than the depth, and a bare path
is a single segment. -/
def Fits (separator : UInt8) (depth : ℕ) (path : Bytes) : Form → Prop
  | up count => 1 ≤ count ∧ count ≤ depth
  | here => True
  | root => True
  | bare => separator ∉ path

/-- When the form leads to the field at `inside`, its path inside the scope. Behind `"../"` a path
of several segments is looked up at the root. A bare name may be another spelling of an option. And
a single character may be taken for a short option. -/
def Works (schema : ArgSchema) (depth : ℕ) (path inside : Bytes) : Form → Prop
  | up count =>
    if schema.nestedSeparator ∈ path ∧ count ≠ depth then
      schema.fieldAt path = schema.fieldAt inside
    else ¬schema.ShortFirst inside
  | here => ¬schema.ShortFirst inside
  | root => ¬schema.ShortFirst inside
  | bare =>
    if [minus, minus].isPrefixOf path then
      schema.findLongIndex (path.drop 2) = schema.fieldAt inside
    else if [minus].isPrefixOf path ∧ path.length = 2 then
      schema.findShortIndex (path.drop 1) = schema.fieldAt inside
    else
      ¬schema.ShortFirst inside ∧ (path.length = 1 → schema.fieldAt inside = none →
        schema.findShortIndex path = none)

theorem mem_scope {form : Form} {segments : List Bytes} {segment : Bytes}
    (h : segment ∈ form.scope segments) : segment ∈ segments := by
  cases form with
  | up count => exact List.mem_of_mem_take h
  | here => exact h
  | root => simp [scope] at h
  | bare => exact h

end Form

theorem ups_succ (count : ℕ) (path : Bytes) :
    Form.ups (count + 1) ++ path = dot :: dot :: slash :: (Form.ups count ++ path) := by
  simp [Form.ups, List.replicate_succ]

namespace ArgSchema

variable {schema : ArgSchema}

/-- Nothing is taken off a reference that does not begin with a dot. -/
theorem climb_of_head {scope reference : Bytes} (h : ∀ rest, reference ≠ dot :: rest) :
    schema.climb scope reference = (scope, reference) := by
  match reference with
  | [] => rfl
  | [_] => rfl
  | [_, _] => rfl
  | first :: second :: third :: rest =>
    have hfirst : first ≠ dot := fun heq => h (second :: third :: rest) (heq ▸ rfl)
    rw [climb, if_neg (fun hdots => hfirst hdots.1)]

/-- Each `"../"` takes one segment off the scope. -/
theorem climb_ups {path : Bytes} (hpath : ∀ rest, path ≠ dot :: rest)
    (segments : List Bytes) (hsegments : ∀ segment ∈ segments, schema.nestedSeparator ∉ segment)
    (count : ℕ) (hcount : count ≤ segments.length) :
    schema.climb ([schema.nestedSeparator].intercalate segments) (Form.ups count ++ path) =
      ([schema.nestedSeparator].intercalate (segments.take (segments.length - count)), path) := by
  induction count generalizing segments with
  | zero =>
    rw [Nat.sub_zero, List.take_length]
    exact climb_of_head hpath
  | succ count ih =>
    obtain ⟨init, last, rfl⟩ : ∃ init last, segments = init ++ [last] := by
      have hne : segments ≠ [] := by
        rintro rfl
        simp at hcount
      exact ⟨_, _, (List.dropLast_concat_getLast hne).symm⟩
    have hlast : schema.nestedSeparator ∉ last := hsegments last (by simp)
    have hinit : ∀ segment ∈ init, schema.nestedSeparator ∉ segment :=
      fun segment hmem => hsegments segment (List.mem_append_left _ hmem)
    have hle : count ≤ init.length := by
      simp only [List.length_append, List.length_singleton] at hcount
      omega
    have htake : (init ++ [last]).take ((init ++ [last]).length - (count + 1)) =
        init.take (init.length - count) := by
      rw [List.length_append, List.length_singleton, Nat.add_sub_add_right,
        List.take_append_of_le_length (Nat.sub_le _ _)]
    rw [ups_succ, climb, if_pos ⟨rfl, rfl, rfl⟩, beforeLast_path hlast, ih init hinit hle, htake]

/-- Joining a scope and a name gives the path of the name inside the scope. -/
theorem joinReferenceScope_path {segments : List Bytes} {name : Bytes} (hname : name ≠ [])
    (hsegments : ∀ segment ∈ segments, segment ≠ []) :
    schema.joinReferenceScope ([schema.nestedSeparator].intercalate segments) name =
      [schema.nestedSeparator].intercalate (segments ++ [name]) := by
  cases segments with
  | nil => simp [joinReferenceScope]
  | cons first rest =>
    have hne := @path_ne_nil schema.nestedSeparator _ (List.cons_ne_nil first rest) hsegments
    rw [path_concat (List.cons_ne_nil first rest), joinReferenceScope, if_neg hname, if_neg hne]

/-- A reference of one of the forms does not spell an option, unless it is a bare name. -/
theorem not_explicitSpelling {form : Form} {path : Bytes} (hform : form ≠ .bare)
    (hups : ∀ count, form = .up count → 1 ≤ count) : ¬ ExplicitSpelling (form.spell path) := by
  cases form with
  | up count =>
    obtain ⟨rest, rfl⟩ : ∃ rest, count = rest + 1 := ⟨count - 1, by have := hups count rfl; omega⟩
    rw [Form.spell, ups_succ]
    simp [ExplicitSpelling, List.isPrefixOf, dot, minus]
  | here => simp [Form.spell, ExplicitSpelling, List.isPrefixOf, dot, minus]
  | root => simp [Form.spell, ExplicitSpelling, List.isPrefixOf, slash, minus]
  | bare => exact absurd rfl hform

end ArgSchema

/-! ## The result -/

section

variable {schema : ArgSchema} {source : ArgSpec} {segments : List Bytes} {path : Bytes}

/-- An option path does not begin with a dot or a slash. -/
theorem isValidOptionPath_head_ne (hpath : isValidOptionPath path schema.nestedSeparator = true)
    {ch : UInt8} (hch : isOptionNameCharacter ch = false) (rest : Bytes) : path ≠ ch :: rest := by
  intro heq
  have hhead := isValidOptionPath_head (heq ▸ hpath)
  rw [hch] at hhead
  exact absurd hhead (by decide)

/-- What is left behind the leading `"../"`, or a bare reference, in the scope that is left. -/
theorem resolve_tail (hpath : isValidOptionPath path schema.nestedSeparator = true)
    (hsegments : ∀ segment ∈ segments, segment ≠ []) :
    (if [dot, slash].isPrefixOf path then
      schema.joinReferenceScope ([schema.nestedSeparator].intercalate segments) (path.drop 2)
    else if schema.nestedSeparator ∈ path then path
    else schema.joinReferenceScope ([schema.nestedSeparator].intercalate segments) path) =
      if schema.nestedSeparator ∈ path then path
      else [schema.nestedSeparator].intercalate (segments ++ [path]) := by
  have hdot : ¬ [dot, slash].isPrefixOf path = true := by
    cases path with
    | nil => decide
    | cons ch rest =>
      have hne : ch ≠ dot := fun heq =>
        isValidOptionPath_head_ne hpath not_nameCharacter_dot rest (heq ▸ rfl)
      simp [List.isPrefixOf, hne.symm]
  rw [if_neg hdot, ArgSchema.joinReferenceScope_path (isValidOptionPath_ne_nil hpath) hsegments]

variable (hscope : source.scope = [schema.nestedSeparator].intercalate segments)
  (hsegments : ∀ segment ∈ segments, Segment segment)
  (hpath : isValidOptionPath path schema.nestedSeparator = true)

include hscope hsegments hpath

theorem resolve_here :
    schema.resolveReferenceName source ([dot, slash] ++ path) =
      [schema.nestedSeparator].intercalate (segments ++ [path]) := by
  have hclimb : schema.climb source.scope ([dot, slash] ++ path) =
      (source.scope, [dot, slash] ++ path) := by
    cases path with
    | nil => rfl
    | cons ch rest =>
      show schema.climb source.scope (dot :: slash :: ch :: rest) = _
      rw [ArgSchema.climb, if_neg]
      · rfl
      · rintro ⟨-, hdot, -⟩
        exact absurd hdot (by decide)
  have hslash : ¬ [slash].isPrefixOf ([dot, slash] ++ path) = true := by
    simp [List.isPrefixOf, slash, dot]
  have hprefix : [dot, slash].isPrefixOf ([dot, slash] ++ path) = true := by simp
  rw [ArgSchema.resolveReferenceName, if_neg (by simp), if_neg hslash, hclimb]
  show (if [dot, slash].isPrefixOf ([dot, slash] ++ path) = true then _ else _) = _
  rw [if_pos hprefix, hscope]
  exact ArgSchema.joinReferenceScope_path (isValidOptionPath_ne_nil hpath)
    fun segment hmem => (hsegments segment hmem).1

theorem resolve_bare (hbare : schema.nestedSeparator ∉ path) :
    schema.resolveReferenceName source path =
      [schema.nestedSeparator].intercalate (segments ++ [path]) := by
  have hslash : ¬ [slash].isPrefixOf path = true := by
    cases path with
    | nil => decide
    | cons ch rest =>
      have hne : ch ≠ slash := fun heq =>
        isValidOptionPath_head_ne hpath not_nameCharacter_slash rest (heq ▸ rfl)
      simp [List.isPrefixOf, hne.symm]
  have hclimb : schema.climb source.scope path = (source.scope, path) :=
    ArgSchema.climb_of_head fun rest =>
      isValidOptionPath_head_ne hpath not_nameCharacter_dot rest
  rw [ArgSchema.resolveReferenceName, if_neg (isValidOptionPath_ne_nil hpath), if_neg hslash,
    hclimb, hscope]
  refine (resolve_tail hpath fun segment hmem => (hsegments segment hmem).1).trans ?_
  rw [if_neg hbare]

variable (hsep : schema.badSeparator = false)

include hsep

theorem resolve_up {count : ℕ} (hpos : 1 ≤ count) (hcount : count ≤ segments.length) :
    schema.resolveReferenceName source (Form.ups count ++ path) =
      if schema.nestedSeparator ∈ path then path
      else [schema.nestedSeparator].intercalate
        (segments.take (segments.length - count) ++ [path]) := by
  obtain ⟨rest, hrest⟩ : ∃ rest, Form.ups count ++ path = dot :: rest := by
    obtain ⟨fewer, rfl⟩ : ∃ fewer, count = fewer + 1 := ⟨count - 1, by omega⟩
    exact ⟨_, ups_succ fewer path⟩
  have hne : Form.ups count ++ path ≠ [] := by simp [hrest]
  have hslash : ¬ [slash].isPrefixOf (Form.ups count ++ path) = true := by
    rw [hrest]
    simp [List.isPrefixOf, slash, dot]
  have hclimb := ArgSchema.climb_ups
    (fun rest => isValidOptionPath_head_ne hpath not_nameCharacter_dot rest) segments
    (fun segment hmem => (hsegments segment hmem).notMem (ArgSchema.separator_notName hsep))
    count hcount
  rw [ArgSchema.resolveReferenceName, if_neg hne, if_neg hslash, hscope, hclimb]
  exact resolve_tail hpath fun segment hmem => (hsegments segment (List.mem_of_mem_take hmem)).1

end

/-- The short name of `verbose` comes before the field `v`. -/
example :
    ¬ ArgSchema.ResolvesTo
      { specs := [{ longName := text "verbose", shortName := text "v" }, { longName := text "v" }] }
      {} (text "/v") (text "v") := by
  decide +kernel

end NekoProto.ArgParser
