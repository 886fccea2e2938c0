import NekoProto.ArgParser.Definition
import NekoProto.ArgParser.RawParser
import NekoProto.ArgParser.References
import Mathlib.Tactic.Common

/-!
# The spellings of an option with a value

1. One token at a time: what a round of the loop does with a declared `--name`, `--name=value`,
   `-c`, `-c=value` and `-cvalue` (`parseLong_…`, `parseShort_…`).
2. The loop stands behind a prefix of the command line in a state that does not depend on what
   follows (`stateAfter_unique`).
3. From an option position, each spelling records its value for the option and goes on behind it
   (`parseArguments_spelling`), so all of them agree (`spellings_agree`). An attached value with an
   `'='` is none of them: `'='` ends the name first.
-/

namespace NekoProto.ArgParser

open Binary (Bytes)
open Outcome (bind_eq_ok)

/-! ## Cutting at the first `'='` -/

theorem cutEqual_of_notMem {body : Bytes} (h : equalsSign ∉ body) :
    cutEqual body = (body, none) := by
  have hdrop : body.dropWhile (· != equalsSign) = [] := by
    rw [List.dropWhile_eq_nil_iff]
    intro ch hch
    have hne : ch ≠ equalsSign := fun heq => h (heq ▸ hch)
    simpa using hne
  rw [cutEqual, hdrop]

theorem cutEqual_append {name : Bytes} (h : equalsSign ∉ name) (value : Bytes) :
    cutEqual (name ++ equalsSign :: value) = (name, some value) := by
  have hname : ∀ ch ∈ name, (ch != equalsSign) = true := by
    intro ch hch
    have hne : ch ≠ equalsSign := fun heq => h (heq ▸ hch)
    simpa using hne
  have hdrop : (name ++ equalsSign :: value).dropWhile (· != equalsSign) = equalsSign :: value := by
    rw [List.dropWhile_append_of_pos hname]
    simp
  have htake : (name ++ equalsSign :: value).takeWhile (· != equalsSign) = name := by
    rw [List.takeWhile_append_of_pos hname]
    simp
  rw [cutEqual, hdrop, htake]

/-- An option path has name characters and separators only. -/
theorem isValidOptionPath_notMem {path : Bytes} {sep ch : UInt8}
    (h : isValidOptionPath path sep = true) (hsep : sep ≠ ch)
    (hch : isOptionNameCharacter ch = false) : ch ∉ path := by
  simp only [isValidOptionPath, Bool.and_eq_true] at h
  have hgo : ∀ (rest : Bytes) (previous : Bool), isValidOptionPath.go sep rest previous = true →
      ch ∉ rest := by
    intro rest
    induction rest with
    | nil => simp
    | cons first rest ih =>
      intro previous hrest
      rw [isValidOptionPath.go] at hrest
      split at hrest
      · next hfirst =>
          rw [Bool.and_eq_true] at hrest
          have hne : first ≠ ch := fun heq => hsep ((beq_iff_eq.mp hfirst).symm.trans heq)
          exact List.not_mem_cons_of_ne_of_not_mem hne.symm (ih true hrest.2)
      · rw [Bool.and_eq_true] at hrest
        have hne : first ≠ ch := isOptionNameCharacter_ne hrest.1 hch
        exact List.not_mem_cons_of_ne_of_not_mem hne.symm (ih false hrest.2)
  exact hgo path true h.2

namespace ArgSchema.Definition

variable {schema : ArgSchema} {index : ℕ} {spec : ArgSpec}

theorem long_notMem (h : schema.Definition) (hspec : schema.specs[index]? = some spec)
    {name : Bytes} (hname : spec.answersLong name = true) : equalsSign ∉ name ∧ name ≠ [] := by
  have hpath := (h.valid_getElem? hspec).longClaims name (ArgSpec.answersLong_mem hname)
  exact ⟨isValidOptionPath_notMem hpath (separator_ne_equalsSign h.separator) (by decide),
    isValidOptionPath_ne_nil hpath⟩

theorem short_ne (h : schema.Definition) (hspec : schema.specs[index]? = some spec)
    {ch : UInt8} (hname : spec.answersShort [ch] = true) : ch ≠ minus ∧ ch ≠ equalsSign := by
  obtain ⟨first, rest, heq, hfirst⟩ :=
    (h.valid_getElem? hspec).shortClaims [ch] (ArgSpec.answersShort_mem hname)
  obtain ⟨rfl, rfl⟩ := List.cons_eq_cons.mp heq
  simp only [isShortOptionCharacter, Bool.and_eq_true, bne_iff_ne] at hfirst
  exact ⟨hfirst.1.2, hfirst.2⟩

end ArgSchema.Definition

/-! ## One round of the loop -/

section

variable {schema : ArgSchema} {config : ArgParserConfig} {state : RawState} {index : ℕ}
  {spec : ArgSpec}

theorem specAt_eq (hspec : schema.specs[index]? = some spec) : schema.specAt index = spec := by
  rw [ArgSchema.specAt, List.getD_eq_getElem?_getD, hspec, Option.getD_some]

/-- A declared long option, with or without its value. -/
theorem parseArgument_long (hforce : state.forcePositional = false) {body : Bytes}
    (hbody : body ≠ []) (hdeclared : (schema.findLongIndex (cutEqual body).1).isSome = true)
    (next : Option Bytes) :
    parseArgument schema config state (minus :: minus :: body) next = (do
      let (result, took) ← parseLong schema config state.result body next
      return ({ state with result := result }, took)) := by
  have hne : minus :: minus :: body ≠ [minus, minus] := by simpa using hbody
  have hprefix : [minus, minus].isPrefixOf (minus :: minus :: body) = true := by simp
  have hdeclaredToken : isDeclaredOptionToken schema (minus :: minus :: body) = true := by
    rw [isDeclaredOptionToken, if_pos hprefix]
    exact hdeclared
  rw [parseArgument, hforce, hdeclaredToken]
  simp only [Bool.false_eq_true, if_false, hne, Bool.not_true, Bool.and_false, hprefix, if_true]
  rfl

/-- A short option that is declared, or that is more than its name. -/
theorem parseArgument_short (hforce : state.forcePositional = false) {ch : UInt8} {body : Bytes}
    (hch : ch ≠ minus)
    (hdeclared : body = [] → (schema.findShortIndex (cutEqual [ch]).1).isSome = true)
    (next : Option Bytes) :
    parseArgument schema config state (minus :: ch :: body) next = (do
      let (result, took) ← parseShort schema config state.result (ch :: body) next
      return ({ state with result := result }, took)) := by
  have hne : minus :: ch :: body ≠ [minus, minus] := by
    simp [hch]
  have hprefix : [minus, minus].isPrefixOf (minus :: ch :: body) = false := by
    simp [List.isPrefixOf, hch.symm]
  have hoption : isOptionToken (minus :: ch :: body) = true := by
    simp [isOptionToken]
  have hwide : ∀ name rest, text name = minus :: minus :: rest →
      (minus :: ch :: body == text name) = false := by
    intro name rest heq
    simp [heq, hch]
  have hnarrow : ∀ name other, text name = [minus, other] → body ≠ [] →
      (minus :: ch :: body == text name) = false := by
    intro name other heq hbody
    simp [heq, hbody]
  have hhelp : (isHelpToken (minus :: ch :: body) &&
      !isDeclaredOptionToken schema (minus :: ch :: body)) = false := by
    cases body with
    | nil =>
      have hdeclared : isDeclaredOptionToken schema [minus, ch] = true := by
        rw [isDeclaredOptionToken, hprefix, hoption]
        exact hdeclared rfl
      rw [hdeclared, Bool.not_true, Bool.and_false]
    | cons first rest =>
      rw [isHelpToken, hwide "--help" _ rfl, hnarrow "-h" _ rfl (List.cons_ne_nil first rest)]
      rfl
  have hversion : (isVersionToken (minus :: ch :: body) &&
      !isDeclaredOptionToken schema (minus :: ch :: body)) = false := by
    cases body with
    | nil =>
      have hdeclared : isDeclaredOptionToken schema [minus, ch] = true := by
        rw [isDeclaredOptionToken, hprefix, hoption]
        exact hdeclared rfl
      rw [hdeclared, Bool.not_true, Bool.and_false]
    | cons first rest =>
      rw [isVersionToken, hwide "--version" _ rfl,
        hnarrow "-V" _ rfl (List.cons_ne_nil first rest)]
      rfl
  rw [parseArgument, hforce, Bool.and_assoc, Bool.and_assoc, hhelp, hversion]
  simp only [Bool.false_eq_true, if_false, hne, Bool.and_false, hprefix, hoption, if_true]
  rfl

/-! ## Values -/

/-- A value that stands in the token itself. -/
theorem recordRawOption_inline (result : RawParseResult) (next : Option Bytes) (value : Bytes) :
    recordRawOption schema config result index next (some value) = (do
      let result ← recordRawValue schema result index value
      return (result, false)) := by
  unfold recordRawOption
  rw [if_pos (by simp)]
  rfl

/-- A value that stands in the next token. -/
theorem recordRawOption_next (hspec : schema.specs[index]? = some spec)
    (hflag : spec.flag = false) (himplicit : spec.hasImplicit = false) (result : RawParseResult)
    (value : Bytes) :
    recordRawOption schema config result index (some value) none = (do
      let result ← recordRawValue schema result index value
      return (result, true)) := by
  unfold recordRawOption
  rw [specAt_eq hspec, hflag, himplicit]
  rfl

theorem parseLong_inline {name : Bytes} (hname : equalsSign ∉ name)
    (hfind : schema.findLongIndex name = some index) (result : RawParseResult)
    (next : Option Bytes) (value : Bytes) :
    parseLong schema config result (name ++ equalsSign :: value) next = (do
      let result ← recordRawValue schema result index value
      return (result, false)) := by
  rw [parseLong, cutEqual_append hname]
  simp only [hfind]
  exact recordRawOption_inline result next value

theorem parseLong_next {name : Bytes} (hname : equalsSign ∉ name)
    (hfind : schema.findLongIndex name = some index) (hspec : schema.specs[index]? = some spec)
    (hflag : spec.flag = false) (himplicit : spec.hasImplicit = false) (result : RawParseResult)
    (value : Bytes) :
    parseLong schema config result name (some value) = (do
      let result ← recordRawValue schema result index value
      return (result, true)) := by
  rw [parseLong, cutEqual_of_notMem hname]
  simp only [hfind]
  exact recordRawOption_next hspec hflag himplicit result value

theorem parseShort_next {ch : UInt8} (hch : ch ≠ equalsSign)
    (hfind : schema.findShortIndex [ch] = some index) (hspec : schema.specs[index]? = some spec)
    (hflag : spec.flag = false) (himplicit : spec.hasImplicit = false) (result : RawParseResult)
    (value : Bytes) :
    parseShort schema config result [ch] (some value) = (do
      let result ← recordRawValue schema result index value
      return (result, true)) := by
  have hname : equalsSign ∉ [ch] := by simpa using hch.symm
  rw [parseShort, cutEqual_of_notMem hname]
  simp only [findShort, hfind, List.length_singleton, Nat.lt_irrefl, decide_false, Bool.and_false,
    Bool.false_and, Bool.false_eq_true, if_false]
  exact recordRawOption_next hspec hflag himplicit result value

theorem parseShort_inline {ch : UInt8} (hch : ch ≠ equalsSign)
    (hfind : schema.findShortIndex [ch] = some index) (result : RawParseResult)
    (next : Option Bytes) (value : Bytes) :
    parseShort schema config result (ch :: equalsSign :: value) next = (do
      let result ← recordRawValue schema result index value
      return (result, false)) := by
  have hname : equalsSign ∉ [ch] := by simpa using hch.symm
  have hcut : cutEqual (ch :: equalsSign :: value) = ([ch], some value) :=
    cutEqual_append hname value
  rw [parseShort, hcut]
  simp only [findShort, hfind, Option.isNone_some, Bool.and_false, Bool.false_eq_true, if_false]
  exact recordRawOption_inline result next value

/-- No short name has two characters. -/
theorem findShortIndex_wide (hcollected : schema.Collected) {first second : UInt8} {rest : Bytes} :
    schema.findShortIndex (first :: second :: rest) = none := by
  rw [ArgSchema.findShortIndex, List.findIdx?_eq_none_iff]
  intro spec hmem
  have hlength := hcollected.shortName spec hmem
  rw [ArgSpec.answersShort, Bool.and_eq_false_iff]
  right
  rw [Bool.or_eq_false_iff]
  constructor
  · rw [Bool.and_eq_false_iff]
    right
    rw [beq_eq_false_iff_ne]
    intro heq
    simp [heq] at hlength
  · rw [List.any_eq_false]
    intro other _
    rw [Bool.and_eq_true, beq_iff_eq, beq_iff_eq]
    rintro ⟨hone, rfl⟩
    simp at hone

/-- A value that is attached to the short name. -/
theorem parseShort_attached (hcollected : schema.Collected) {ch : UInt8} (hch : ch ≠ equalsSign)
    (hfind : schema.findShortIndex [ch] = some index) (hspec : schema.specs[index]? = some spec)
    (hflag : spec.flag = false) (result : RawParseResult) (next : Option Bytes) {value : Bytes}
    (hne : value ≠ []) (hvalue : equalsSign ∉ value) :
    parseShort schema config result (ch :: value) next = (do
      let result ← recordRawValue schema result index value
      return (result, false)) := by
  have hname : equalsSign ∉ ch :: value := List.not_mem_cons_of_ne_of_not_mem hch.symm hvalue
  have hspecFlag : (schema.specAt index).flag = false := by rw [specAt_eq hspec, hflag]
  rw [parseShort, cutEqual_of_notMem hname]
  simp only [Option.isNone_none, Bool.and_true]
  split
  · rw [parseCluster, hfind]
    simp only [hspecFlag, Bool.false_eq_true, not_false_eq_true, if_true, hne, ne_eq]
  · obtain ⟨second, rest, rfl⟩ := List.exists_cons_of_ne_nil hne
    have hwide : schema.findShortIndex (ch :: second :: rest) = none :=
      findShortIndex_wide hcollected
    simp only [findShort, hwide, hfind, Option.map_some, ne_eq, hne, not_false_eq_true, if_true]
    exact recordRawOption_inline result next (second :: rest)

/-! ## The loop -/

/-- One round, and what is left. -/
theorem parseArguments_cons (arg : Option Bytes) (rest : List (Option Bytes)) (state : RawState) :
    parseArguments schema config (arg :: rest) state = (do
      let (state, took) ← parseArgument schema config state (arg.getD []) rest.head?.join
      parseArguments schema config (if took then rest.tail else rest) state) := by
  cases rest with
  | nil =>
    have hnext : ([] : List (Option Bytes)).head?.join = none := rfl
    rw [parseArguments, hnext]
    cases parseArgument schema config state (arg.getD []) none with
    | error e => rfl
    | ok r =>
      show Except.ok r.1 = parseArguments schema config (if r.2 then [] else []) r.1
      rw [ite_self]
      rfl
  | cons next rest =>
    have hnext : (next :: rest).head?.join = next := rfl
    rw [parseArguments, hnext]
    cases parseArgument schema config state (arg.getD []) next with
    | error e => rfl
    | ok r =>
      show (if r.2 then parseArguments schema config rest r.1
        else parseArguments schema config (next :: rest) r.1) =
          parseArguments schema config (if r.2 then rest else next :: rest) r.1
      cases r.2 <;> rfl

variable (schema config) in
/-- The state in which the loop stands behind these tokens, when `next` is the token that follows
them; none if it stops earlier or takes that token as a value. -/
def stateAfter (next : Option Bytes) : List (Option Bytes) → RawState → Option RawState
  | [], state => some state
  | [arg], state =>
    match parseArgument schema config state (arg.getD []) next with
    | .ok (state, false) => some state
    | _ => none
  | arg :: second :: rest, state =>
    match parseArgument schema config state (arg.getD []) second with
    | .ok (state, false) => stateAfter next (second :: rest) state
    | .ok (state, true) => stateAfter next rest state
    | .error _ => none

/-- The loop goes on from the state behind a prefix. -/
theorem parseArguments_stateAfter {state' : RawState} {pre rest : List (Option Bytes)}
    (h : stateAfter schema config rest.head?.join pre state = some state') :
    parseArguments schema config (pre ++ rest) state =
      parseArguments schema config rest state' := by
  fun_induction stateAfter schema config rest.head?.join pre state with
  | case1 state =>
    cases h
    rfl
  | case2 arg state after hstep =>
    cases h
    rw [List.singleton_append, parseArguments_cons, hstep]
    rfl
  | case3 arg state _ => cases h
  | case4 arg second rest' state after hstep ih =>
    have hnext : (second :: rest' ++ rest).head?.join = second := rfl
    rw [List.cons_append, parseArguments_cons, hnext, hstep]
    exact ih h
  | case5 arg second rest' state after hstep ih =>
    have hnext : (second :: rest' ++ rest).head?.join = second := rfl
    rw [List.cons_append, parseArguments_cons, hnext, hstep]
    exact ih h
  | case6 arg second rest' state _ _ => cases h

/-! ### A token that is not taken -/

/-- A round that does not take the next token does the same at the end of the line. -/
theorem recordRawOption_untaken {result result' : RawParseResult} {next value : Option Bytes}
    (h : recordRawOption schema config result index next value = .ok (result', false)) :
    recordRawOption schema config result index none value = .ok (result', false) := by
  unfold recordRawOption at h ⊢
  split at h
  · next hinline =>
      rw [if_pos hinline]
      exact h
  · next hinline =>
      rw [if_neg hinline]
      split at h
      · split at h
        · obtain ⟨_, -, heq⟩ := bind_eq_ok.mp h
          cases heq
        · exact h
      · exact h

theorem parseLong_untaken {result result' : RawParseResult} {body : Bytes} {next : Option Bytes}
    (h : parseLong schema config result body next = .ok (result', false)) :
    parseLong schema config result body none = .ok (result', false) := by
  unfold parseLong at h ⊢
  cases hfind : schema.findLongIndex (cutEqual body).1 with
  | none =>
    simp only [hfind] at h ⊢
    exact h
  | some index =>
    simp only [hfind] at h ⊢
    exact recordRawOption_untaken h

theorem parseCluster_untaken {result result' : RawParseResult} {body : Bytes} {next : Option Bytes}
    (h : parseCluster schema config next body result = .ok (result', false)) :
    parseCluster schema config none body result = .ok (result', false) := by
  induction body generalizing result with
  | nil => exact h
  | cons ch remainder ih =>
    rw [parseCluster] at h ⊢
    cases hfind : schema.findShortIndex [ch] with
    | none =>
      simp only [hfind] at h ⊢
      split at h
      · next hunknown =>
          rw [if_pos hunknown]
          exact ih h
      · cases h
    | some index =>
      simp only [hfind] at h ⊢
      split at h
      · next hflag =>
          rw [if_pos hflag]
          split at h
          · next hremainder =>
              rw [if_pos hremainder]
              exact h
          · next hremainder =>
              rw [if_neg hremainder]
              exact recordRawOption_untaken h
      · next hflag =>
          rw [if_neg hflag]
          obtain ⟨middle, hrecord, hrest⟩ := bind_eq_ok.mp h
          exact bind_eq_ok.mpr ⟨middle, hrecord, ih hrest⟩

theorem parseShort_untaken {result result' : RawParseResult} {body : Bytes} {next : Option Bytes}
    (h : parseShort schema config result body next = .ok (result', false)) :
    parseShort schema config result body none = .ok (result', false) := by
  unfold parseShort at h ⊢
  simp only at h ⊢
  split at h
  · next hcluster =>
      rw [if_pos hcluster]
      exact parseCluster_untaken h
  · next hcluster =>
      rw [if_neg hcluster]
      split at h
      · exact h
      · exact recordRawOption_untaken h

/-- Both conditionals go the same way. -/
theorem ite_eq_imp {α : Type} {c : Prop} [Decidable c] {a a' b b' x : α} (ha : a = x → a' = x)
    (hb : b = x → b' = x) : (if c then a else b) = x → (if c then a' else b') = x := by
  split
  · exact ha
  · exact hb

theorem parseArgument_untaken {state' : RawState} {arg : Bytes} {next : Option Bytes}
    (h : parseArgument schema config state arg next = .ok (state', false)) :
    parseArgument schema config state arg none = .ok (state', false) := by
  unfold parseArgument at h ⊢
  revert h
  refine ite_eq_imp id (ite_eq_imp id (ite_eq_imp id (ite_eq_imp id
    (ite_eq_imp ?_ (ite_eq_imp ?_ id)))))
  · intro h
    obtain ⟨⟨result, took⟩, hparse, heq⟩ := bind_eq_ok.mp h
    obtain ⟨rfl, rfl⟩ := Prod.mk.inj (Except.ok.inj heq)
    exact bind_eq_ok.mpr ⟨(result, false), parseLong_untaken hparse, rfl⟩
  · intro h
    obtain ⟨⟨result, took⟩, hparse, heq⟩ := bind_eq_ok.mp h
    obtain ⟨rfl, rfl⟩ := Prod.mk.inj (Except.ok.inj heq)
    exact bind_eq_ok.mpr ⟨(result, false), parseShort_untaken hparse, rfl⟩

theorem stateAfter_untaken {state' : RawState} {pre : List (Option Bytes)} {next : Option Bytes}
    (h : stateAfter schema config next pre state = some state') :
    stateAfter schema config none pre state = some state' := by
  fun_induction stateAfter schema config next pre state with
  | case1 state => exact h
  | case2 arg state after hstep =>
    rw [stateAfter, parseArgument_untaken hstep]
    exact h
  | case3 arg state _ => cases h
  | case4 arg second rest after state hstep ih =>
    rw [stateAfter, hstep]
    exact ih h
  | case5 arg second rest after state hstep ih =>
    rw [stateAfter, hstep]
    exact ih h
  | case6 arg second rest after _ _ => cases h

/-- The state behind a prefix does not depend on what follows it. -/
theorem stateAfter_unique {first second : RawState} {pre : List (Option Bytes)}
    {next next' : Option Bytes} (h : stateAfter schema config next pre state = some first)
    (h' : stateAfter schema config next' pre state = some second) : first = second :=
  Option.some.inj ((stateAfter_untaken h).symm.trans (stateAfter_untaken h'))

end

/-! ## The spellings -/

/-- The argument forms of an option with a value. -/
inductive Spelling
  /-- `-s v` -/
  | shortNext
  /-- `-s=v` -/
  | shortEqual
  /-- `-sv` -/
  | shortAttached
  /-- `--long v` -/
  | longNext
  /-- `--long=v` -/
  | longEqual
  deriving DecidableEq, Repr

namespace Spelling

/-- The tokens of a spelling. -/
def argv (short : UInt8) (long value : Bytes) : Spelling → List (Option Bytes)
  | shortNext => [some [minus, short], some value]
  | shortEqual => [some (minus :: short :: equalsSign :: value)]
  | shortAttached => [some (minus :: short :: value)]
  | longNext => [some (minus :: minus :: long), some value]
  | longEqual => [some (minus :: minus :: (long ++ equalsSign :: value))]

/-- The values that a spelling carries: the attached one cannot be empty or have an `'='`. -/
def Carries (value : Bytes) : Spelling → Prop
  | shortAttached => value ≠ [] ∧ equalsSign ∉ value
  | _ => True

end Spelling

section

variable {schema : ArgSchema} {config : ArgParserConfig} {state : RawState} {index : ℕ}
  {spec : ArgSpec} {short : UInt8} {long value : Bytes}

variable (h : schema.Definition) (hcollected : schema.Collected)
  (hspec : schema.specs[index]? = some spec) (hflag : spec.flag = false)
  (himplicit : spec.hasImplicit = false) (hshort : spec.answersShort [short] = true)
  (hlong : spec.answersLong long = true)

include h hcollected hspec hflag himplicit hshort hlong

/-- From an option position each spelling records its value and goes on behind it. -/
theorem parseArguments_spelling (spelling : Spelling) (hcarries : spelling.Carries value)
    (hforce : state.forcePositional = false) (rest : List (Option Bytes)) :
    parseArguments schema config (spelling.argv short long value ++ rest) state = (do
      let result ← recordRawValue schema state.result index value
      parseArguments schema config rest { state with result := result }) := by
  have hfindShort := h.findShortIndex hspec hshort
  have hfindLong := h.findLongIndex hspec hlong
  obtain ⟨hminus, hequal⟩ := h.short_ne hspec hshort
  obtain ⟨hnotMem, hne⟩ := h.long_notMem hspec hlong
  have hdeclaredShort : (schema.findShortIndex (cutEqual [short]).1).isSome = true := by
    rw [cutEqual_of_notMem (by simpa using hequal.symm), hfindShort]
    rfl
  cases spelling with
  | shortNext =>
    show parseArguments schema config (some [minus, short] :: some value :: rest) state = _
    rw [parseArguments_cons]
    show (do
      let (state, took) ← parseArgument schema config state [minus, short] (some value)
      parseArguments schema config (if took then rest else some value :: rest) state) = _
    rw [parseArgument_short hforce hminus (fun _ => hdeclaredShort),
      parseShort_next hequal hfindShort hspec hflag himplicit]
    cases recordRawValue schema state.result index value <;> rfl
  | shortEqual =>
    show parseArguments schema config (some (minus :: short :: equalsSign :: value) :: rest)
      state = _
    rw [parseArguments_cons, Option.getD_some,
      parseArgument_short hforce hminus (fun hnil => absurd hnil (List.cons_ne_nil _ _)),
      parseShort_inline hequal hfindShort]
    cases recordRawValue schema state.result index value <;> rfl
  | shortAttached =>
    show parseArguments schema config (some (minus :: short :: value) :: rest) state = _
    rw [parseArguments_cons, Option.getD_some,
      parseArgument_short hforce hminus (fun hnil => absurd hnil hcarries.1),
      parseShort_attached hcollected hequal hfindShort hspec hflag _ _ hcarries.1 hcarries.2]
    cases recordRawValue schema state.result index value <;> rfl
  | longNext =>
    show parseArguments schema config (some (minus :: minus :: long) :: some value :: rest)
      state = _
    have hdeclared : (schema.findLongIndex (cutEqual long).1).isSome = true := by
      rw [cutEqual_of_notMem hnotMem, hfindLong]
      rfl
    rw [parseArguments_cons]
    show (do
      let (state, took) ← parseArgument schema config state (minus :: minus :: long) (some value)
      parseArguments schema config (if took then rest else some value :: rest) state) = _
    rw [parseArgument_long hforce hne hdeclared,
      parseLong_next hnotMem hfindLong hspec hflag himplicit]
    cases recordRawValue schema state.result index value <;> rfl
  | longEqual =>
    show parseArguments schema config
      (some (minus :: minus :: (long ++ equalsSign :: value)) :: rest) state = _
    have hdeclared : (schema.findLongIndex (cutEqual (long ++ equalsSign :: value)).1).isSome =
        true := by
      rw [cutEqual_append hnotMem, hfindLong]
      rfl
    rw [parseArguments_cons, Option.getD_some, parseArgument_long hforce (by simp) hdeclared,
      parseLong_inline hnotMem hfindLong]
    cases recordRawValue schema state.result index value <;> rfl

omit hflag himplicit hlong in
/-- The `'='` of an attached value ends the name, and no short option has a name of two
characters. -/
theorem parseArguments_attached_equal {before after : Bytes} (hbefore : before ≠ [])
    (hnotMem : equalsSign ∉ before) (hforce : state.forcePositional = false)
    (rest : List (Option Bytes)) :
    parseArguments schema config
        (Spelling.shortAttached.argv short long (before ++ equalsSign :: after) ++ rest) state =
      if config.allowUnknown then parseArguments schema config rest state
      else .error { error := .unknownOption, message := text "-" ++ short :: before } := by
  obtain ⟨hminus, hequal⟩ := h.short_ne hspec hshort
  obtain ⟨second, tail, rfl⟩ := List.exists_cons_of_ne_nil hbefore
  have hname : equalsSign ∉ short :: second :: tail :=
    List.not_mem_cons_of_ne_of_not_mem hequal.symm hnotMem
  have hcut : cutEqual (short :: (second :: tail ++ equalsSign :: after)) =
      (short :: second :: tail, some after) := cutEqual_append hname after
  have hwide : schema.findShortIndex (short :: second :: tail) = none :=
    findShortIndex_wide hcollected
  have hparse : parseShort schema config state.result
      (short :: (second :: tail ++ equalsSign :: after)) rest.head?.join =
      unknownOption config state.result (text "-" ++ short :: second :: tail) := by
    rw [parseShort, hcut]
    simp only [findShort, hwide, Option.isNone_some, Bool.and_false, Bool.false_eq_true, if_false]
  show parseArguments schema config
    (some (minus :: short :: (second :: tail ++ equalsSign :: after)) :: rest) state = _
  rw [parseArguments_cons, Option.getD_some,
    parseArgument_short hforce hminus (fun hnil => absurd hnil (by simp)), hparse, unknownOption]
  cases config.allowUnknown <;> rfl

end

/-- The loop stands in `state` behind `pre`, where options are read, when `rest` follows. -/
def OptionPosition (schema : ArgSchema) (config : ArgParserConfig) (pre rest : List (Option Bytes))
    (state : RawState) : Prop :=
  stateAfter schema config rest.head?.join pre (RawState.start schema) = some state ∧
    state.forcePositional = false

/-- **At an option position all spellings of an option with a value agree**: they record the same
value for the option, and the rest of the line is read from the same state. The attached spelling
needs a value without an `'='`. -/
theorem spellings_agree {declared schema : ArgSchema} (config : ArgParserConfig) {index : ℕ}
    {spec : ArgSpec} {short : UInt8} {long value : Bytes}
    (hcollected : declared.Collected) (hvalidated : declared.validateSchemaDefinition = .ok schema)
    (hspec : schema.specs[index]? = some spec) (hflag : spec.flag = false)
    (himplicit : spec.hasImplicit = false) (hshort : spec.answersShort [short] = true)
    (hlong : spec.answersLong long = true) (pre post : List (Option Bytes))
    (first second : Spelling) (state state' : RawState)
    (hfirst : OptionPosition schema config pre (first.argv short long value ++ post) state)
    (hsecond : OptionPosition schema config pre (second.argv short long value ++ post) state')
    (hcarries : first.Carries value) (hcarries' : second.Carries value) :
    state = state' ∧
      parseRawArguments schema config (pre ++ (first.argv short long value ++ post)) =
        (do
          let result ← recordRawValue schema state.result index value
          let state ← parseArguments schema config post { state with result := result }
          return state.result) ∧
      parseRawArguments schema config (pre ++ (second.argv short long value ++ post)) =
        parseRawArguments schema config (pre ++ (first.argv short long value ++ post)) := by
  have hdefinition := ArgSchema.definition_of_validated hvalidated
  have hcollected := hcollected.of_validated hvalidated
  have hparse : ∀ (spelling : Spelling) (position : RawState), spelling.Carries value →
      OptionPosition schema config pre (spelling.argv short long value ++ post) position →
      parseRawArguments schema config (pre ++ (spelling.argv short long value ++ post)) =
        (do
          let result ← recordRawValue schema position.result index value
          let state ← parseArguments schema config post { position with result := result }
          return state.result) := by
    intro spelling position hcarries hposition
    rw [parseRawArguments, parseArguments_stateAfter hposition.1,
      parseArguments_spelling hdefinition hcollected hspec hflag himplicit hshort hlong spelling
        hcarries hposition.2]
    cases recordRawValue schema position.result index value <;> rfl
  have hstate := stateAfter_unique hfirst.1 hsecond.1
  refine ⟨hstate, hparse first state hcarries hfirst, ?_⟩
  rw [hparse second state' hcarries' hsecond, hparse first state hcarries hfirst, hstate]

/-- A short option with an output path. -/
theorem spellings_agree_output :
    parseRawArguments
        { specs := [{ longName := text "output", shortName := [0x6F] }], userSpecCount := 1 } {}
        [some (text "--output=a.txt")] =
      parseRawArguments
        { specs := [{ longName := text "output", shortName := [0x6F] }], userSpecCount := 1 } {}
        [some (text "-oa.txt")] :=
  (@spellings_agree
    (ArgSchema.collectSchema [.option (text "output") { shortName := some 0x6F } false false] dot
      []) _ {} 0 { longName := text "output", shortName := [0x6F] } 0x6F (text "output")
    (text "a.txt") (ArgSchema.collectSchema_collected _ _ _) (by decide +kernel) rfl rfl rfl
    (by decide +kernel) (by decide +kernel) [] [] .shortAttached .longEqual _ _
    ⟨rfl, rfl⟩ ⟨rfl, rfl⟩ ⟨by decide +kernel, by decide +kernel⟩ trivial).2.2

/-- `-Dk=v` is an unknown option, while `-D=k=v` and `--define=k=v` give the value `k=v`. -/
theorem attached_value_with_equal :
    parseRawArguments
        { specs := [{ longName := text "define", shortName := [0x44] }], userSpecCount := 1 } {}
        [some (text "-Dk=v")] =
      .error { error := .unknownOption, message := text "-Dk" } ∧
    parseRawArguments
        { specs := [{ longName := text "define", shortName := [0x44] }], userSpecCount := 1 } {}
        [some (text "-D=k=v")] = .ok [[text "k=v"]] ∧
    parseRawArguments
        { specs := [{ longName := text "define", shortName := [0x44] }], userSpecCount := 1 } {}
        [some (text "--define=k=v")] = .ok [[text "k=v"]] := by
  decide +kernel

end NekoProto.ArgParser
