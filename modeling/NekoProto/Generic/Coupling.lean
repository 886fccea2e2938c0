import NekoProto.Lib.Lockstep
import NekoProto.Generic.Read

/-!
# Two runs of a reader

A relation between the states and the handles of a reader, under which its operations go the same
way (`Coupling`). Then all reads go the same way (`Coupling.parserRead`): from related states and
handles they give the same value, or fail with the same error and leave the same in the target, and
none has a fault.

1. A rule for each loop and each part of a reflected class, from the rules of two computations in
   step.
2. The induction over the types.
-/

namespace NekoProto.Generic

open Binary Parsing InPlace TwoRuns

/-! ## Couplings -/

/-- Lookups that find related values, or nothing. -/
inductive Found {α β : Type} (V : α → β → Prop) : Except Error α → Except Error β → Prop
  | missing (e : Error) : Found V (.error e) (.error e)
  | found {v : α} {w : β} (related : V v w) : Found V (.ok v) (.ok w)

/-- A relation between two runs of a reader. The states have a clock that does not go back, and
handles that are related stay so. -/
structure Coupling (R : Backend) where
  clock : R.State → ℕ
  states : R.State → R.State → Prop
  values : ℕ → R.InputValue → R.InputValue → Prop
  arrays : ℕ → R.InputArray → R.InputArray → Prop
  objects : ℕ → R.InputObject → R.InputObject → Prop
  values_mono {n m v w} : n ≤ m → values n v w → values m v w
  arrays_mono {n m a b} : n ≤ m → arrays n a b → arrays m a b
  objects_mono {n m o o'} : n ≤ m → objects n o o' → objects m o o'
  toArray {n v w} (tags : Tags) : values n v w →
    Lockstep states clock IsError arrays n (R.toArray tags v) (R.toArray tags w)
  toObject {n v w} (tags : Tags) : values n v w →
    Lockstep states clock IsError objects n (R.toObject tags v) (R.toObject tags w)
  toBasicType {n v w} (T : Arithmetic) (tags : Tags) : values n v w →
    Lockstep states clock IsError (fun _ => Eq) n (R.toBasicType T tags v) (R.toBasicType T tags w)
  toBasicString {n v w} (tags : Tags) : values n v w →
    Lockstep states clock IsError (fun _ => Eq) n (R.toBasicString tags v)
      (R.toBasicString tags w)
  isEmpty {n v w} (tags : Tags) : values n v w →
    Lockstep states clock IsError (fun _ => Eq) n (R.isEmpty tags v) (R.isEmpty tags w)
  arraySize {n a b} : arrays n a b →
    Lockstep states clock IsError (fun _ => Eq) n (R.arraySize a) (R.arraySize b)
  arrayElement {n a b} (index : ℕ) : arrays n a b →
    Lockstep states clock IsError values n (R.arrayElement a index) (R.arrayElement b index)
  objectField {n o o'} (tags : Tags) (name : Bytes) : objects n o o' →
    Lockstep states clock IsError (fun m => Found (values m)) n (R.objectField tags o name)
      (R.objectField tags o' name)
  forEachObjectMember {n o o'} {β : Type}
    {fn fn' : Bytes → R.InputValue → β → EStateM Stop R.State (Bool × β)} (tags : Tags) (acc : β) :
    objects n o o' →
    (∀ m name v w acc, n ≤ m → values m v w →
      Lockstep states clock IsError (fun _ => Eq) m (fn name v acc) (fn' name w acc)) →
    Lockstep states clock IsError (fun _ => Eq) n (R.forEachObjectMember tags o fn acc)
      (R.forEachObjectMember tags o' fn' acc)
  toFixedBasicType {n v w toFixedBasicType} (T : Arithmetic) (tags : Tags) (size : ℕ) :
    R.toFixedBasicType = some toFixedBasicType → values n v w →
    Lockstep states clock IsError (fun _ => Eq) n (toFixedBasicType T tags v size)
      (toFixedBasicType T tags w size)
  isRaw {n v w stream} : R.stream = some stream → values n v w → stream.isRaw v = stream.isRaw w
  isFramedObject {n v w stream} : R.stream = some stream → values n v w →
    stream.isFramedObject v = stream.isFramedObject w
  next {n v w stream} : R.stream = some stream → values n v w →
    Lockstep states clock IsError values n (stream.next v) (stream.next w)
  restore {v w s t s' t' restore} : R.restore = some restore → states s t → states s' t' →
    clock s ≤ clock s' → values (clock s) v w →
    states (restore s v s') (restore t w t') ∧ clock s' ≤ clock (restore s v s')

namespace Coupling

variable {R : Backend} (C : Coupling R)

/-- Computations without a target in step. -/
abbrev Ops {α β : Type} (A : ℕ → α → β → Prop) (n : ℕ) (x : R.Op α) (y : R.Op β) : Prop :=
  Lockstep C.states C.clock IsError A n x y

/-- Reads into a target in step. -/
abbrev Reads {α β χ : Type} (A : ℕ → α → β → Prop) (n : ℕ) (x : R.ParseM χ α)
    (y : R.ParseM χ β) : Prop :=
  Lockstep C.states C.clock (fun failure => IsError failure.stop) A n x y

/-! ## Errors -/

section

variable {C} {α β χ : Type} {A : ℕ → α → β → Prop} {n : ℕ}

theorem fail {code : ErrorCode} {msg : String} : C.Ops A n (fail code msg) (fail code msg) :=
  .throw trivial

theorem isError_describe {text : String} {e : Stop} (h : IsError e) :
    IsError (describe text e) := by
  cases e with
  | error e => trivial
  | _ => exact h.elim

theorem context {text : String} {x : R.Op α} {y : R.Op β} (h : C.Ops A n x y) :
    C.Ops A n (context text x) (context text y) :=
  h.adaptExcept fun _ => isError_describe

theorem contextOf {text : String} {x : R.ParseM χ α} {y : R.ParseM χ β} (h : C.Reads A n x y) :
    C.Reads A n (contextOf text x) (contextOf text y) :=
  h.adaptExcept fun _ => isError_describe

theorem result {x y : R.Op α} (h : C.Ops (fun _ => Eq) n x y) :
    C.Ops (fun _ => Eq) n (result x) (result y) := by
  intro s t hst hn
  unfold Generic.result
  cases hx : x s with
  | ok a s' =>
    obtain ⟨t', hy, hst', hle⟩ := h.returns hst hn hx
    rw [show y t = _ from hy]
    exact .ok hle rfl hst'
  | error e s' =>
    obtain ⟨t', hy, he, hst', hle⟩ := h.fails hst hn hx
    rw [hy]
    cases e with
    | error e => exact .ok hle rfl hst'
    | _ => exact he.elim

theorem settle {x y : R.ParseM α α} (h : C.Reads (fun _ => Eq) n x y) :
    C.Reads (fun _ => Eq) n (settle x) (settle y) := by
  intro s t hst hn
  unfold Generic.settle
  cases hx : x s with
  | ok a s' =>
    obtain ⟨t', hy, hst', hle⟩ := h.returns hst hn hx
    rw [show y t = _ from hy]
    exact .ok hle rfl hst'
  | error e s' =>
    obtain ⟨t', hy, he, hst', hle⟩ := h.fails hst hn hx
    obtain ⟨stop, left⟩ := e
    rw [hy]
    cases stop with
    | error e => exact .ok hle rfl hst'
    | _ => exact he.elim

theorem orThrow {r : Except Error α} : C.Ops (fun _ => Eq) n (orThrow r) (orThrow r) := by
  cases r with
  | ok a => exact .same
  | error e => exact .throw trivial

end

/-! ## Scalars -/

section

variable {C} {n : ℕ} {tags : Tags} {v w : R.InputValue}

theorem readArithmetic (T : Arithmetic) (hv : C.values n v w) :
    C.Ops (fun _ => Eq) n (R.readArithmetic T tags v) (R.readArithmetic T tags w) := by
  unfold Backend.readArithmetic
  cases tags.fixedLengthOf T with
  | none => exact C.toBasicType T tags hv
  | some size =>
    cases hfixed : R.toFixedBasicType with
    | none => exact C.toBasicType T tags hv
    | some toFixedBasicType =>
      exact .ite (fun _ => fail) fun _ => C.toFixedBasicType T tags size hfixed hv

theorem readEnumeration (hv : C.values n v w) {signed : Bool} {width : Width}
    {names : List (Bytes × BitVec width.bits)} :
    C.Ops (fun _ => Eq) n (R.readEnumeration signed width names tags v)
      (R.readEnumeration signed width names tags w) := by
  refine (result (C.toBasicString tags hv)).bind_same fun m name hle => ?_
  cases name with
  | error e => exact context (readArithmetic (.integer signed width) (C.values_mono hle hv))
  | ok name =>
    dsimp only
    cases names.reverse.find? fun entry => entry.1 = name with
    | none => exact fail
    | some entry => exact .same

theorem readNull (hv : C.values n v w) {monostate : Bool} :
    C.Ops (fun _ => Eq) n (R.readNull monostate tags v) (R.readNull monostate tags w) :=
  (C.isEmpty tags hv).bind_same fun _ _ _ => .ite (fun _ => .same) fun _ => fail

theorem readNullable (hv : C.values n v w) {α : Type} {text : String} {read read' : R.Op α}
    (h : C.Ops (fun _ => Eq) n read read') :
    C.Ops (fun _ => Eq) n (R.readNullable text tags read v) (R.readNullable text tags read' w) :=
  (C.isEmpty tags hv).bind_same fun _ _ hle => .ite (fun _ => .same) fun _ =>
    (context (h.mono hle)).bind_same fun _ _ _ => .same

end

/-! ## Arrays -/

section

variable {C} {α : Type} {n : ℕ} {tags : Tags} {v w : R.InputValue} {a b : R.InputArray}

theorem readItems {read : R.InputValue → R.Op α} {insert : List α → α → Option (List α)}
    (h : ∀ {n v w}, C.values n v w → C.Ops (fun _ => Eq) n (read v) (read w)) {count : ℕ} :
    ∀ {n index : ℕ} {parsed : List α}, C.arrays n a b →
    C.Ops (fun _ => Eq) n (R.readItems read insert a count index parsed)
      (R.readItems read insert b count index parsed) := by
  induction count with
  | zero => exact fun _ => .same
  | succ count ih =>
    intro n index parsed hab
    refine (C.arrayElement index hab).bind fun m v w hm hv => ?_
    refine (context (h hv)).bind_same fun k item hk => ?_
    cases insert parsed item with
    | none => exact fail
    | some parsed => exact ih (C.arrays_mono (hm.trans hk) hab)

theorem readSequence {read : R.InputValue → R.Op α} {insert : List α → α → Option (List α)}
    (h : ∀ {n v w}, C.values n v w → C.Ops (fun _ => Eq) n (read v) (read w))
    (hv : C.values n v w) :
    C.Ops (fun _ => Eq) n (R.readSequence tags read insert v)
      (R.readSequence tags read insert w) := by
  refine (C.toArray tags hv).bind fun m a b _ hab => ?_
  refine (C.arraySize hab).bind_same fun k size hk => ?_
  exact readItems h (C.arrays_mono hk hab)

variable {read : R.InputValue → α → R.ParseM α α}

theorem readElement {text : String} {index : ℕ} {old : α}
    (h : ∀ {n v w}, C.values n v w → C.Reads (fun _ => Eq) n (read v old) (read w old))
    (hab : C.arrays n a b) :
    C.Reads (fun _ => Eq) n (R.readElement text a index read old)
      (R.readElement text b index read old) :=
  (C.arrayElement index hab).keeping.bind fun _ _ _ _ hv => contextOf (h hv)

theorem readArrayItems
    (h : ∀ {n v w old}, C.values n v w → C.Reads (fun _ => Eq) n (read v old) (read w old))
    {values : List α} : ∀ {n index : ℕ}, C.arrays n a b →
    C.Reads (fun _ => Eq) n (R.readArrayItems read a index values)
      (R.readArrayItems read b index values) := by
  induction values with
  | nil => exact fun _ => .same
  | cons old olds ih =>
    intro n index hab
    exact (readElement h hab).inTurn fun m _ _ hle heq =>
      ⟨heq, ih (C.arrays_mono hle hab)⟩

/-- The size of an array is looked at before its elements are read. -/
theorem sized {β : Type} {old : β} {size : ℕ} {text : ℕ → String}
    {readAll : R.InputArray → R.ParseM β α} (hv : C.values n v w)
    (h : ∀ {n a b}, C.arrays n a b → C.Reads (fun _ => Eq) n (readAll a) (readAll b)) :
    C.Reads (fun _ => Eq) n
      (do
        let array ← keeping old (R.toArray tags v)
        let actualSize ← keeping old (R.arraySize array)
        if actualSize ≠ size then keeping old (Generic.fail .invalidLength (text actualSize))
        else readAll array)
      (do
        let array ← keeping old (R.toArray tags w)
        let actualSize ← keeping old (R.arraySize array)
        if actualSize ≠ size then keeping old (Generic.fail .invalidLength (text actualSize))
        else readAll array) := by
  refine (C.toArray tags hv).keeping.bind fun m a b _ hab => ?_
  refine (C.arraySize hab).keeping.bind_same fun k actualSize hk => ?_
  exact .ite (fun _ => fail.keeping) fun _ => h (C.arrays_mono hk hab)

theorem readArray {size : ℕ} {old : Backend.Fixed α size}
    (h : ∀ {n v w old}, C.values n v w → C.Reads (fun _ => Eq) n (read v old) (read w old))
    (hv : C.values n v w) :
    C.Reads (fun _ => Eq) n (R.readArray tags read v old) (R.readArray tags read w old) :=
  sized hv fun hab => by
    refine (readArrayItems @h hab).within.bind_same fun _ _ _ => ?_
    exact .same

end

/-! ## Objects and maps -/

section

variable {C} {α β : Type} {n : ℕ} {tags : Tags} {v w : R.InputValue} {o o' : R.InputObject}
  {read : R.InputValue → α → R.ParseM α α}

theorem readRequired {name : Bytes} {missing text : String} {old : α}
    (h : ∀ {n v w}, C.values n v w → C.Reads (fun _ => Eq) n (read v old) (read w old))
    (ho : C.objects n o o') :
    C.Reads (fun _ => Eq) n (R.readRequired o name missing text read old)
      (R.readRequired o' name missing text read old) := by
  refine (C.objectField {} name ho).keeping.bind fun m found found' _ hfound => ?_
  cases hfound with
  | missing e => exact fail.keeping
  | found hv => exact contextOf (h hv)

theorem readPair {readSecond : R.InputValue → β → R.ParseM β β} {old : α × β}
    (h : ∀ {n v w}, C.values n v w → C.Reads (fun _ => Eq) n (read v old.1) (read w old.1))
    (hsecond : ∀ {n v w}, C.values n v w →
      C.Reads (fun _ => Eq) n (readSecond v old.2) (readSecond w old.2))
    (hv : C.values n v w) :
    C.Reads (fun _ => Eq) n (R.readPair tags read readSecond v old)
      (R.readPair tags read readSecond w old) := by
  refine (C.toObject tags hv).keeping.bind fun m o o' _ ho => ?_
  exact (readRequired h ho).inTurn fun k _ _ hk heq =>
    ⟨heq, readRequired hsecond (C.objects_mono hk ho)⟩

theorem readEntries {initialKey : α} {readValue : R.InputValue → β → R.ParseM β β}
    {initialValue : β} {unique : Bool} {equivalent : α → α → Bool} {a b : R.InputArray}
    (h : ∀ {n v w}, C.values n v w →
      C.Reads (fun _ => Eq) n (read v initialKey) (read w initialKey))
    (hvalue : ∀ {n v w}, C.values n v w →
      C.Reads (fun _ => Eq) n (readValue v initialValue) (readValue w initialValue)) {count : ℕ} :
    ∀ {n index : ℕ} {parsed : List (α × β)}, C.arrays n a b →
    C.Ops (fun _ => Eq) n
      (R.readEntries read initialKey readValue initialValue unique equivalent a count index parsed)
      (R.readEntries read initialKey readValue initialValue unique equivalent b count index
        parsed) := by
  induction count with
  | zero => exact fun _ => .same
  | succ count ih =>
    intro n index parsed hab
    refine (C.arrayElement index hab).bind fun n₁ v w h₁ hv => ?_
    refine (context (C.toObject {} hv)).bind fun n₂ o o' h₂ ho => ?_
    refine (readRequired h ho).dropping.bind_same fun n₃ key h₃ => ?_
    refine (readRequired hvalue (C.objects_mono h₃ ho)).dropping.bind_same fun n₄ value h₄ => ?_
    refine .ite (fun _ => fail) fun _ => ih (C.arrays_mono ?_ hab)
    exact h₁.trans (h₂.trans (h₃.trans h₄))

theorem readEntryMap {initialKey : α} {readValue : R.InputValue → β → R.ParseM β β}
    {initialValue : β} {unique : Bool} {equivalent : α → α → Bool}
    (h : ∀ {n v w}, C.values n v w →
      C.Reads (fun _ => Eq) n (read v initialKey) (read w initialKey))
    (hvalue : ∀ {n v w}, C.values n v w →
      C.Reads (fun _ => Eq) n (readValue v initialValue) (readValue w initialValue))
    (hv : C.values n v w) :
    C.Ops (fun _ => Eq) n
      (R.readEntryMap tags read initialKey readValue initialValue unique equivalent v)
      (R.readEntryMap tags read initialKey readValue initialValue unique equivalent w) := by
  refine (C.toArray tags hv).bind fun m a b _ hab => ?_
  refine (C.arraySize hab).bind_same fun k size hk => ?_
  exact readEntries h hvalue (C.arrays_mono hk hab)

theorem readMember {read : R.InputValue → R.Op α} {name : Bytes}
    (h : ∀ {n v w}, C.values n v w → C.Ops (fun _ => Eq) n (read v) (read w))
    {acc : Except Error Unit × Entries α} (hv : C.values n v w) :
    C.Ops (fun _ => Eq) n (R.readMember read name v acc) (R.readMember read name w acc) := by
  obtain ⟨outcome, parsed⟩ := acc
  cases outcome with
  | error e => exact .same
  | ok u =>
    refine (result (context (h hv))).bind_same fun m value _ => ?_
    cases value with
    | error e => exact .same
    | ok value =>
      dsimp only
      cases parsed.emplace name value with
      | none => exact .same
      | some parsed => exact .same

theorem readStringMap {read : R.InputValue → R.Op α}
    (h : ∀ {n v w}, C.values n v w → C.Ops (fun _ => Eq) n (read v) (read w))
    (hv : C.values n v w) :
    C.Ops (fun _ => Eq) n (R.readStringMap tags read v) (R.readStringMap tags read w) := by
  refine (C.toObject tags hv).bind fun m o o' _ ho => ?_
  have hmembers : C.Ops (fun _ => Eq) m
      (R.forEachObjectMember tags o (R.readMember read) (.ok (), ⟨[], List.nodup_nil⟩))
      (R.forEachObjectMember tags o' (R.readMember read) (.ok (), ⟨[], List.nodup_nil⟩)) :=
    C.forEachObjectMember tags _ ho fun k name v w acc _ hv => readMember @h hv
  refine hmembers.bind_same fun k r _ => ?_
  exact orThrow.bind_same fun _ _ _ => .same

end

/-! ## Fields -/

section

variable {C} {α : Type} {n : ℕ} {tags : Tags} {v w : R.InputValue} {null : Option α}
  {read : R.InputValue → α → R.ParseM α α} {old : α} {name : Bytes}
  {stream : Stream R.State R.InputValue}

theorem readMissingField :
    C.Reads (fun _ => Eq) n (R.readMissingField null name tags old)
      (R.readMissingField null name tags old) := by
  refine .ite (fun _ => .same) fun _ => ?_
  cases null with
  | none => exact fail.keeping
  | some null => exact .same

theorem readPresentField
    (h : ∀ {n v w}, C.values n v w → C.Reads (fun _ => Eq) n (read v old) (read w old))
    (hv : C.values n v w) :
    C.Reads (fun _ => Eq) n (R.readPresentField null name tags read v old)
      (R.readPresentField null name tags read w old) := by
  refine (C.isEmpty tags hv).keeping.bind_same fun m empty hm => ?_
  have hread := @contextOf R C _ _ _ _ _ ("Failed to parse field '" ++
    Reader.nameText name ++ "': ") _ _ (h (C.values_mono hm hv))
  cases empty with
  | false => exact hread
  | true =>
    cases null with
    | none => exact hread
    | some null => exact .same

theorem readReflectField
    (h : ∀ {n v w}, C.values n v w → C.Reads (fun _ => Eq) n (read v old) (read w old))
    (hv : C.values n v w) :
    C.Reads (fun _ => Eq) n (R.readReflectField null name tags read v old)
      (R.readReflectField null name tags read w old) := by
  refine (C.toObject {} hv).keeping.bind fun m o o' _ ho => ?_
  refine (C.objectField tags (tags.fieldName name) ho).keeping.bind ?_
  intro k found found' _ hfound
  cases hfound with
  | missing e => exact readMissingField
  | found hv => exact readPresentField h hv

/-- The value and the handle behind it. -/
def Next (n : ℕ) (p q : α × R.InputValue) : Prop := p.1 = q.1 ∧ C.values n p.2 q.2

theorem readUnframedField (hstream : R.stream = some stream)
    (h : ∀ {n v w}, C.values n v w → C.Reads (fun _ => Eq) n (read v old) (read w old))
    (hv : C.values n v w) :
    C.Reads (@Next R C α) n (R.readUnframedField stream name tags read v old)
      (R.readUnframedField stream name tags read w old) := by
  refine .ite (fun _ => .pure fun m hm => ⟨rfl, C.values_mono hm hv⟩) fun _ => ?_
  refine (settle (contextOf (h hv))).bind_same fun m r hm => ?_
  refine (C.next hstream (C.values_mono hm hv)).keeping.bind fun k v' w' hk hv' => ?_
  refine orThrow.keeping.bind_same fun l _ hl => ?_
  exact .pure fun i hi => ⟨rfl, C.values_mono (hl.trans hi) hv'⟩

theorem readRawField {T : Ty} (hv : C.values n v w) :
    C.Ops (fun _ => Eq) n (R.readRawField name tags v T) (R.readRawField name tags w T) := by
  cases T with
  | arithmetic T => exact context (readArithmetic T hv)
  | enumeration signed width names => exact context (readArithmetic (.integer signed width) hv)
  | _ => exact fail

theorem readRawFieldNext (hstream : R.stream = some stream) {T : Ty} {old : T.Value}
    (hv : C.values n v w) :
    C.Reads (@Next R C T.Value) n (R.readRawFieldNext stream name tags T v old)
      (R.readRawFieldNext stream name tags T w old) := by
  refine .ite (fun _ => .pure fun m hm => ⟨rfl, C.values_mono hm hv⟩) fun _ => ?_
  refine .ite (fun _ => fail.keeping) fun _ => ?_
  refine (readRawField hv).keeping.bind_same fun m value hm => ?_
  refine (C.next hstream (C.values_mono hm hv)).keeping.bind fun k v' w' _ hv' => ?_
  exact .pure fun i hi => ⟨rfl, C.values_mono hi hv'⟩

theorem readRawFields (hstream : R.stream = some stream) : (fields : Fields) → {n : ℕ} →
    {v w : R.InputValue} → {olds : fields.Values} → C.values n v w →
    C.Reads (fun _ => Eq) n (R.readRawFields stream fields v olds)
      (R.readRawFields stream fields w olds)
  | .nil, _, _, _, _, _ => .same
  | .cons _ _ _ rest, _, _, _, (_, _), hv =>
    (readRawFieldNext hstream hv).inTurn fun _ _ _ _ hnext =>
      ⟨hnext.1, readRawFields hstream rest hnext.2⟩

end

/-! ## All types -/

section

variable {C} {n : ℕ} {v w : R.InputValue}

theorem tryAlternative {α : Type} {read read' : R.Op α} (h : C.Ops (fun _ => Eq) n read read')
    (hv : C.values n v w) :
    C.Ops (fun _ => Eq) n (R.tryAlternative read v) (R.tryAlternative read' w) := by
  refine .get_bind fun s t hst hn => ?_
  refine (result (h.mono hn)).bind_same fun m tried hm => ?_
  cases hrestore : R.restore with
  | none =>
    cases tried with
    | ok a => exact .same
    | error e => exact .same
  | some restore =>
    refine Lockstep.bind_same (.modify fun s' t' hst' hm' => ?_) fun k _ hk => ?_
    · exact C.restore hrestore hst hst' (hm.trans hm') (C.values_mono hn hv)
    · cases tried with
      | ok a => exact .same
      | error e => exact .same

theorem stream_of_layout {unframed : Bool} {tags : Tags} {stream : Stream R.State R.InputValue}
    (h : R.layout unframed tags v = .raw stream ∨ R.layout unframed tags v = .unframed stream) :
    R.stream = some stream := by
  unfold Backend.layout at h
  cases hstream : R.stream with
  | none => simp [hstream] at h
  | some stream' =>
    simp only [hstream] at h
    refine congrArg some ?_
    split_ifs at h <;> simp_all

theorem readReflected {P : Program} {T : Ty} {old : T.Value}
    {read read' : T.Value → R.ParseM T.Value T.Value}
    (h : ∀ parsed, C.Reads (fun _ => Eq) n (read parsed) (read' parsed)) :
    C.Reads (fun _ => Eq) n (P.readReflected T read old) (P.readReflected T read' old) := by
  unfold Program.readReflected
  cases P.strategy T with
  | copy => exact (h old).dropping.keeping
  | fresh => exact (h (P.default T)).dropping.keeping
  | inPlace => exact h old

variable (C) (P : Program)

mutual

/-- **All reads go the same way** from related states and handles. -/
theorem parserRead : (T : Ty) → (tags : Tags) → {n : ℕ} → {v w : R.InputValue} →
    {old : T.Value} → C.values n v w →
    C.Reads (fun _ => Eq) n (R.parserRead P T tags v old) (R.parserRead P T tags w old)
  | .arithmetic T, tags, _, _, _, _, hv => (readArithmetic T hv).keeping
  | .string, tags, _, _, _, _, hv => (context (C.toBasicString tags hv)).keeping
  | .enumeration _ _ _, _, _, _, _, _, hv => (readEnumeration hv).keeping
  | .null _, _, _, _, _, _, hv => (readNull hv).keeping
  | .optional T, tags, _, _, _, _, hv => (readNullable hv (parserRead T tags hv).dropping).keeping
  | .pointer _ T, tags, _, _, _, _, hv =>
    (readNullable hv (parserRead T tags hv).dropping).keeping
  | .sequence _ T, _, _, _, _, _, hv =>
    (readSequence (fun hv => (parserRead T {} hv).dropping) hv).keeping
  | .array _ T, _, _, _, _, _, hv => readArray (fun hv => parserRead T {} hv) hv
  | .tuple Ts, _, _, _, _, _, hv => sized hv fun hab => readTuple Ts hab
  | .pair T U, _, _, _, _, _, hv =>
    readPair (fun hv => parserRead T {} hv) (fun hv => parserRead U {} hv) hv
  | .variant Ts, tags, n, _, _, _, hv => by
    refine Lockstep.keeping (.ite (fun _ => ?_) fun _ => ?_)
    · refine (findAlternatives Ts tags.payload hv).bind_same fun m found hm => ?_
      refine .ite (fun _ => fail) fun _ => .ite (fun _ => fail) fun _ => ?_
      exact readAlternative Ts tags.payload (C.values_mono hm hv)
    · refine (context (C.toArray tags.payload hv)).bind fun m a b _ hab => ?_
      refine (C.arraySize hab).bind_same fun k size hk => ?_
      refine .ite (fun _ => fail) fun _ => ?_
      refine (C.arrayElement 0 (C.arrays_mono hk hab)).bind fun i v' w' hi hv' => ?_
      refine (context (readArithmetic (.integer false .w64) hv')).bind_same fun j index hj => ?_
      have hab := C.arrays_mono (hk.trans (hi.trans hj)) hab
      exact (C.arrayElement 1 hab).bind fun _ _ _ _ hv' => readAlternative Ts tags.payload hv'
  | .stringMap T, _, _, _, _, _, hv =>
    (readStringMap (fun hv => (parserRead T {} hv).dropping) hv).keeping
  | .entryMap _ K T, _, _, _, _, _, hv =>
    (readEntryMap (fun hv => parserRead K {} hv) (fun hv => parserRead T {} hv) hv).keeping
  | .object unframed fields, tags, n, v, w, _, hv => by
    refine readReflected fun parsed => ?_
    have hlayout : R.layout unframed tags v = R.layout unframed tags w := by
      unfold Backend.layout
      cases hstream : R.stream with
      | none => rfl
      | some stream => simp only [C.isRaw hstream hv, C.isFramedObject hstream hv]
    rw [hlayout]
    cases hlayout' : R.layout unframed tags w with
    | raw stream => exact readRawFields (stream_of_layout (.inl hlayout')) fields hv
    | refused => exact fail.keeping
    | unframed stream => exact readUnframed (stream_of_layout (.inr hlayout')) fields hv
    | framed => exact (C.toObject tags hv).keeping.bind fun _ _ _ hm _ =>
        readFields fields (C.values_mono hm hv)
  | .record fields, _, _, _, _, _, hv =>
    readReflected fun _ => sized hv fun hab => readRecord fields hab

theorem readTuple : (Ts : Tys) → {n : ℕ} → {a b : R.InputArray} → {index : ℕ} →
    {olds : Ts.Values} → C.arrays n a b →
    C.Reads (fun _ => Eq) n (R.readTuple P Ts a index olds) (R.readTuple P Ts b index olds)
  | .nil, _, _, _, _, _, _ => .same
  | .cons T Ts, _, _, _, _, (_, _), hab =>
    (readElement (fun hv => parserRead T {} hv) hab).inTurn fun _ _ _ hm heq =>
      ⟨heq, readTuple Ts (C.arrays_mono hm hab)⟩

theorem findAlternatives : (Ts : Alternatives) → (tags : Tags) → {n : ℕ} → {v w : R.InputValue} →
    {index matchCount matchIndex : ℕ} → C.values n v w →
    C.Ops (fun _ => Eq) n (R.findAlternatives P Ts tags v index matchCount matchIndex)
      (R.findAlternatives P Ts tags w index matchCount matchIndex)
  | .one T, tags, _, _, _, _, _, _, hv =>
    (tryAlternative (parserRead T tags hv).dropping hv).bind_same fun _ _ _ => .same
  | .cons T Ts, tags, _, _, _, _, _, _, hv =>
    (tryAlternative (parserRead T tags hv).dropping hv).bind_same fun _ _ hm =>
      .ite (fun _ => findAlternatives Ts tags (C.values_mono hm hv))
        fun _ => findAlternatives Ts tags (C.values_mono hm hv)

theorem readAlternative : (Ts : Alternatives) → (tags : Tags) → {n : ℕ} → {v w : R.InputValue} →
    {index : ℕ} → C.values n v w →
    C.Ops (fun _ => Eq) n (R.readAlternative P Ts tags v index)
      (R.readAlternative P Ts tags w index)
  | .one T, tags, _, _, _, 0, hv => context (parserRead T tags hv).dropping
  | .one _, _, _, _, _, _ + 1, _ => fail
  | .cons T _, tags, _, _, _, 0, hv =>
    (context (parserRead T tags hv).dropping).bind_same fun _ _ _ => .same
  | .cons _ Ts, tags, _, _, _, _ + 1, hv =>
    (readAlternative Ts tags hv).bind_same fun _ _ _ => .same

theorem readFields : (fields : Fields) → {n : ℕ} → {v w : R.InputValue} →
    {olds : fields.Values} → C.values n v w →
    C.Reads (fun _ => Eq) n (R.readFields P fields v olds) (R.readFields P fields w olds)
  | .nil, _, _, _, _, _ => .same
  | .cons _ tags T rest, _, _, _, (_, _), hv => by
    refine Lockstep.inTurn (.ite (fun _ => .same) fun _ => ?_)
      fun _ _ _ hm heq => ⟨heq, readFields rest (C.values_mono hm hv)⟩
    refine .ite (fun _ => readFlat T hv) fun _ => ?_
    exact readReflectField (fun hv => parserRead T tags hv) hv

theorem readFlat : (T : Ty) → {n : ℕ} → {v w : R.InputValue} → {old : T.Value} →
    C.values n v w →
    C.Reads (fun _ => Eq) n (R.readFlat P T v old) (R.readFlat P T w old)
  | .object _ fields, _, _, _, _, hv =>
    (C.toObject {} hv).keeping.bind fun _ _ _ hm _ => readFields fields (C.values_mono hm hv)
  | .arithmetic _, _, _, _, _, _ => .same
  | .string, _, _, _, _, _ => .same
  | .enumeration _ _ _, _, _, _, _, _ => .same
  | .null _, _, _, _, _, _ => .same
  | .optional _, _, _, _, _, _ => .same
  | .pointer _ _, _, _, _, _, _ => .same
  | .sequence _ _, _, _, _, _, _ => .same
  | .array _ _, _, _, _, _, _ => .same
  | .tuple _, _, _, _, _, _ => .same
  | .pair _ _, _, _, _, _, _ => .same
  | .variant _, _, _, _, _, _ => .same
  | .stringMap _, _, _, _, _, _ => .same
  | .entryMap _ _ _, _, _, _, _, _ => .same
  | .record _, _, _, _, _, _ => .same

theorem readUnframed {stream : Stream R.State R.InputValue} (hstream : R.stream = some stream) :
    (fields : Fields) → {n : ℕ} → {v w : R.InputValue} → {olds : fields.Values} →
    C.values n v w →
    C.Reads (fun _ => Eq) n (R.readUnframed P stream fields v olds)
      (R.readUnframed P stream fields w olds)
  | .nil, _, _, _, _, _ => .same
  | .cons _ tags T rest, _, _, _, (_, _), hv =>
    (readUnframedField hstream (fun hv => parserRead T tags hv) hv).inTurn fun _ _ _ _ hnext =>
      ⟨hnext.1, readUnframed hstream rest hnext.2⟩

theorem readRecord : (fields : Fields) → {n : ℕ} → {a b : R.InputArray} →
    {index elementIndex : ℕ} → {olds : fields.Values} → C.arrays n a b →
    C.Reads (fun _ => Eq) n (R.readRecord P fields a index elementIndex olds)
      (R.readRecord P fields b index elementIndex olds)
  | .nil, _, _, _, _, _, _, _ => .same
  | .cons _ tags T rest, _, _, _, _, _, (_, _), hab => by
    refine Lockstep.inTurn (.ite (fun _ => .same) fun _ => ?_)
      fun _ _ _ hm heq => ⟨heq, readRecord rest (C.arrays_mono hm hab)⟩
    exact readElement (fun hv => parserRead T tags hv) hab

end

end

end Coupling

end NekoProto.Generic
