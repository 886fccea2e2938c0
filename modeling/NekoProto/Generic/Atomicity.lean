import NekoProto.Generic.JsonReader

/-!
# What a failed read leaves in its target

For every reader and every program, a failed `parser_read` leaves its target as it was, unless the
target is read in place and the input disturbs it (`failed_read_keeps_iff`).

1. The input disturbs a target that is read in place (`Disturbed`): one of its parts gets a value
   that it did not hold, and a part behind it is refused. It is a recursion on the type, along the
   parts that are read in place.
2. Each construct of `parser_read` is spoiled when its parts are disturbed, by the rules of
   `Spoils`.
-/

namespace NekoProto.Generic

open Binary Parsing InPlace Outcome

namespace Backend

variable (R : Backend)

/-! ## Parts of a target -/

section

variable {α : Type}

/-- An element of an array, which is a part of the target. -/
def DisturbedElement (array : R.InputArray) (index : ℕ)
    (disturbed : R.InputValue → R.State → Prop) : R.State → Prop :=
  After (R.arrayElement array index) disturbed

/-- The elements of a fixed array. -/
def DisturbedItems (read : R.InputValue → α → R.ParseM α α)
    (disturbed : R.InputValue → α → R.State → Prop) (array : R.InputArray) :
    ℕ → List α → R.State → Prop
  | _, [], _ => False
  | index, old :: olds, s =>
    SpoilsInTurn (R.DisturbedElement array index fun element => disturbed element old)
      (R.readElement ("Failed to parse fixed array element " ++ toString index ++ ": ") array
        index read old) id old (fun _ => Fails (R.readArrayItems read array (index + 1) olds))
      (fun _ => DisturbedItems read disturbed array (index + 1) olds) s

/-- A container of the size that the target asks for. -/
def DisturbedSized (tags : Tags) (size : ℕ) (disturbed : R.InputArray → R.State → Prop)
    (v : R.InputValue) : R.State → Prop :=
  After (R.toArray tags v) fun array =>
    After (R.arraySize array) fun actualSize s => actualSize = size ∧ disturbed array s

/-- A field that has to be there. -/
def DisturbedRequired (object : R.InputObject) (name : Bytes)
    (disturbed : R.InputValue → R.State → Prop) : R.State → Prop :=
  After (R.objectField {} object name) fun found s => ∃ field, found = .ok field ∧ disturbed field s

/-- A field of a reflected class, found and not null. -/
def DisturbedField (null : Option α) (name : Bytes) (tags : Tags)
    (disturbed : R.InputValue → R.State → Prop) (v : R.InputValue) : R.State → Prop :=
  After (R.toObject {} v) fun object =>
    After (R.objectField tags object (tags.fieldName name)) fun found s =>
      ∃ field, found = .ok field ∧
        After (R.isEmpty tags field)
          (fun empty t => ¬(empty = true ∧ null.isSome = true) ∧ disturbed field t) s

/-- A value in front of another one: the handle of the other one is made in between. -/
def DisturbedNext (tags : Tags) (stream : Stream R.State R.InputValue)
    (disturbed : R.State → Prop) (read : R.ParseM α α) (v : R.InputValue) (old : α)
    (s : R.State) : Prop :=
  tags.ignore = false ∧ (disturbed s ∨ After read (fun value t => value ≠ old ∧
    Fails (stream.next v) t) s)

end

/-- The fields of a raw fixed record. -/
def DisturbedRaw (stream : Stream R.State R.InputValue) :
    (fields : Fields) → R.InputValue → fields.Values → R.State → Prop
  | .nil, _, _, _ => False
  | .cons name tags T rest, v, (old, olds), s =>
    SpoilsInTurn (fun s => tags.fixedLength.isSome ∧ R.DisturbedNext tags stream (fun _ => False)
        (keeping old (R.readRawField name tags v T)) v old s)
      (R.readRawFieldNext stream name tags T v old) Prod.fst old
      (fun field => Fails (R.readRawFields stream rest field.2 olds))
      (fun field => DisturbedRaw stream rest field.2 olds) s

/-! ## All types -/

variable (P : Program)

mutual

/-- The input disturbs a target that holds `old`. -/
def Disturbed : (T : Ty) → Tags → R.InputValue → T.Value → R.State → Prop
  | .array size T, tags, v, old, s =>
    R.DisturbedSized tags size
      (fun array => R.DisturbedItems (R.parserRead P T {}) (Disturbed T {}) array 0 old.1) v s
  | .tuple Ts, tags, v, old, s =>
    R.DisturbedSized tags Ts.length (fun array => DisturbedTuple Ts array 0 old) v s
  | .pair T U, tags, v, old, s =>
    After (R.toObject tags v) (fun object => SpoilsInTurn
      (R.DisturbedRequired object firstName fun field => Disturbed T {} field old.1)
      (R.readRequired object firstName "Required pair field 'first' is missing"
        "Failed to parse pair field 'first': " (R.parserRead P T {}) old.1) id old.1
      (fun _ => Fails (R.readRequired object secondName "Required pair field 'second' is missing"
        "Failed to parse pair field 'second': " (R.parserRead P U {}) old.2))
      fun _ => R.DisturbedRequired object secondName fun field => Disturbed U {} field old.2) s
  | .object unframed fields, tags, v, old, s =>
    P.strategy (.object unframed fields) = .inPlace ∧
      match R.layout unframed tags v with
      | .raw stream => R.DisturbedRaw stream fields v old s
      | .refused => False
      | .unframed stream => DisturbedUnframed stream fields v old s
      | .framed => After (R.toObject tags v) (fun _ => DisturbedFields fields v old) s
  | .record fields, tags, v, old, s =>
    P.strategy (.record fields) = .inPlace ∧
      R.DisturbedSized tags fields.count (fun array => DisturbedRecord fields array 0 0 old) v s
  | _, _, _, _, _ => False

/-- The elements of a tuple. -/
def DisturbedTuple : (Ts : Tys) → R.InputArray → ℕ → Ts.Values → R.State → Prop
  | .nil, _, _, _, _ => False
  | .cons T Ts, array, index, (old, olds), s =>
    SpoilsInTurn (R.DisturbedElement array index fun element => Disturbed T {} element old)
      (R.readElement ("Failed to parse tuple element " ++ toString index ++ ": ") array index
        (R.parserRead P T {}) old) id old
      (fun _ => Fails (R.readTuple P Ts array (index + 1) olds))
      (fun _ => DisturbedTuple Ts array (index + 1) olds) s

/-- The fields of a reflected class, from an object. -/
def DisturbedFields : (fields : Fields) → R.InputValue → fields.Values → R.State → Prop
  | .nil, _, _, _ => False
  | .cons name tags T rest, v, (old, olds), s =>
    SpoilsInTurn (fun s => tags.ignore = false ∧
        if tags.flat && T.isObject then DisturbedFlat T v old s
        else R.DisturbedField (P.setNull T) name tags
          (fun field => Disturbed T tags field old) v s)
      (if tags.ignore then pure old
      else if tags.flat && T.isObject then R.readFlat P T v old
      else R.readReflectField (P.setNull T) name tags (R.parserRead P T tags) v old) id old
      (fun _ => Fails (R.readFields P rest v olds)) (fun _ => DisturbedFields rest v olds) s

/-- The fields of a flattened class. -/
def DisturbedFlat : (T : Ty) → R.InputValue → T.Value → R.State → Prop
  | .object _ fields, v, old, s => After (R.toObject {} v) (fun _ => DisturbedFields fields v old) s
  | _, _, _, _ => False

/-- The fields of a class without a frame. -/
def DisturbedUnframed (stream : Stream R.State R.InputValue) :
    (fields : Fields) → R.InputValue → fields.Values → R.State → Prop
  | .nil, _, _, _ => False
  | .cons name tags T rest, v, (old, olds), s =>
    SpoilsInTurn (R.DisturbedNext tags stream (Disturbed T tags v old)
        (R.parserRead P T tags v old) v old)
      (R.readUnframedField stream name tags (R.parserRead P T tags) v old) Prod.fst old
      (fun field => Fails (R.readUnframed P stream rest field.2 olds))
      (fun field => DisturbedUnframed stream rest field.2 olds) s

/-- The elements of a reflected class without names. -/
def DisturbedRecord : (fields : Fields) → R.InputArray → ℕ → ℕ → fields.Values → R.State → Prop
  | .nil, _, _, _, _, _ => False
  | .cons _ tags T rest, array, index, elementIndex, (old, olds), s =>
    SpoilsInTurn (fun s => tags.ignore = false ∧
        R.DisturbedElement array elementIndex (fun element => Disturbed T tags element old) s)
      (if tags.ignore then pure old
      else R.readElement ("Failed to parse reflected element " ++ toString index ++ ": ") array
        elementIndex (R.parserRead P T tags) old) id old
      (fun _ => Fails (R.readRecord P rest array (index + 1)
        (if tags.ignore then elementIndex else elementIndex + 1) olds))
      (fun _ => DisturbedRecord rest array (index + 1)
        (if tags.ignore then elementIndex else elementIndex + 1) olds) s

end

/-! ## Spoiled parts -/

section

variable {R} {α β : Type} {s : R.State} {old : α} {read : R.InputValue → α → R.ParseM α α}
  {disturbed : R.InputValue → α → R.State → Prop}

theorem mk_injective2 : Function.Injective2 (@Prod.mk α β) := fun _ _ _ _ h => Prod.mk.inj h

theorem spoils_contextOf {text : String} {x : R.ParseM α β} :
    Spoils (contextOf text x) old s ↔ Spoils x old s := spoils_rename

theorem spoils_readElement {text : String} {array : R.InputArray} {index : ℕ}
    {disturbed : R.InputValue → R.State → Prop}
    (h : ∀ v t, Spoils (read v old) old t ↔ disturbed v t) :
    Spoils (R.readElement text array index read old) old s ↔
      R.DisturbedElement array index disturbed s :=
  spoils_keeping_bind fun v t => spoils_contextOf.trans (h v t)

theorem spoils_readArrayItems (h : ∀ v old t, Spoils (read v old) old t ↔ disturbed v old t)
    {array : R.InputArray} : ∀ {index : ℕ} {values : List α} {s : R.State},
    Spoils (R.readArrayItems read array index values) ⟨values, rfl⟩ s ↔
      R.DisturbedItems read disturbed array index values s
  | _, [], _ => iff_of_false not_spoils_pure id
  | index, old :: olds, s => by
    have hcons : Function.Injective2 (@Fixed.cons α olds old) := by
      intro a a' l l' heq
      have := congrArg Subtype.val heq
      injection this with h₁ h₂
      exact ⟨h₁, Subtype.ext h₂⟩
    exact spoils_inTurn hcons (spoils_readElement fun v t => h v old t)
      fun _ t => spoils_readArrayItems h

theorem spoils_sized {tags : Tags} {size : ℕ} {text : ℕ → String} {v : R.InputValue}
    {readAll : R.InputArray → R.ParseM α β} {disturbed : R.InputArray → R.State → Prop}
    (h : ∀ array t, Spoils (readAll array) old t ↔ disturbed array t) :
    Spoils (do
      let array ← keeping old (R.toArray tags v)
      let actualSize ← keeping old (R.arraySize array)
      if actualSize ≠ size then keeping old (fail .invalidLength (text actualSize))
      else readAll array) old s ↔ R.DisturbedSized tags size disturbed v s := by
  refine spoils_keeping_bind fun array t => spoils_keeping_bind fun actualSize u => ?_
  rw [spoils_ite, h, not_not]
  constructor
  · rintro (⟨-, hspoils⟩ | hsize)
    · exact absurd hspoils not_spoils_keeping
    · exact hsize
  · intro hsize
    exact .inr hsize

theorem spoils_readArray (h : ∀ v old t, Spoils (read v old) old t ↔ disturbed v old t) {size : ℕ}
    {tags : Tags} {v : R.InputValue} {old : Fixed α size} :
    Spoils (R.readArray tags read v old) old s ↔
      R.DisturbedSized tags size
        (fun array => R.DisturbedItems read disturbed array 0 old.1) v s := by
  refine spoils_sized fun array t => ?_
  obtain ⟨values, rfl⟩ := old
  rw [spoils_bind]
  simp only [not_spoils_pure, and_false, exists_false, or_false]
  exact (spoils_within fun _ _ heq => Subtype.ext (congrArg Subtype.val heq)).trans
    (spoils_readArrayItems h)

theorem spoils_readRequired {object : R.InputObject} {name : Bytes} {missing text : String}
    {disturbed : R.InputValue → R.State → Prop}
    (h : ∀ v t, Spoils (read v old) old t ↔ disturbed v t) :
    Spoils (R.readRequired object name missing text read old) old s ↔
      R.DisturbedRequired object name disturbed s := by
  refine spoils_keeping_bind fun found t => ?_
  cases found with
  | error e => exact iff_of_false not_spoils_keeping (by rintro ⟨field, hfield, -⟩; cases hfield)
  | ok field =>
    refine (spoils_contextOf.trans (h field t)).trans ⟨fun hd => ⟨field, rfl, hd⟩, ?_⟩
    rintro ⟨field', hfield, hd⟩
    cases hfield
    exact hd

theorem spoils_readReflectField {null : Option α} {name : Bytes} {tags : Tags} {v : R.InputValue}
    {disturbed : R.InputValue → R.State → Prop}
    (h : ∀ v t, Spoils (read v old) old t ↔ disturbed v t) :
    Spoils (R.readReflectField null name tags read v old) old s ↔
      R.DisturbedField null name tags disturbed v s := by
  refine spoils_keeping_bind fun object t => spoils_keeping_bind fun found u => ?_
  cases found with
  | error e =>
    refine iff_of_false ?_ (by rintro ⟨field, hfield, -⟩; cases hfield)
    unfold readMissingField
    rw [spoils_ite]
    rintro (⟨-, hspoils⟩ | ⟨-, hspoils⟩)
    · exact not_spoils_pure hspoils
    · cases null with
      | none => exact not_spoils_keeping hspoils
      | some null => exact not_spoils_pure hspoils
  | ok field =>
    have hpresent : Spoils (R.readPresentField null (tags.fieldName name) tags read field old) old u
        ↔ After (R.isEmpty tags field)
          (fun empty t => ¬(empty = true ∧ null.isSome = true) ∧ disturbed field t) u := by
      refine spoils_keeping_bind fun empty w => ?_
      cases empty with
      | false => simpa using spoils_contextOf.trans (h field w)
      | true =>
        cases null with
        | none => simpa using spoils_contextOf.trans (h field w)
        | some null => simpa using not_spoils_pure
    refine hpresent.trans ⟨fun hd => ⟨field, rfl, hd⟩, ?_⟩
    rintro ⟨field', hfield, hd⟩
    cases hfield
    exact hd

theorem spoils_readRawFieldNext {stream : Stream R.State R.InputValue} {name : Bytes} {tags : Tags}
    {T : Ty} {v : R.InputValue} {old : T.Value} :
    Spoils (R.readRawFieldNext stream name tags T v old) old s ↔
      tags.fixedLength.isSome ∧ R.DisturbedNext tags stream (fun _ => False)
        (keeping old (R.readRawField name tags v T)) v old s := by
  unfold readRawFieldNext DisturbedNext
  cases tags.ignore with
  | true => simpa using not_spoils_pure
  | false =>
    cases tags.fixedLength with
    | none => simpa using not_spoils_keeping
    | some size =>
      simp only [Bool.false_eq_true, if_false, Option.isNone_some, Option.isSome_some, true_and,
        false_or]
      rw [after_keeping]
      refine spoils_keeping_bind fun value t => ?_
      rw [spoils_bind, spoils_keeping]
      simp only [not_spoils_pure, and_false, exists_false, or_false]

/-- What follows a value that was refused: the handle moves on, and the failure is looked at. -/
theorem spoils_refused {e : Error} {left : α} {t : R.State} {next : R.Op β} :
    Spoils (do
      let v ← keeping left next
      let _ ← keeping left (orThrow (.error e : Except Error Unit))
      pure (left, v)) old t ↔ left ≠ old := by
  rw [spoils_bind, spoils_keeping]
  constructor
  · rintro (⟨hne, -⟩ | ⟨w, u, -, hspoils⟩)
    · exact hne
    · rw [spoils_bind, spoils_keeping] at hspoils
      rcases hspoils with ⟨hne, -⟩ | ⟨_, _, hreturns, -⟩
      · exact hne
      · cases hreturns
  · intro hne
    cases h : next t with
    | ok w u =>
      refine .inr ⟨w, u, keeping_returns.mpr h, ?_⟩
      rw [spoils_bind, spoils_keeping]
      exact .inl ⟨hne, _, _, rfl⟩
    | error stop u => exact .inl ⟨hne, stop, u, h⟩

/-- What follows a value that was read: the handle moves on. -/
theorem spoils_moved {value : α} {t : R.State} {next : R.Op β} :
    Spoils (do
      let v ← keeping value next
      let _ ← keeping value (orThrow (.ok () : Except Error Unit))
      pure (value, v)) old t ↔ value ≠ old ∧ Fails next t := by
  rw [spoils_bind, spoils_keeping]
  constructor
  · rintro (h | ⟨w, u, -, hspoils⟩)
    · exact h
    · exact absurd hspoils not_spoils_pure
  · exact .inl

theorem spoils_settled {x : R.ParseM α α} {next : R.Op β} :
    Spoils (do
      let (outcome, value) ← settle x
      let v ← keeping value next
      let _ ← keeping value (orThrow outcome)
      pure (value, v)) old s ↔
    Spoils x old s ∨ After x (fun value t => value ≠ old ∧ Fails next t) s := by
  rw [spoils_bind]
  cases h : x s with
  | ok a t =>
    have hsettle : Returns (settle x) s (.ok (), a) t := by
      unfold Returns settle
      rw [h]
    rw [or_iff_right (not_spoils_of_returns h), or_iff_right (not_spoils_of_returns hsettle)]
    constructor
    · rintro ⟨p, u, hp, hspoils⟩
      cases hsettle.symm.trans hp
      exact ⟨a, t, h, spoils_moved.mp hspoils⟩
    · rintro ⟨b, u, hb, hspoils⟩
      cases h.symm.trans hb
      exact ⟨(.ok (), a), t, hsettle, spoils_moved.mpr hspoils⟩
  | error failure t =>
    obtain ⟨stop, left⟩ := failure
    have hafter : ¬After x (fun value t => value ≠ old ∧ Fails next t) s := by
      rintro ⟨b, u, hb, -⟩
      cases h.symm.trans hb
    rw [spoils_of_error h, or_iff_left hafter]
    have hstop : (∃ e, stop = .error e) ∨ settle x s = .error ⟨stop, left⟩ t := by
      cases stop with
      | error e => exact .inl ⟨e, rfl⟩
      | _ =>
        refine .inr ?_
        unfold settle
        rw [h]
    rcases hstop with ⟨e, rfl⟩ | hsettle
    · have hsettle : Returns (settle x) s (.error e, left) t := by
        unfold Returns settle
        rw [h]
      rw [or_iff_right (not_spoils_of_returns hsettle)]
      constructor
      · rintro ⟨p, u, hp, hspoils⟩
        cases hsettle.symm.trans hp
        exact spoils_refused.mp hspoils
      · intro hne
        exact ⟨(.error e, left), t, hsettle, spoils_refused.mpr hne⟩
    · rw [spoils_of_error hsettle]
      refine or_iff_left ?_
      rintro ⟨p, u, hp, -⟩
      cases hsettle.symm.trans hp

theorem spoils_readUnframedField {stream : Stream R.State R.InputValue} {name : Bytes}
    {tags : Tags} {v : R.InputValue} {disturbed : R.State → Prop}
    (h : Spoils (read v old) old s ↔ disturbed s) :
    Spoils (R.readUnframedField stream name tags read v old) old s ↔
      R.DisturbedNext tags stream disturbed (read v old) v old s := by
  unfold readUnframedField DisturbedNext
  cases tags.ignore with
  | true => simpa using not_spoils_pure
  | false =>
    simp only [Bool.false_eq_true, if_false, true_and]
    refine spoils_settled.trans (or_congr (spoils_contextOf.trans h) ?_)
    unfold After
    simp only [contextOf, rename_returns]

end

/-! ## All types -/

theorem spoils_readRawFields {R : Backend} (stream : Stream R.State R.InputValue) :
    (fields : Fields) → (v : R.InputValue) → (olds : fields.Values) → (s : R.State) →
    (Spoils (R.readRawFields stream fields v olds) olds s ↔
      R.DisturbedRaw stream fields v olds s)
  | .nil, _, _, _ => iff_of_false not_spoils_pure id
  | .cons _ _ _ rest, _, (_, olds), _ =>
    spoils_inTurn mk_injective2 spoils_readRawFieldNext
      fun field t => spoils_readRawFields stream rest field.2 olds t

/-- Only a class that is read in place can be spoiled. -/
theorem spoils_readReflected {P : Program} {σ : Type} (T : Ty) (old : T.Value) (s : σ)
    {read : T.Value → TargetM Stop σ T.Value T.Value} {disturbed : Prop}
    (h : Spoils (read old) old s ↔ disturbed) :
    Spoils (P.readReflected T read old) old s ↔ P.strategy T = .inPlace ∧ disturbed := by
  unfold Program.readReflected
  cases P.strategy T with
  | copy => exact iff_of_false not_spoils_keeping (by simp)
  | fresh => exact iff_of_false not_spoils_keeping (by simp)
  | inPlace => simpa using h

mutual

theorem spoils_parserRead : (T : Ty) → (tags : Tags) → (v : R.InputValue) → (old : T.Value) →
    (s : R.State) → (Spoils (R.parserRead P T tags v old) old s ↔ R.Disturbed P T tags v old s)
  | .arithmetic _, _, _, _, _ => iff_of_false not_spoils_keeping id
  | .string, _, _, _, _ => iff_of_false not_spoils_keeping id
  | .enumeration _ _ _, _, _, _, _ => iff_of_false not_spoils_keeping id
  | .null _, _, _, _, _ => iff_of_false not_spoils_keeping id
  | .optional _, _, _, _, _ => iff_of_false not_spoils_keeping id
  | .pointer _ _, _, _, _, _ => iff_of_false not_spoils_keeping id
  | .sequence _ _, _, _, _, _ => iff_of_false not_spoils_keeping id
  | .array _ T, _, _, _, _ => spoils_readArray (spoils_parserRead T {})
  | .tuple Ts, _, _, old, _ => spoils_sized fun array t => spoils_readTuple Ts array 0 old t
  | .pair T U, tags, v, old, s =>
    spoils_keeping_bind fun object t => spoils_inTurn mk_injective2
      (spoils_readRequired fun w u => spoils_parserRead T {} w old.1 u)
      fun _ t => spoils_readRequired fun w u => spoils_parserRead U {} w old.2 u
  | .variant _, _, _, _, _ => iff_of_false not_spoils_keeping id
  | .stringMap _, _, _, _, _ => iff_of_false not_spoils_keeping id
  | .entryMap _ _ _, _, _, _, _ => iff_of_false not_spoils_keeping id
  | .object unframed fields, tags, v, old, s => by
    refine spoils_readReflected (.object unframed fields) old s ?_
    cases R.layout unframed tags v with
    | raw stream => exact spoils_readRawFields stream fields v old s
    | refused => exact iff_of_false not_spoils_keeping id
    | unframed stream => exact spoils_readUnframed stream fields v old s
    | framed => exact spoils_keeping_bind fun _ t => spoils_readFields fields v old t
  | .record fields, tags, v, old, s =>
    spoils_readReflected (.record fields) old s
      (spoils_sized fun array t => spoils_readRecord fields array 0 0 old t)

theorem spoils_readTuple : (Ts : Tys) → (array : R.InputArray) → (index : ℕ) →
    (olds : Ts.Values) → (s : R.State) →
    (Spoils (R.readTuple P Ts array index olds) olds s ↔ R.DisturbedTuple P Ts array index olds s)
  | .nil, _, _, _, _ => iff_of_false not_spoils_pure id
  | .cons T Ts, array, index, (old, olds), _ =>
    spoils_inTurn mk_injective2 (spoils_readElement fun w t => spoils_parserRead T {} w old t)
      fun _ t => spoils_readTuple Ts array (index + 1) olds t

theorem spoils_readFields : (fields : Fields) → (v : R.InputValue) → (olds : fields.Values) →
    (s : R.State) →
    (Spoils (R.readFields P fields v olds) olds s ↔ R.DisturbedFields P fields v olds s)
  | .nil, _, _, _ => iff_of_false not_spoils_pure id
  | .cons name tags T rest, v, (old, olds), s => by
    refine spoils_inTurn mk_injective2 ?_ fun _ t => spoils_readFields rest v olds t
    have hflat := spoils_readFlat T v old s
    have hfield :=
      @spoils_readReflectField R _ s old (R.parserRead P T tags) (P.setNull T) name tags
      v _ fun w t => spoils_parserRead T tags w old t
    cases tags.ignore with
    | true => simpa using not_spoils_pure
    | false =>
      cases tags.flat && T.isObject with
      | true => simpa using hflat
      | false => simpa using hfield

theorem spoils_readFlat : (T : Ty) → (v : R.InputValue) → (old : T.Value) → (s : R.State) →
    (Spoils (R.readFlat P T v old) old s ↔ R.DisturbedFlat P T v old s)
  | .object _ fields, v, old, _ => spoils_keeping_bind fun _ t => spoils_readFields fields v old t
  | .arithmetic _, _, _, _ => iff_of_false not_spoils_pure id
  | .string, _, _, _ => iff_of_false not_spoils_pure id
  | .enumeration _ _ _, _, _, _ => iff_of_false not_spoils_pure id
  | .null _, _, _, _ => iff_of_false not_spoils_pure id
  | .optional _, _, _, _ => iff_of_false not_spoils_pure id
  | .pointer _ _, _, _, _ => iff_of_false not_spoils_pure id
  | .sequence _ _, _, _, _ => iff_of_false not_spoils_pure id
  | .array _ _, _, _, _ => iff_of_false not_spoils_pure id
  | .tuple _, _, _, _ => iff_of_false not_spoils_pure id
  | .pair _ _, _, _, _ => iff_of_false not_spoils_pure id
  | .variant _, _, _, _ => iff_of_false not_spoils_pure id
  | .stringMap _, _, _, _ => iff_of_false not_spoils_pure id
  | .entryMap _ _ _, _, _, _ => iff_of_false not_spoils_pure id
  | .record _, _, _, _ => iff_of_false not_spoils_pure id

theorem spoils_readUnframed (stream : Stream R.State R.InputValue) : (fields : Fields) →
    (v : R.InputValue) → (olds : fields.Values) → (s : R.State) →
    (Spoils (R.readUnframed P stream fields v olds) olds s ↔
      R.DisturbedUnframed P stream fields v olds s)
  | .nil, _, _, _ => iff_of_false not_spoils_pure id
  | .cons _ tags T rest, v, (old, olds), s =>
    spoils_inTurn mk_injective2
      (spoils_readUnframedField (spoils_parserRead T tags v old s))
      fun field t => spoils_readUnframed stream rest field.2 olds t

theorem spoils_readRecord : (fields : Fields) → (array : R.InputArray) →
    (index elementIndex : ℕ) → (olds : fields.Values) → (s : R.State) →
    (Spoils (R.readRecord P fields array index elementIndex olds) olds s ↔
      R.DisturbedRecord P fields array index elementIndex olds s)
  | .nil, _, _, _, _, _ => iff_of_false not_spoils_pure id
  | .cons _ tags T rest, array, index, elementIndex, (old, olds), s => by
    refine spoils_inTurn mk_injective2 ?_
      fun _ t => spoils_readRecord rest array (index + 1) _ olds t
    have hfirst := @spoils_readElement R _ s old (R.parserRead P T tags)
      ("Failed to parse reflected element " ++ toString index ++ ": ") array elementIndex _
      fun w t => spoils_parserRead T tags w old t
    cases tags.ignore with
    | true => simpa using not_spoils_pure
    | false => simpa using hfirst

end

/-- **A failed read** leaves its target as it was, unless the input disturbs it: the failed read of
a part follows that of a part, in the same target that is read in place, which got a new value. -/
theorem failed_read_keeps_iff (R : Backend) (P : Program) (T : Ty) (tags : Tags) (v : R.InputValue)
    (old : T.Value) (s : R.State) :
    (∀ failure t, R.parserRead P T tags v old s = .error failure t → failure.left = old) ↔
      ¬R.Disturbed P T tags v old s := by
  rw [← spoils_parserRead]
  constructor
  · rintro h ⟨b, ⟨e, t, hb⟩, hne⟩
    exact hne (h _ _ hb)
  · intro h failure t hfailure
    by_contra hne
    exact h ⟨failure.left, ⟨failure.stop, t, hfailure⟩, hne⟩

/-- A `std::array<bool, 2>` that holds twice true, and the document `[false,null]`: the second
element is refused after the first one has been stored. -/
theorem failed_array_changed : ¬∀ (conv : Json.Conversions) (failure : Failure Stop (Fixed Bool 2))
    (t : Unit), (json conv).parserRead (Program.ofEnv Env.zero) (.array 2 (.arithmetic .bool)) {}
      (.array [.bool false, .null]) ⟨[true, true], rfl⟩ () = .error failure t →
    failure.left = ⟨[true, true], rfl⟩ := by
  intro h
  have heq := h ⟨fun _ => 0, fun _ => 0, fun _ => 0⟩ _ () rfl
  have hvalues : [false, true] = [true, true] := congrArg Subtype.val heq
  exact absurd hvalues (by decide)

end Backend

end NekoProto.Generic
