import NekoProto.Generic.Members

/-!
# Fields that a read skips

A field of the target that is ignored, or that the input does not have and that is skippable, is
not read. After the read it has the value that the working object of its class held, which is a copy
of the target, or the target, or a value-initialized object (`skipped_fields_kept_iff`).

1. The skipped fields of a target (`EachSkipped`): those of its class, of the elements, members and
   fields that are read as parts of it, and of what an optional, a pointer, a variant or a container
   is given. That is read into a value-initialized object, and takes the place of what stood there.
2. By recursion on the type, all of them are found in the result with the values that the working
   objects held.
-/

namespace NekoProto.Generic

open Binary Parsing InPlace Outcome

/-! ## What is said of fields -/

/-- From `s` the computation does not return, or `Q` holds then. -/
def Whenever {ε σ α : Type} (x : EStateM ε σ α) (Q : α → σ → Prop) (s : σ) : Prop :=
  ∀ a t, Returns x s a t → Q a t

/-- Something about a field of a value: how the field is got from the value, if it is there, and
what the working object of its class holds there before the read. -/
abbrev FieldProp (β : Type) := (F : Ty) → (β → Option F.Value) → F.Value → Prop

/-- The fields of a part are fields of the whole. -/
def FieldProp.part {β γ : Type} (Q : FieldProp β) (get : β → γ) : FieldProp γ :=
  fun F field kept => Q F (fun whole => field (get whole)) kept

/-- The fields of a part that the whole need not have. -/
def FieldProp.inside {β γ : Type} (Q : FieldProp β) (get : β → Option γ) : FieldProp γ :=
  fun F field kept => Q F (fun whole => (get whole).bind field) kept

/-- `Q` and `Q'` say the same of the fields that have in `new` what they were held with. -/
def FieldProp.SameAt {β : Type} (Q Q' : FieldProp β) (new : β) : Prop :=
  ∀ F get kept, get new = some kept → (Q F get kept ↔ Q' F get kept)

theorem FieldProp.SameAt.part {β γ : Type} {Q Q' : FieldProp β} {new : β} (h : Q.SameAt Q' new)
    (get : β → γ) : (Q.part get).SameAt (Q'.part get) (get new) := fun F field kept hkept =>
  h F (fun whole => field (get whole)) kept hkept

theorem FieldProp.SameAt.inside {β γ : Type} {Q Q' : FieldProp β} {new : β} (h : Q.SameAt Q' new)
    {get : β → Option γ} {value : γ} (hget : get new = some value) :
    (Q.inside get).SameAt (Q'.inside get) value := by
  intro F field kept hkept
  refine h F (fun whole => (get whole).bind field) kept ?_
  rw [hget]
  exact hkept

/-- The next item of a kind, where `parsed` stands before it. -/
def nextOf {α : Type} (kind : α → Bool) (parsed items : List α) : Option α :=
  (items.filter kind)[(parsed.filter kind).length]?

theorem nextOf_append {α : Type} {kind : α → Bool} {parsed rest : List α} {item : α}
    (h : kind item = true) : nextOf kind parsed (parsed ++ item :: rest) = some item := by
  unfold nextOf
  rw [List.filter_append, List.filter_cons_of_pos h,
    List.getElem?_append_right (Nat.le_refl _), Nat.sub_self]
  rfl

/-- The first one of the values of a fixed array. -/
def Backend.Fixed.head {α : Type} {old : α} {olds : List α}
    (values : Backend.Fixed α (old :: olds).length) : α :=
  values.1.head fun h => by simpa [h] using values.2

/-- The values of a fixed array behind the first one. -/
def Backend.Fixed.tail {α : Type} {old : α} {olds : List α}
    (values : Backend.Fixed α (old :: olds).length) : Backend.Fixed α olds.length :=
  ⟨values.1.tail, by rw [List.length_tail, values.2]; rfl⟩

namespace Backend

variable (R : Backend)

section

variable {α : Type}

/-- The elements of a fixed array. -/
def EachSkippedItem (read : R.InputValue → α → R.ParseM α α)
    (each : R.InputValue → α → FieldProp α → R.State → Prop) (array : R.InputArray) :
    ℕ → (values : List α) → FieldProp (Fixed α values.length) → R.State → Prop
  | _, [], _, _ => True
  | index, old :: olds, Q, s =>
    Whenever (R.arrayElement array index) (fun element => each element old (Q.part Fixed.head)) s ∧
    Whenever (R.readElement ("Failed to parse fixed array element " ++ toString index ++ ": ") array
        index read old)
      (fun _ => EachSkippedItem read each array (index + 1) olds (Q.part Fixed.tail)) s

/-- The items of a container. The place of an item is among those of its kind. -/
def EachSkippedItems (read : R.InputValue → R.Op α)
    (each : R.InputValue → FieldProp α → R.State → Prop) (kind : α → α → Bool)
    (array : R.InputArray) : ℕ → ℕ → List α → FieldProp (List α) → R.State → Prop
  | 0, _, _, _, _ => True
  | count + 1, index, parsed, Q, s =>
    Whenever (R.arrayElement array index) (fun element s => Whenever (read element) (fun item t =>
      (kind item item = true → each element (Q.inside (nextOf (kind item) parsed)) s) ∧
      EachSkippedItems read each kind array count (index + 1) (parsed ++ [item]) Q t) s) s

/-- The members of a string-keyed map. -/
def EachSkippedMembers (read : R.InputValue → R.Op α)
    (each : R.InputValue → FieldProp α → R.State → Prop) :
    List (Bytes × R.InputValue) → FieldProp (Entries α) → R.State → Prop
  | [], _, _ => True
  | (name, field) :: members, Q, s =>
    each field (Q.inside (valueAt name)) s ∧
    Whenever (read field) (fun _ => EachSkippedMembers read each members Q) s

/-- A container of the size that the target asks for. -/
def EachSkippedSized (tags : Tags) (each : R.InputArray → R.State → Prop) (v : R.InputValue) :
    R.State → Prop :=
  Whenever (R.toArray tags v) fun array => Whenever (R.arraySize array) fun _ => each array

/-- A field that has to be there. -/
def EachSkippedRequired (object : R.InputObject) (name : Bytes)
    (each : R.InputValue → R.State → Prop) : R.State → Prop :=
  Whenever (R.objectField {} object name) fun found s => ∀ field, found = .ok field → each field s

/-- The entries of a map. The place of an entry is among those with an equivalent key. -/
def EachSkippedEntries {β : Type} (readKey : R.InputValue → α → R.ParseM α α) (initialKey : α)
    (readValue : R.InputValue → β → R.ParseM β β) (initialValue : β)
    (eachKey : R.InputValue → FieldProp α → R.State → Prop)
    (eachValue : R.InputValue → FieldProp β → R.State → Prop) (equivalent : α → α → Bool)
    (array : R.InputArray) : ℕ → ℕ → List (α × β) → FieldProp (List (α × β)) → R.State → Prop
  | 0, _, _, _, _ => True
  | count + 1, index, parsed, Q, s =>
    Whenever (R.arrayElement array index) (fun element =>
      Whenever (R.toObject {} element) fun object s =>
      Whenever (R.readRequired object keyName
          ("Map entry " ++ toString index ++ " is missing required field 'key'")
          ("Failed to parse map entry " ++ toString index ++ " key: ") readKey initialKey)
        (fun key t =>
          (equivalent key key = true → R.EachSkippedRequired object keyName (fun field =>
            eachKey field (Q.inside fun entries =>
              (nextOf (fun entry => equivalent key entry.1) parsed entries).map Prod.fst)) s) ∧
          Whenever (R.readRequired object valueName
              ("Map entry " ++ toString index ++ " is missing required field 'value'")
              ("Failed to parse map entry " ++ toString index ++ " value: ") readValue initialValue)
            (fun value u =>
              (equivalent key key = true → R.EachSkippedRequired object valueName (fun field =>
                eachValue field (Q.inside fun entries =>
                  (nextOf (fun entry => equivalent key entry.1) parsed entries).map Prod.snd)) t) ∧
              EachSkippedEntries readKey initialKey readValue initialValue eachKey eachValue
                equivalent array count (index + 1) (parsed ++ [(key, value)]) Q u) t) s) s

/-- A field of a reflected class: it is skippable and absent, or it is read. -/
def EachSkippedField (null : Option α) (name : Bytes) (tags : Tags) (absent : Prop)
    (each : R.InputValue → R.State → Prop) (v : R.InputValue) : R.State → Prop :=
  Whenever (R.toObject {} v) fun object =>
    Whenever (R.objectField tags object (tags.fieldName name)) fun found s =>
      match found with
      | .error _ => tags.skippable = true → absent
      | .ok field => Whenever (R.isEmpty tags field)
          (fun empty t => ¬(empty = true ∧ null.isSome = true) → each field t) s

end

/-- The fields of a raw fixed record, which are ignored or numbers. -/
def EachSkippedRaw (stream : Stream R.State R.InputValue) : (fields : Fields) → R.InputValue →
    fields.Values → FieldProp fields.Values → R.State → Prop
  | .nil, _, _, _, _ => True
  | .cons name tags T rest, v, (old, olds), Q, s =>
    (tags.ignore = true → Q T (fun values => some values.1) old) ∧
    Whenever (R.readRawFieldNext stream name tags T v old)
      (fun field => EachSkippedRaw stream rest field.2 olds (Q.part Prod.snd)) s

/-- The fields of a reflected class with names, as it stands in the input. -/
def EachSkippedAs (raw unframed : Stream R.State R.InputValue → R.State → Prop)
    (framed : R.State → Prop) : R.Layout → R.State → Prop
  | .raw stream => raw stream
  | .refused => fun _ => True
  | .unframed stream => unframed stream
  | .framed => framed

variable (M : R.Members) (P : Program)

mutual

/-- `Q` holds of each field that the read of a target skips. -/
def EachSkipped : (T : Ty) → Tags → R.InputValue → T.Value → FieldProp T.Value → R.State → Prop
  | .optional T, tags, v, _, Q, s =>
    Whenever (R.isEmpty tags v) (fun empty t => empty = false →
      EachSkipped T tags v (P.default T) (Q.inside fun value => value) t) s
  | .pointer _ T, tags, v, _, Q, s =>
    Whenever (R.isEmpty tags v) (fun empty t => empty = false →
      EachSkipped T tags v (P.default T) (Q.inside fun value => value) t) s
  | .sequence unique T, tags, v, _, Q, s =>
    Whenever (R.toArray tags v) (fun array => Whenever (R.arraySize array) fun size =>
      R.EachSkippedItems (fun v => dropping (R.parserRead P T {} v (P.default T)))
        (fun v => EachSkipped T {} v (P.default T))
        (fun item other => !unique || P.equivalent T item other) array size 0 [] Q) s
  | .array size T, tags, v, held, Q, s =>
    R.EachSkippedSized tags (fun array => R.EachSkippedItem (R.parserRead P T {})
      (EachSkipped T {}) array 0 held.1
      (Q.part fun values : Fixed T.Value size => ⟨values.1, values.2.trans held.2.symm⟩)) v s
  | .tuple Ts, tags, v, held, Q, s =>
    R.EachSkippedSized tags (fun array => EachSkippedTuple Ts array 0 held Q) v s
  | .pair T U, tags, v, held, Q, s =>
    Whenever (R.toObject tags v) (fun object s =>
      R.EachSkippedRequired object firstName
        (fun field => EachSkipped T {} field held.1 (Q.part Prod.fst)) s ∧
      Whenever (R.readRequired object firstName "Required pair field 'first' is missing"
          "Failed to parse pair field 'first': " (R.parserRead P T {}) held.1)
        (fun _ => R.EachSkippedRequired object secondName
          fun field => EachSkipped U {} field held.2 (Q.part Prod.snd)) s) s
  | .object unframed fields, tags, v, held, Q, s =>
    R.EachSkippedAs
      (fun stream => R.EachSkippedRaw stream fields v (P.working (.object unframed fields) held) Q)
      (fun stream =>
        EachSkippedUnframed stream fields v (P.working (.object unframed fields) held) Q)
      (Whenever (R.toObject tags v) fun _ =>
        EachSkippedFields fields v (P.working (.object unframed fields) held) Q)
      (R.layout unframed tags v) s
  | .record fields, tags, v, held, Q, s =>
    R.EachSkippedSized tags
      (fun array => EachSkippedRecord fields array 0 0 (P.working (.record fields) held) Q) v s
  | .variant Ts, tags, v, _, Q, s =>
    if tags.unionEncoding = .untagged then
      Whenever (R.findAlternatives P Ts tags.payload v 0 0 0)
        (fun found => EachSkippedAlternative Ts tags.payload v found.2 Q) s
    else
      R.EachSkippedSized tags.payload (fun array =>
        Whenever (R.arrayElement array 0) fun element =>
        Whenever (R.readArithmetic (.integer false .w64) {} element) fun index =>
        Whenever (R.arrayElement array 1) fun element =>
          EachSkippedAlternative Ts tags.payload element (BitVec.toNat index) Q) v s
  | .stringMap T, tags, v, _, Q, s =>
    Whenever (R.toObject tags v) (fun object => Whenever (M.members tags object) fun found =>
      R.EachSkippedMembers (fun field => dropping (R.parserRead P T {} field (P.default T)))
        (fun field => EachSkipped T {} field (P.default T)) (found.getD []) Q) s
  | .entryMap _ K T, tags, v, _, Q, s =>
    Whenever (R.toArray tags v) (fun array => Whenever (R.arraySize array) fun size =>
      R.EachSkippedEntries (R.parserRead P K {}) (P.default K) (R.parserRead P T {}) (P.default T)
        (fun field => EachSkipped K {} field (P.default K))
        (fun field => EachSkipped T {} field (P.default T)) (P.equivalent K) array size 0 [] Q) s
  | .arithmetic _, _, _, _, _, _ => True
  | .string, _, _, _, _, _ => True
  | .enumeration _ _ _, _, _, _, _, _ => True
  | .null _, _, _, _, _, _ => True

/-- The alternative that a variant is given. -/
def EachSkippedAlternative : (Ts : Alternatives) → Tags → R.InputValue → ℕ →
    FieldProp Ts.Value → R.State → Prop
  | .one T, tags, v, 0, Q, s => EachSkipped T tags v (P.default T) Q s
  | .one _, _, _, _ + 1, _, _ => True
  | .cons T _, tags, v, 0, Q, s => EachSkipped T tags v (P.default T) (Q.inside Sum.getLeft?) s
  | .cons _ Ts, tags, v, index + 1, Q, s =>
    EachSkippedAlternative Ts tags v index (Q.inside Sum.getRight?) s

/-- The elements of a tuple. -/
def EachSkippedTuple : (Ts : Tys) → R.InputArray → ℕ → Ts.Values → FieldProp Ts.Values →
    R.State → Prop
  | .nil, _, _, _, _, _ => True
  | .cons T Ts, array, index, (old, olds), Q, s =>
    Whenever (R.arrayElement array index)
      (fun element => EachSkipped T {} element old (Q.part Prod.fst)) s ∧
    Whenever (R.readElement ("Failed to parse tuple element " ++ toString index ++ ": ") array index
        (R.parserRead P T {}) old)
      (fun _ => EachSkippedTuple Ts array (index + 1) olds (Q.part Prod.snd)) s

/-- The fields of a reflected class, from an object. -/
def EachSkippedFields : (fields : Fields) → R.InputValue → fields.Values →
    FieldProp fields.Values → R.State → Prop
  | .nil, _, _, _, _ => True
  | .cons name tags T rest, v, (old, olds), Q, s =>
    (if tags.ignore then Q T (fun values => some values.1) old
      else if tags.flat && T.isObject then EachSkippedFlat T v old (Q.part Prod.fst) s
      else R.EachSkippedField (P.setNull T) name tags (Q T (fun values => some values.1) old)
        (fun field => EachSkipped T tags field old (Q.part Prod.fst)) v s) ∧
    Whenever (if tags.ignore then pure old
        else if tags.flat && T.isObject then R.readFlat P T v old
        else R.readReflectField (P.setNull T) name tags (R.parserRead P T tags) v old)
      (fun _ => EachSkippedFields rest v olds (Q.part Prod.snd)) s

/-- The fields of a flattened class. -/
def EachSkippedFlat : (T : Ty) → R.InputValue → T.Value → FieldProp T.Value → R.State → Prop
  | .object _ fields, v, old, Q, s =>
    Whenever (R.toObject {} v) (fun _ => EachSkippedFields fields v old Q) s
  | _, _, _, _, _ => True

/-- The fields of a class without a frame. -/
def EachSkippedUnframed (stream : Stream R.State R.InputValue) : (fields : Fields) →
    R.InputValue → fields.Values → FieldProp fields.Values → R.State → Prop
  | .nil, _, _, _, _ => True
  | .cons name tags T rest, v, (old, olds), Q, s =>
    (if tags.ignore then Q T (fun values => some values.1) old
      else EachSkipped T tags v old (Q.part Prod.fst) s) ∧
    Whenever (R.readUnframedField stream name tags (R.parserRead P T tags) v old)
      (fun field => EachSkippedUnframed stream rest field.2 olds (Q.part Prod.snd)) s

/-- The elements of a reflected class without names. -/
def EachSkippedRecord : (fields : Fields) → R.InputArray → ℕ → ℕ → fields.Values →
    FieldProp fields.Values → R.State → Prop
  | .nil, _, _, _, _, _, _ => True
  | .cons _ tags T rest, array, index, elementIndex, (old, olds), Q, s =>
    (if tags.ignore then Q T (fun values => some values.1) old
      else Whenever (R.arrayElement array elementIndex)
        (fun element => EachSkipped T tags element old (Q.part Prod.fst)) s) ∧
    Whenever (if tags.ignore then pure old
        else R.readElement ("Failed to parse reflected element " ++ toString index ++ ": ") array
          elementIndex (R.parserRead P T tags) old)
      (fun _ => EachSkippedRecord rest array (index + 1)
        (if tags.ignore then elementIndex else elementIndex + 1) olds (Q.part Prod.snd)) s

end

/-! ## Fields of the result -/

section

variable {ε σ α β γ δ χ : Type} {s t u : σ}

theorem whenever_iff {x : EStateM ε σ α} {a : α} {Q : α → σ → Prop} (h : Returns x s a t) :
    Whenever x Q s ↔ Q a t := by
  constructor
  · exact fun hQ => hQ a t h
  · intro hQ b u hb
    obtain ⟨rfl, rfl⟩ := h.unique hb
    exact hQ

theorem whenever_congr {x : EStateM ε σ α} {a : α} {Q Q' : α → σ → Prop} (h : Returns x s a t)
    (hQ : Q a t ↔ Q' a t) : Whenever x Q s ↔ Whenever x Q' s :=
  (whenever_iff h).trans (hQ.trans (whenever_iff h).symm)

/-- Two parts that are read one after the other. -/
theorem inTurn_congr {whole : β → γ → δ} {first : TargetM ε σ β χ} {value : χ → β} {old : γ}
    {second : χ → TargetM ε σ γ γ} {A A' : Prop} {B B' : χ → σ → Prop} {new : δ}
    (h : Returns (inTurn whole first value old second) s new u)
    (hfirst : ∀ a c t, Returns first s a t → new = whole (value a) c → (A ↔ A'))
    (hsecond : ∀ a c t, Returns first s a t → Returns (second a) t c u → new = whole (value a) c →
      (B a t ↔ B' a t)) :
    A ∧ Whenever first B s ↔ A' ∧ Whenever first B' s := by
  obtain ⟨a, t, ha, c, hc, hnew⟩ := inTurn_returns.mp h
  rw [whenever_iff ha, whenever_iff ha]
  exact and_congr (hfirst a c t ha hnew) (hsecond a c t ha hc hnew)

end

section

variable {R} {α : Type} {s t : R.State} {read : R.InputValue → α → R.ParseM α α} {old new : α}
  {each each' : R.InputValue → R.State → Prop} {tags : Tags} {v : R.InputValue}

theorem readElement_congr {text : String} {array : R.InputArray} {index : ℕ}
    (h : Returns (R.readElement text array index read old) s new t)
    (heach : ∀ v s', Returns (read v old) s' new t → (each v s' ↔ each' v s')) :
    Whenever (R.arrayElement array index) each s ↔
      Whenever (R.arrayElement array index) each' s := by
  obtain ⟨element, s', helement, hread⟩ := returns_bind.mp h
  exact whenever_congr (keeping_returns.mp helement) (heach element s' (rename_returns.mp hread))

theorem readArrayItems_congr {each : R.InputValue → α → FieldProp α → R.State → Prop}
    {array : R.InputArray}
    (heach : ∀ v old Q Q' s new t, Returns (read v old) s new t → FieldProp.SameAt Q Q' new →
      (each v old Q s ↔ each v old Q' s)) :
    ∀ {values : List α} {index : ℕ} {Q Q' : FieldProp (Fixed α values.length)} {s t : R.State}
      {new : Fixed α values.length},
    Returns (R.readArrayItems read array index values) s new t → Q.SameAt Q' new →
    (R.EachSkippedItem read each array index values Q s ↔
      R.EachSkippedItem read each array index values Q' s)
  | [], _, _, _, _, _, _, _, _ => Iff.rfl
  | old :: olds, index, Q, Q', s, t, new, h, hQ => by
    refine inTurn_congr h (fun a c u ha hnew => ?_) fun a c u ha hc hnew => ?_
    · subst hnew
      exact readElement_congr ha fun v s' hread => heach _ _ _ _ _ _ _ hread (hQ.part _)
    · subst hnew
      exact readArrayItems_congr heach hc (hQ.part _)

theorem insertItem_eq_some {unique : Bool} {equivalent : α → α → Bool} {parsed next : List α}
    {item : α} (h : insertItem unique equivalent parsed item = some next) :
    next = parsed ++ [item] := by
  unfold insertItem at h
  split_ifs at h
  exact (Option.some.inj h).symm

theorem readItems_extends {read : R.InputValue → R.Op α} {insert : List α → α → Option (List α)}
    (hinsert : ∀ {parsed item next}, insert parsed item = some next → next = parsed ++ [item])
    {array : R.InputArray} : ∀ {count index : ℕ} {parsed new : List α} {s t : R.State},
    Returns (R.readItems read insert array count index parsed) s new t →
    ∃ rest, new = parsed ++ rest
  | 0, _, _, _, _, _, h => ⟨[], by rw [(returns_pure.mp h).1, List.append_nil]⟩
  | count + 1, index, parsed, new, s, t, h => by
    obtain ⟨element, s₁, -, h⟩ := returns_bind.mp h
    obtain ⟨item, s₂, -, h⟩ := returns_bind.mp h
    cases hnext : insert parsed item with
    | none =>
      rw [hnext] at h
      cases h
    | some next =>
      rw [hnext] at h
      obtain ⟨rest, rfl⟩ := readItems_extends hinsert h
      exact ⟨item :: rest, by rw [hinsert hnext, List.append_assoc]; rfl⟩

theorem readItems_congr {read : R.InputValue → R.Op α}
    {each : R.InputValue → FieldProp α → R.State → Prop} {kind : α → α → Bool}
    {insert : List α → α → Option (List α)} {array : R.InputArray}
    (heach : ∀ v Q Q' s item t, Returns (read v) s item t → FieldProp.SameAt Q Q' item →
      (each v Q s ↔ each v Q' s))
    (hinsert : ∀ {parsed item next}, insert parsed item = some next → next = parsed ++ [item]) :
    ∀ {count index : ℕ} {parsed new : List α} {Q Q' : FieldProp (List α)} {s t : R.State},
    Returns (R.readItems read insert array count index parsed) s new t → Q.SameAt Q' new →
    (R.EachSkippedItems read each kind array count index parsed Q s ↔
      R.EachSkippedItems read each kind array count index parsed Q' s)
  | 0, _, _, _, _, _, _, _, _, _ => Iff.rfl
  | count + 1, index, parsed, new, Q, Q', s, t, h, hQ => by
    obtain ⟨element, s₁, helement, h⟩ := returns_bind.mp h
    obtain ⟨item, s₂, hitem, h⟩ := returns_bind.mp h
    have hitem := adaptExcept_returns.mp hitem
    cases hnext : insert parsed item with
    | none =>
      rw [hnext] at h
      cases h
    | some next =>
      rw [hnext] at h
      obtain rfl := hinsert hnext
      obtain ⟨rest, hrest⟩ := readItems_extends hinsert h
      refine whenever_congr helement (whenever_congr hitem ?_)
      refine and_congr (forall_congr' fun hkind => ?_) (readItems_congr heach hinsert h hQ)
      refine heach _ _ _ _ _ _ hitem (hQ.inside ?_)
      rw [hrest, List.append_assoc]
      exact nextOf_append hkind

theorem readMembers_congr {read : R.InputValue → R.Op α}
    {each : R.InputValue → FieldProp α → R.State → Prop}
    (heach : ∀ v Q Q' s value t, Returns (read v) s value t → FieldProp.SameAt Q Q' value →
      (each v Q s ↔ each v Q' s))
    {members : List (Bytes × R.InputValue)} {entries : List (Bytes × α)} {new : Entries α}
    {Q Q' : FieldProp (Entries α)} (hQ : Q.SameAt Q' new) {s t : R.State}
    (h : Reads read members entries s t) (hentries : ∀ entry ∈ entries, entry ∈ new.1) :
    R.EachSkippedMembers read each members Q s ↔ R.EachSkippedMembers read each members Q' s := by
  induction h with
  | nil => exact Iff.rfl
  | cons first rest ih =>
    obtain ⟨hfirst, hrest⟩ := List.forall_mem_cons.mp hentries
    exact and_congr (heach _ _ _ _ _ _ first (hQ.inside (valueAt_of_mem hfirst)))
      (whenever_congr first (ih hrest))

theorem readNullable_congr {text : String} {read : R.Op α} {each each' : R.State → Prop}
    {new : Option α} (h : Returns (R.readNullable text tags read v) s new t)
    (heach : ∀ value s', new = some value → Returns read s' value t → (each s' ↔ each' s')) :
    Whenever (R.isEmpty tags v) (fun empty t => empty = false → each t) s ↔
      Whenever (R.isEmpty tags v) (fun empty t => empty = false → each' t) s := by
  obtain ⟨empty, s', hempty, h⟩ := returns_bind.mp h
  refine whenever_congr hempty (forall_congr' fun hfull => ?_)
  subst hfull
  obtain ⟨value, s₁, hread, h⟩ := returns_bind.mp h
  obtain ⟨rfl, rfl⟩ := returns_pure.mp h
  exact heach value s' rfl (adaptExcept_returns.mp hread)

theorem sized_congr {β γ : Type} {old : β} {new : γ} {size : ℕ} {text : ℕ → String}
    {readAll : R.InputArray → R.ParseM β γ} {each each' : R.InputArray → R.State → Prop}
    (h : Returns (do
      let array ← keeping old (R.toArray tags v)
      let actualSize ← keeping old (R.arraySize array)
      if actualSize ≠ size then keeping old (fail .invalidLength (text actualSize))
      else readAll array) s new t)
    (heach : ∀ array s', Returns (readAll array) s' new t → (each array s' ↔ each' array s')) :
    R.EachSkippedSized tags each v s ↔ R.EachSkippedSized tags each' v s := by
  obtain ⟨array, s₁, harray, h⟩ := returns_bind.mp h
  obtain ⟨actualSize, s₂, hsize, h⟩ := returns_bind.mp h
  rw [keeping_returns] at harray hsize
  refine whenever_congr harray (whenever_congr hsize ?_)
  obtain ⟨-, h⟩ | ⟨-, h⟩ := returns_ite.mp h
  · cases h
  · exact heach array s₂ h

theorem readRequired_congr {object : R.InputObject} {name : Bytes} {missing text : String}
    (h : Returns (R.readRequired object name missing text read old) s new t)
    (heach : ∀ field s', Returns (read field old) s' new t → (each field s' ↔ each' field s')) :
    R.EachSkippedRequired object name each s ↔ R.EachSkippedRequired object name each' s := by
  obtain ⟨found, s', hfound, h⟩ := returns_bind.mp h
  refine whenever_congr (keeping_returns.mp hfound) ?_
  refine forall_congr' fun field => forall_congr' fun hfield => ?_
  subst hfield
  exact heach field s' (rename_returns.mp h)

section

variable {β : Type} {readKey : R.InputValue → α → R.ParseM α α} {initialKey : α}
  {readValue : R.InputValue → β → R.ParseM β β} {initialValue : β} {unique : Bool}
  {equivalent : α → α → Bool} {array : R.InputArray}

theorem readEntries_extends : ∀ {count index : ℕ} {parsed new : List (α × β)} {s t : R.State},
    Returns (R.readEntries readKey initialKey readValue initialValue unique equivalent array count
      index parsed) s new t → ∃ rest, new = parsed ++ rest
  | 0, _, _, _, _, _, h => ⟨[], by rw [(returns_pure.mp h).1, List.append_nil]⟩
  | count + 1, index, parsed, new, s, t, h => by
    obtain ⟨element, s₁, -, h⟩ := returns_bind.mp h
    obtain ⟨object, s₂, -, h⟩ := returns_bind.mp h
    obtain ⟨key, s₃, -, h⟩ := returns_bind.mp h
    obtain ⟨value, s₄, -, h⟩ := returns_bind.mp h
    obtain ⟨-, h⟩ | ⟨-, h⟩ := returns_ite.mp h
    · cases h
    · obtain ⟨rest, rfl⟩ := readEntries_extends h
      exact ⟨(key, value) :: rest, by rw [List.append_assoc]; rfl⟩

theorem readEntries_congr {eachKey : R.InputValue → FieldProp α → R.State → Prop}
    {eachValue : R.InputValue → FieldProp β → R.State → Prop}
    (hkey : ∀ v Q Q' s key t, Returns (readKey v initialKey) s key t → FieldProp.SameAt Q Q' key →
      (eachKey v Q s ↔ eachKey v Q' s))
    (hvalue : ∀ v Q Q' s value t, Returns (readValue v initialValue) s value t →
      FieldProp.SameAt Q Q' value → (eachValue v Q s ↔ eachValue v Q' s)) :
    ∀ {count index : ℕ} {parsed new : List (α × β)} {Q Q' : FieldProp (List (α × β))}
      {s t : R.State},
    Returns (R.readEntries readKey initialKey readValue initialValue unique equivalent array count
      index parsed) s new t → Q.SameAt Q' new →
    (R.EachSkippedEntries readKey initialKey readValue initialValue eachKey eachValue equivalent
        array count index parsed Q s ↔
      R.EachSkippedEntries readKey initialKey readValue initialValue eachKey eachValue equivalent
        array count index parsed Q' s)
  | 0, _, _, _, _, _, _, _, _, _ => Iff.rfl
  | count + 1, index, parsed, new, Q, Q', s, t, h, hQ => by
    obtain ⟨element, s₁, helement, h⟩ := returns_bind.mp h
    obtain ⟨object, s₂, hobject, h⟩ := returns_bind.mp h
    obtain ⟨key, s₃, hreadKey, h⟩ := returns_bind.mp h
    obtain ⟨value, s₄, hreadValue, h⟩ := returns_bind.mp h
    have hreadKey := dropping_returns.mp hreadKey
    have hreadValue := dropping_returns.mp hreadValue
    obtain ⟨-, h⟩ | ⟨-, h⟩ := returns_ite.mp h
    · cases h
    obtain ⟨rest, hrest⟩ := readEntries_extends h
    have hplace : equivalent key key = true →
        nextOf (fun entry => equivalent key entry.1) parsed new = some (key, value) := by
      intro hkind
      rw [hrest, List.append_assoc]
      exact nextOf_append hkind
    refine whenever_congr helement (whenever_congr (adaptExcept_returns.mp hobject) ?_)
    refine whenever_congr hreadKey (and_congr (forall_congr' fun hkind => ?_) ?_)
    · refine readRequired_congr hreadKey fun field s' hread => hkey _ _ _ _ _ _ hread (hQ.inside ?_)
      rw [hplace hkind]
      rfl
    refine whenever_congr hreadValue (and_congr (forall_congr' fun hkind => ?_) ?_)
    · refine readRequired_congr hreadValue fun field s' hread =>
        hvalue _ _ _ _ _ _ hread (hQ.inside ?_)
      rw [hplace hkind]
      rfl
    · exact readEntries_congr hkey hvalue h hQ

end

theorem readReflectField_congr {null : Option α} {name : Bytes} {absent absent' : Prop}
    (h : Returns (R.readReflectField null name tags read v old) s new t)
    (habsent : new = old → (absent ↔ absent'))
    (heach : ∀ field s', Returns (read field old) s' new t → (each field s' ↔ each' field s')) :
    R.EachSkippedField null name tags absent each v s ↔
      R.EachSkippedField null name tags absent' each' v s := by
  obtain ⟨object, s₁, hobject, h⟩ := returns_bind.mp h
  obtain ⟨found, s₂, hfound, h⟩ := returns_bind.mp h
  rw [keeping_returns] at hobject hfound
  refine whenever_congr hobject (whenever_congr hfound ?_)
  cases found with
  | error e =>
    refine forall_congr' fun hskippable => habsent ?_
    unfold readMissingField at h
    rw [if_pos hskippable] at h
    exact (returns_pure.mp h).1
  | ok field =>
    obtain ⟨empty, s₃, hempty, h⟩ := returns_bind.mp h
    refine whenever_congr (keeping_returns.mp hempty) (forall_congr' fun hread => ?_)
    refine heach field s₃ ?_
    cases empty with
    | false => exact rename_returns.mp h
    | true =>
      cases null with
      | none => exact rename_returns.mp h
      | some null => exact absurd ⟨rfl, rfl⟩ hread

theorem settle_returns {x : R.ParseM α α} (h : Returns (settle x) s (.ok (), new) t) :
    Returns x s new t := by
  unfold Returns settle at h
  cases hx : x s with
  | ok a u =>
    rw [hx] at h
    cases h
    exact hx
  | error failure u =>
    rw [hx] at h
    obtain ⟨stop, left⟩ := failure
    cases stop <;> cases h

theorem readUnframedField_returns {stream : Stream R.State R.InputValue} {name : Bytes}
    {next : α × R.InputValue}
    (h : Returns (R.readUnframedField stream name tags read v old) s next t) :
    (tags.ignore = true → next.1 = old) ∧
      (tags.ignore = false → ∃ s', Returns (read v old) s next.1 s') := by
  unfold readUnframedField at h
  cases hignore : tags.ignore with
  | true =>
    rw [if_pos hignore] at h
    refine ⟨fun _ => ?_, fun hfalse => by cases hfalse⟩
    rw [(returns_pure.mp h).1]
  | false =>
    rw [if_neg (by simp [hignore])] at h
    refine ⟨fun htrue => (by cases htrue), fun _ => ?_⟩
    obtain ⟨⟨outcome, value⟩, s₁, hsettle, h⟩ := returns_bind.mp h
    obtain ⟨w, s₂, -, h⟩ := returns_bind.mp h
    obtain ⟨u, s₃, houtcome, h⟩ := returns_bind.mp h
    obtain ⟨rfl, -⟩ := returns_pure.mp h
    rw [keeping_returns] at houtcome
    cases outcome with
    | error e => cases houtcome
    | ok u => exact ⟨s₁, rename_returns.mp (settle_returns hsettle)⟩

theorem readRawFieldNext_returns {stream : Stream R.State R.InputValue} {name : Bytes} {T : Ty}
    {old : T.Value} {next : T.Value × R.InputValue}
    (h : Returns (R.readRawFieldNext stream name tags T v old) s next t)
    (hignore : tags.ignore = true) : next.1 = old := by
  unfold readRawFieldNext at h
  rw [if_pos hignore] at h
  rw [(returns_pure.mp h).1]

end

section

variable {R} {M : R.Members} {P : Program} {s t : R.State} {v : R.InputValue} {tags : Tags}

theorem readReflected_returns {T : Ty} {read : T.Value → R.ParseM T.Value T.Value}
    {old new : T.Value} (h : Returns (P.readReflected T read old) s new t) :
    Returns (read (P.working T old)) s new t := by
  unfold Program.readReflected at h
  unfold Program.working
  cases hstrategy : P.strategy T with
  | copy =>
    rw [hstrategy] at h
    exact dropping_returns.mp (keeping_returns.mp h)
  | fresh =>
    rw [hstrategy] at h
    exact dropping_returns.mp (keeping_returns.mp h)
  | inPlace =>
    rw [hstrategy] at h
    exact h

/-- The fields of a class are those of its working object, as it stands in the input. -/
theorem eachSkipped_object {unframed : Bool} {fields : Fields}
    {held : (Ty.object unframed fields).Value} {Q : FieldProp (Ty.object unframed fields).Value} :
    R.EachSkipped M P (.object unframed fields) tags v held Q s ↔ R.EachSkippedAs
      (fun stream => R.EachSkippedRaw stream fields v (P.working (.object unframed fields) held) Q)
      (fun stream =>
        R.EachSkippedUnframed M P stream fields v (P.working (.object unframed fields) held) Q)
      (Whenever (R.toObject tags v) fun _ =>
        R.EachSkippedFields M P fields v (P.working (.object unframed fields) held) Q)
      (R.layout unframed tags v) s := Iff.rfl

/-- What is read, or what is kept instead. -/
theorem choice_congr {ε σ α : Type} {x y : EStateM ε σ α} {s t : σ} {a : α} {p A A' B B' : Prop}
    [Decidable p] (h : Returns (if p then x else y) s a t) (hx : p → Returns x s a t → (A ↔ A'))
    (hy : ¬p → Returns y s a t → (B ↔ B')) : (if p then A else B) ↔ if p then A' else B' := by
  obtain ⟨hp, h⟩ | ⟨hp, h⟩ := returns_ite.mp h
  · rw [if_pos hp, if_pos hp]
    exact hx hp h
  · rw [if_neg hp, if_neg hp]
    exact hy hp h

theorem eachSkippedRaw_congr {stream : Stream R.State R.InputValue} : (fields : Fields) →
    ∀ {v : R.InputValue} {old new : fields.Values} {Q Q' : FieldProp fields.Values} {s t : R.State},
    Returns (R.readRawFields stream fields v old) s new t → Q.SameAt Q' new →
    (R.EachSkippedRaw stream fields v old Q s ↔ R.EachSkippedRaw stream fields v old Q' s)
  | .nil, _, _, _, _, _, _, _, _, _ => Iff.rfl
  | .cons name tags T rest, v, (old, olds), new, Q, Q', s, t, h, hQ => by
    refine inTurn_congr h (fun a c u ha hnew => ?_) fun a c u ha hc hnew => ?_
    · subst hnew
      exact forall_congr' fun hignore =>
        hQ T _ _ (congrArg some (readRawFieldNext_returns ha hignore))
    · subst hnew
      exact eachSkippedRaw_congr rest hc (hQ.part _)

mutual

/-- **The result** has in the skipped fields what the working objects held there. -/
theorem eachSkipped_congr : (T : Ty) → ∀ {tags : Tags} {v : R.InputValue} {held new : T.Value}
    {Q Q' : FieldProp T.Value} {s t : R.State},
    Returns (R.parserRead P T tags v held) s new t → Q.SameAt Q' new →
    (R.EachSkipped M P T tags v held Q s ↔ R.EachSkipped M P T tags v held Q' s)
  | .array size T, tags, v, held, new, Q, Q', s, t, h, hQ => by
    refine sized_congr h fun array s' hall => ?_
    obtain ⟨values, u, hvalues, hpure⟩ := returns_bind.mp hall
    obtain ⟨rfl, -⟩ := returns_pure.mp hpure
    have heach : ∀ v old Q Q' s new t, Returns (R.parserRead P T {} v old) s new t →
        FieldProp.SameAt Q Q' new →
        (R.EachSkipped M P T {} v old Q s ↔ R.EachSkipped M P T {} v old Q' s) :=
      fun _ _ _ _ _ _ _ hread hsame => eachSkipped_congr T hread hsame
    exact readArrayItems_congr heach (within_returns.mp hvalues) (hQ.part _)
  | .tuple Ts, tags, v, held, new, Q, Q', s, t, h, hQ =>
    sized_congr h fun array s' hall => eachSkippedTuple_congr Ts hall hQ
  | .pair T U, tags, v, held, new, Q, Q', s, t, h, hQ => by
    obtain ⟨object, s', hobject, h⟩ := returns_bind.mp h
    refine whenever_congr (keeping_returns.mp hobject) ?_
    refine inTurn_congr h (fun a c u ha hnew => ?_) fun a c u ha hc hnew => ?_
    · subst hnew
      exact readRequired_congr ha fun _ _ hread => eachSkipped_congr T hread (hQ.part Prod.fst)
    · subst hnew
      exact readRequired_congr hc fun _ _ hread => eachSkipped_congr U hread (hQ.part Prod.snd)
  | .object unframed fields, tags, v, held, new, Q, Q', s, t, h, hQ => by
    rw [eachSkipped_object, eachSkipped_object]
    have hread := readReflected_returns h
    revert hread
    generalize R.layout unframed tags v = layout
    intro hread
    cases layout with
    | raw stream => exact eachSkippedRaw_congr fields hread hQ
    | refused => cases hread
    | unframed stream => exact eachSkippedUnframed_congr fields hread hQ
    | framed =>
      obtain ⟨object, s', hobject, hread⟩ := returns_bind.mp hread
      exact whenever_congr (keeping_returns.mp hobject) (eachSkippedFields_congr fields hread hQ)
  | .record fields, tags, v, held, new, Q, Q', s, t, h, hQ =>
    sized_congr (readReflected_returns h) fun array s' hall =>
      eachSkippedRecord_congr fields hall hQ
  | .arithmetic _, _, _, _, _, _, _, _, _, _, _ => Iff.rfl
  | .string, _, _, _, _, _, _, _, _, _, _ => Iff.rfl
  | .enumeration _ _ _, _, _, _, _, _, _, _, _, _, _ => Iff.rfl
  | .null _, _, _, _, _, _, _, _, _, _, _ => Iff.rfl
  | .optional T, tags, v, held, new, Q, Q', s, t, h, hQ =>
    readNullable_congr (keeping_returns.mp h) fun _ _ hnew hread =>
      eachSkipped_congr T (dropping_returns.mp hread) (hQ.inside hnew)
  | .pointer _ T, tags, v, held, new, Q, Q', s, t, h, hQ =>
    readNullable_congr (keeping_returns.mp h) fun _ _ hnew hread =>
      eachSkipped_congr T (dropping_returns.mp hread) (hQ.inside hnew)
  | .sequence unique T, tags, v, held, new, Q, Q', s, t, h, hQ => by
    obtain ⟨array, s₁, harray, h⟩ := returns_bind.mp (keeping_returns.mp h)
    obtain ⟨size, s₂, hsize, h⟩ := returns_bind.mp h
    have heach : ∀ v Q Q' s item t,
        Returns (dropping (R.parserRead P T {} v (P.default T))) s item t →
        FieldProp.SameAt Q Q' item → (R.EachSkipped M P T {} v (P.default T) Q s ↔
          R.EachSkipped M P T {} v (P.default T) Q' s) :=
      fun _ _ _ _ _ _ hread hsame => eachSkipped_congr T (dropping_returns.mp hread) hsame
    exact whenever_congr harray
      (whenever_congr hsize (readItems_congr heach insertItem_eq_some h hQ))
  | .variant Ts, tags, v, held, new, Q, Q', s, t, h, hQ => by
    show (if _ then _ else _) ↔ if _ then _ else _
    refine choice_congr (keeping_returns.mp h) (fun _ h => ?_) fun _ h => ?_
    · obtain ⟨⟨matchCount, matchIndex⟩, s₁, hfound, h⟩ := returns_bind.mp h
      refine whenever_congr hfound ?_
      obtain ⟨-, h⟩ | ⟨-, h⟩ := returns_ite.mp h
      · cases h
      obtain ⟨-, h⟩ | ⟨-, h⟩ := returns_ite.mp h
      · cases h
      exact eachSkippedAlternative_congr Ts h hQ
    · obtain ⟨array, s₁, harray, h⟩ := returns_bind.mp h
      obtain ⟨size, s₂, hsize, h⟩ := returns_bind.mp h
      refine whenever_congr (adaptExcept_returns.mp harray) (whenever_congr hsize ?_)
      obtain ⟨-, h⟩ | ⟨-, h⟩ := returns_ite.mp h
      · cases h
      obtain ⟨element, s₃, helement, h⟩ := returns_bind.mp h
      obtain ⟨index, s₄, hindex, h⟩ := returns_bind.mp h
      obtain ⟨payload, s₅, hpayload, h⟩ := returns_bind.mp h
      refine whenever_congr helement (whenever_congr (adaptExcept_returns.mp hindex) ?_)
      exact whenever_congr hpayload (eachSkippedAlternative_congr Ts h hQ)
  | .stringMap T, tags, v, held, new, Q, Q', s, t, h, hQ => by
    obtain ⟨object, s₁, found, s₂, hobject, hfound, hreads⟩ :=
      readStringMap_reads M (keeping_returns.mp h)
    have heach : ∀ v Q Q' s value t,
        Returns (dropping (R.parserRead P T {} v (P.default T))) s value t →
        FieldProp.SameAt Q Q' value → (R.EachSkipped M P T {} v (P.default T) Q s ↔
          R.EachSkipped M P T {} v (P.default T) Q' s) :=
      fun _ _ _ _ _ _ hread hsame => eachSkipped_congr T (dropping_returns.mp hread) hsame
    exact whenever_congr hobject
      (whenever_congr hfound (readMembers_congr heach hQ hreads fun _ hmem => hmem))
  | .entryMap unique K T, tags, v, held, new, Q, Q', s, t, h, hQ => by
    obtain ⟨array, s₁, harray, h⟩ := returns_bind.mp (keeping_returns.mp h)
    obtain ⟨size, s₂, hsize, h⟩ := returns_bind.mp h
    have heachKey : ∀ v Q Q' s key t, Returns (R.parserRead P K {} v (P.default K)) s key t →
        FieldProp.SameAt Q Q' key → (R.EachSkipped M P K {} v (P.default K) Q s ↔
          R.EachSkipped M P K {} v (P.default K) Q' s) :=
      fun _ _ _ _ _ _ hread hsame => eachSkipped_congr K hread hsame
    have heachValue : ∀ v Q Q' s value t, Returns (R.parserRead P T {} v (P.default T)) s value t →
        FieldProp.SameAt Q Q' value → (R.EachSkipped M P T {} v (P.default T) Q s ↔
          R.EachSkipped M P T {} v (P.default T) Q' s) :=
      fun _ _ _ _ _ _ hread hsame => eachSkipped_congr T hread hsame
    exact whenever_congr harray
      (whenever_congr hsize (readEntries_congr heachKey heachValue h hQ))

theorem eachSkippedAlternative_congr : (Ts : Alternatives) → ∀ {tags : Tags} {v : R.InputValue}
    {index : ℕ} {new : Ts.Value} {Q Q' : FieldProp Ts.Value} {s t : R.State},
    Returns (R.readAlternative P Ts tags v index) s new t → Q.SameAt Q' new →
    (R.EachSkippedAlternative M P Ts tags v index Q s ↔
      R.EachSkippedAlternative M P Ts tags v index Q' s)
  | .one T, _, _, 0, _, _, _, _, _, h, hQ =>
    eachSkipped_congr T (dropping_returns.mp (adaptExcept_returns.mp h)) hQ
  | .one _, _, _, _ + 1, _, _, _, _, _, _, _ => Iff.rfl
  | .cons T _, _, _, 0, _, _, _, _, _, h, hQ => by
    obtain ⟨value, s', hread, h⟩ := returns_bind.mp h
    obtain ⟨rfl, -⟩ := returns_pure.mp h
    exact eachSkipped_congr T (dropping_returns.mp (adaptExcept_returns.mp hread)) (hQ.inside rfl)
  | .cons _ Ts, _, _, _ + 1, _, _, _, _, _, h, hQ => by
    obtain ⟨value, s', hread, h⟩ := returns_bind.mp h
    obtain ⟨rfl, -⟩ := returns_pure.mp h
    exact eachSkippedAlternative_congr Ts hread (hQ.inside rfl)

theorem eachSkippedTuple_congr : (Ts : Tys) → ∀ {array : R.InputArray} {index : ℕ}
    {old new : Ts.Values} {Q Q' : FieldProp Ts.Values} {s t : R.State},
    Returns (R.readTuple P Ts array index old) s new t → Q.SameAt Q' new →
    (R.EachSkippedTuple M P Ts array index old Q s ↔ R.EachSkippedTuple M P Ts array index old Q' s)
  | .nil, _, _, _, _, _, _, _, _, _, _ => Iff.rfl
  | .cons T Ts, array, index, (old, olds), new, Q, Q', s, t, h, hQ => by
    refine inTurn_congr h (fun a c u ha hnew => ?_) fun a c u ha hc hnew => ?_
    · subst hnew
      exact readElement_congr ha fun _ _ hread => eachSkipped_congr T hread (hQ.part Prod.fst)
    · subst hnew
      exact eachSkippedTuple_congr Ts hc (hQ.part Prod.snd)

theorem eachSkippedFields_congr : (fields : Fields) → ∀ {v : R.InputValue}
    {old new : fields.Values} {Q Q' : FieldProp fields.Values} {s t : R.State},
    Returns (R.readFields P fields v old) s new t → Q.SameAt Q' new →
    (R.EachSkippedFields M P fields v old Q s ↔ R.EachSkippedFields M P fields v old Q' s)
  | .nil, _, _, _, _, _, _, _, _, _ => Iff.rfl
  | .cons name tags T rest, v, (old, olds), new, Q, Q', s, t, h, hQ => by
    refine inTurn_congr h (fun a c u ha hnew => ?_) fun a c u ha hc hnew => ?_
    · subst hnew
      refine choice_congr ha
        (fun _ hkept => hQ T _ _ (congrArg some (returns_pure.mp hkept).1)) fun _ hread => ?_
      refine choice_congr hread (fun _ hflat => eachSkippedFlat_congr T hflat (hQ.part Prod.fst))
        fun _ hfield => ?_
      exact readReflectField_congr hfield (fun hkept => hQ T _ old (congrArg some hkept))
        fun _ _ hread => eachSkipped_congr T hread (hQ.part Prod.fst)
    · subst hnew
      exact eachSkippedFields_congr rest hc (hQ.part Prod.snd)

theorem eachSkippedFlat_congr : (T : Ty) → ∀ {v : R.InputValue} {old new : T.Value}
    {Q Q' : FieldProp T.Value} {s t : R.State},
    Returns (R.readFlat P T v old) s new t → Q.SameAt Q' new →
    (R.EachSkippedFlat M P T v old Q s ↔ R.EachSkippedFlat M P T v old Q' s)
  | .object _ fields, v, old, new, Q, Q', s, t, h, hQ => by
    obtain ⟨object, s', hobject, h⟩ := returns_bind.mp h
    exact whenever_congr (keeping_returns.mp hobject) (eachSkippedFields_congr fields h hQ)
  | .arithmetic _, _, _, _, _, _, _, _, _, _ => Iff.rfl
  | .string, _, _, _, _, _, _, _, _, _ => Iff.rfl
  | .enumeration _ _ _, _, _, _, _, _, _, _, _, _ => Iff.rfl
  | .null _, _, _, _, _, _, _, _, _, _ => Iff.rfl
  | .optional _, _, _, _, _, _, _, _, _, _ => Iff.rfl
  | .pointer _ _, _, _, _, _, _, _, _, _, _ => Iff.rfl
  | .sequence _ _, _, _, _, _, _, _, _, _, _ => Iff.rfl
  | .array _ _, _, _, _, _, _, _, _, _, _ => Iff.rfl
  | .tuple _, _, _, _, _, _, _, _, _, _ => Iff.rfl
  | .pair _ _, _, _, _, _, _, _, _, _, _ => Iff.rfl
  | .variant _, _, _, _, _, _, _, _, _, _ => Iff.rfl
  | .stringMap _, _, _, _, _, _, _, _, _, _ => Iff.rfl
  | .entryMap _ _ _, _, _, _, _, _, _, _, _, _ => Iff.rfl
  | .record _, _, _, _, _, _, _, _, _, _ => Iff.rfl

theorem eachSkippedUnframed_congr {stream : Stream R.State R.InputValue} : (fields : Fields) →
    ∀ {v : R.InputValue} {old new : fields.Values} {Q Q' : FieldProp fields.Values} {s t : R.State},
    Returns (R.readUnframed P stream fields v old) s new t → Q.SameAt Q' new →
    (R.EachSkippedUnframed M P stream fields v old Q s ↔
      R.EachSkippedUnframed M P stream fields v old Q' s)
  | .nil, _, _, _, _, _, _, _, _, _ => Iff.rfl
  | .cons name tags T rest, v, (old, olds), new, Q, Q', s, t, h, hQ => by
    refine inTurn_congr h (fun a c u ha hnew => ?_) fun a c u ha hc hnew => ?_
    · subst hnew
      obtain ⟨hkept, hread⟩ := readUnframedField_returns ha
      cases hignore : tags.ignore with
      | true => exact hQ T _ _ (congrArg some (hkept hignore))
      | false =>
        obtain ⟨s', hread⟩ := hread hignore
        exact eachSkipped_congr T hread (hQ.part Prod.fst)
    · subst hnew
      exact eachSkippedUnframed_congr rest hc (hQ.part Prod.snd)

theorem eachSkippedRecord_congr : (fields : Fields) → ∀ {array : R.InputArray}
    {index elementIndex : ℕ} {old new : fields.Values} {Q Q' : FieldProp fields.Values}
    {s t : R.State},
    Returns (R.readRecord P fields array index elementIndex old) s new t → Q.SameAt Q' new →
    (R.EachSkippedRecord M P fields array index elementIndex old Q s ↔
      R.EachSkippedRecord M P fields array index elementIndex old Q' s)
  | .nil, _, _, _, _, _, _, _, _, _, _, _ => Iff.rfl
  | .cons name tags T rest, array, index, elementIndex, (old, olds), new, Q, Q', s, t, h, hQ => by
    refine inTurn_congr h (fun a c u ha hnew => ?_) fun a c u ha hc hnew => ?_
    · subst hnew
      refine choice_congr ha
        (fun _ hkept => hQ T _ _ (congrArg some (returns_pure.mp hkept).1)) fun _ hread => ?_
      exact readElement_congr hread fun _ _ hread => eachSkipped_congr T hread (hQ.part Prod.fst)
    · subst hnew
      exact eachSkippedRecord_congr rest hc (hQ.part Prod.snd)

end

end

end Backend

/-! ## The main result -/

/-- **A skipped field** has its old value after a successful read, if and only if the working object
of its class held that value: the object was copied, or read in place, or it was value-initialized
to the same value. -/
theorem skipped_fields_kept_iff (R : Backend) (M : R.Members) (P : Program) (T : Ty) (tags : Tags)
    (v : R.InputValue) (old : T.Value) (s : R.State) {new : T.Value} {t : R.State}
    (h : Returns (R.parserRead P T tags v old) s new t) :
    R.EachSkipped M P T tags v old
        (fun _ get _ => ∀ before, get old = some before → get new = some before) s ↔
      R.EachSkipped M P T tags v old
        (fun _ get kept => ∀ before, get old = some before → kept = before) s := by
  refine Backend.eachSkipped_congr T h fun F get kept hkept => ?_
  rw [hkept]
  simp only [Option.some.injEq]

/-- A class that cannot be copied, with a field that may be absent. -/
abbrev moveOnlyClass : Ty :=
  .object false (.cons [0x61] {} (.pointer false (.arithmetic .bool))
    (.cons [0x62] { skippable := true } (.arithmetic (.integer false .w8)) .nil))

/-- The document `{"a":null}` for an object that holds no pointer and a seven: the field `b`
becomes zero. -/
theorem skipped_field_lost : ¬∀ (conv : Json.Conversions) (new : moveOnlyClass.Value) (t : Unit),
    Returns ((json conv).parserRead (Program.ofEnv Env.zero) moveOnlyClass {}
      (.object [([0x61], .null)]) (none, 7#8, ())) () new t →
    (json conv).EachSkipped (jsonMembers conv) (Program.ofEnv Env.zero) moveOnlyClass {}
      (.object [([0x61], .null)]) (none, 7#8, ())
      (fun _ get _ => ∀ before, get (none, 7#8, ()) = some before → get new = some before) () := by
  intro h
  have hskipped := h ⟨fun _ => 0, fun _ => 0, fun _ => 0⟩ (none, 0#8, ()) () rfl
  have hfield := ((hskipped _ () rfl).2 _ () rfl).1 _ () rfl _ () rfl rfl
  have hbits : some 0#8 = some 7#8 := hfield 7#8 rfl
  exact absurd hbits (by decide)

/-- The document `{}` for an optional that holds an object with an ignored seven: the object is
assigned a new one, although its class can be copied. -/
example : ¬(json ⟨fun _ => 0, fun _ => 0, fun _ => 0⟩).EachSkipped (jsonMembers _)
    (Program.ofEnv Env.zero)
    (.optional (.object false (.cons [0x63] { ignore := true } (.arithmetic (.integer false .w8))
      .nil))) {} (.object []) (some (7#8, ()))
    (fun _ get kept => ∀ before, get (some (7#8, ())) = some before → kept = before) () := by
  intro h
  have hfield : 0#8 = 7#8 := (h _ () rfl rfl _ () rfl).1 7#8 rfl
  exact absurd hfield (by decide)

/-- The document that is read from the object and from one that holds a zero. -/
theorem skipped_fields_kept_iff_moveOnly :
    (json ⟨fun _ => 0, fun _ => 0, fun _ => 0⟩).EachSkipped (jsonMembers _)
      (Program.ofEnv Env.zero) moveOnlyClass {} (.object [([0x61], .null)]) (none, 7#8, ())
      (fun _ get _ => ∀ before, get (none, 7#8, ()) = some before →
        get (none, 0#8, ()) = some before) () ↔
    (json ⟨fun _ => 0, fun _ => 0, fun _ => 0⟩).EachSkipped (jsonMembers _)
      (Program.ofEnv Env.zero) moveOnlyClass {} (.object [([0x61], .null)]) (none, 7#8, ())
      (fun _ get kept => ∀ before, get (none, 7#8, ()) = some before → kept = before) () :=
  skipped_fields_kept_iff (json ⟨fun _ => 0, fun _ => 0, fun _ => 0⟩) (jsonMembers _)
    (Program.ofEnv Env.zero) moveOnlyClass {} (.object [([0x61], .null)]) (none, 7#8, ()) ()
    (t := ()) rfl

end NekoProto.Generic
