import NekoProto.Generic.Read
import NekoProto.Json.Read

/-!
# The reader of RapidJSON documents as a reader

The reader of RapidJSON documents has no state (`json`). With it, `parser_read` is the read of JSON
values, with what a failed read leaves in its target (`json_parserRead`).
-/

namespace NekoProto.Generic

open Binary Parsing InPlace
open Json (JsonValue Conversions)
open Binary.Reader (nameText)

/-- The loop of `forEachObjectMember`. -/
def forEachJsonMember {β : Type} (fn : Bytes → JsonValue → β → EStateM Stop Unit (Bool × β)) :
    List (Bytes × JsonValue) → β → EStateM Stop Unit (Bool × β)
  | [], acc => pure (true, acc)
  | (name, field) :: members, acc => do
    let (go, acc) ← fn name field acc
    if go then forEachJsonMember fn members acc else pure (false, acc)

/-- A result of the reader. -/
def ofExcept {α : Type} : Except Error α → EStateM Stop Unit α
  | .ok a => pure a
  | .error e => throw (.error e)

/-- `getFieldFromObject`. -/
def jsonField (name : Bytes) (members : List (Bytes × JsonValue)) : Except Error JsonValue :=
  match JsonValue.findMember name members with
  | some v => .ok v
  | none => .error ⟨.invalidField, "Field " ++ nameText name ++ " not found"⟩

/-- The reader of RapidJSON documents. -/
abbrev json (conv : Conversions) : Backend where
  State := Unit
  InputValue := JsonValue
  InputArray := List JsonValue
  InputObject := List (Bytes × JsonValue)
  toArray _ v := ofExcept (Json.toArray v)
  toObject _ v := ofExcept (Json.toObject v)
  toBasicType T _ v := ofExcept (Json.toBasicType conv T v)
  toBasicString _ v := ofExcept (Json.toBasicString v)
  isEmpty _ v := pure v.isNull
  arraySize array := pure array.length
  arrayElement array index := pure ((array.drop index).headD .null)
  objectField _ object name := pure (jsonField name object)
  forEachObjectMember _ object fn acc := forEachJsonMember fn object acc
  toFixedBasicType := none
  stream := none
  restore := none

/-! ## Reads as computations -/

/-- A read of a JSON value, as a computation on the target. -/
def ofRead {α β : Type} : Json.ParseM β α → TargetM Stop Unit β α
  | .ok a => pure a
  | .error failure => throw ⟨.error failure.error, failure.left⟩

section

variable {α β γ : Type} {x : Except Error α} {y : Json.ParseM β α}

@[simp] theorem ofExcept_bind {f : α → Except Error β} :
    ofExcept (x >>= f) = ofExcept x >>= fun a => ofExcept (f a) := by
  cases x <;> rfl

@[simp] theorem ofRead_bind {f : α → Json.ParseM β γ} :
    ofRead (y >>= f) = ofRead y >>= fun a => ofRead (f a) := by
  cases y <;> rfl

@[simp] theorem ofRead_keeping {old : β} :
    ofRead (Json.keeping old x) = keeping old (ofExcept x) := by
  cases x <;> rfl

@[simp] theorem ofRead_within {whole : β → γ} :
    ofRead (Json.within whole y) = within whole (ofRead y) := by
  cases y <;> rfl

@[simp] theorem ofRead_contextWithin {text : String} {whole : β → γ} :
    ofRead (Json.contextWithin text whole y) = within whole (contextOf text (ofRead y)) := by
  cases y <;> rfl

@[simp] theorem ofExcept_result : ofExcept (Json.result y) = dropping (ofRead y) := by
  cases y <;> rfl

@[simp] theorem ofExcept_context {text : String} :
    ofExcept (Json.context text x) = context text (ofExcept x) := by
  cases x <;> rfl

@[simp] theorem ofExcept_map {f : α → β} :
    ofExcept (x.map f) = ofExcept x >>= fun a => pure (f a) := by
  cases x <;> rfl

theorem ofExcept_bind_ok {f : α → β} :
    (ofExcept x >>= fun a => pure (f a)) = ofExcept (x >>= fun a => .ok (f a)) := by
  cases x <;> rfl

theorem result_bind {f : α → Json.ParseM β γ} :
    Json.result (y >>= f) = Json.result y >>= fun a => Json.result (f a) := by
  cases y <;> rfl

theorem result_keeping {old : β} : Json.result (Json.keeping old x) = x := by
  cases x <;> rfl

theorem result_ofExcept : result (ofExcept x) = pure x := by
  cases x <;> rfl

theorem keeping_pure {old : β} {a : α} :
    keeping old (pure a : EStateM Stop Unit α) = pure a := rfl

theorem within_id {z : TargetM Stop Unit β α} : within id z = z :=
  adaptExcept_id

end

variable {conv : Conversions} {tags : Tags} {v : JsonValue}

/-! ## Scalars -/

theorem json_readArithmetic {T : Arithmetic} :
    (json conv).readArithmetic T tags v = ofExcept (Json.toBasicType conv T v) := by
  unfold Backend.readArithmetic
  cases tags.fixedLengthOf T <;> rfl

theorem json_readEnumeration {signed : Bool} {width : Width}
    {names : List (Bytes × BitVec width.bits)} :
    (json conv).readEnumeration signed width names tags v =
      ofExcept (Json.readEnumeration conv signed width names v) := by
  unfold Backend.readEnumeration Json.readEnumeration
  simp only [result_ofExcept, pure_bind, json_readArithmetic]
  cases Json.toBasicString v with
  | error e => exact ofExcept_context.symm
  | ok name =>
    dsimp only
    cases names.reverse.find? fun entry => entry.1 = name with
    | none => rfl
    | some entry => rfl

theorem json_readNull {monostate : Bool} :
    (json conv).readNull monostate tags v = ofExcept (Json.readNull monostate v) := by
  unfold Backend.readNull Json.readNull
  simp only [pure_bind]
  cases v.isNull with
  | true => rfl
  | false => rfl

theorem json_readNullable {α : Type} {text : String} {read : JsonValue → Except Error α} :
    (json conv).readNullable text tags (ofExcept (read v)) v =
      ofExcept (Json.readNullable text read v) := by
  unfold Backend.readNullable Json.readNullable
  simp only [pure_bind]
  cases v.isNull with
  | true => rfl
  | false =>
    rw [if_neg Bool.false_ne_true, if_neg Bool.false_ne_true, ofExcept_map, ofExcept_context]

/-! ## Arrays -/

section

variable {α : Type} {read : JsonValue → α → TargetM Stop Unit α α}
  {read' : JsonValue → α → Json.ParseM α α} {array : List JsonValue}

theorem drop_cons_eq {index : ℕ} {w : JsonValue} {rest : List JsonValue}
    (h : array.drop index = w :: rest) : array.drop (index + 1) = rest := by
  rw [← List.tail_drop, h, List.tail_cons]

theorem json_readItems {readItem : JsonValue → Except Error α}
    {insert : List α → α → Option (List α)} : ∀ {elements : List JsonValue} {index : ℕ}
    {parsed : List α}, array.drop index = elements →
    (json conv).readItems (fun v => ofExcept (readItem v)) insert array elements.length index
      parsed = ofExcept (Json.readItems readItem insert index elements parsed)
  | [], _, _, _ => rfl
  | w :: rest, index, parsed, h => by
    have ih := fun p => @json_readItems readItem insert rest (index + 1) p (drop_cons_eq h)
    show Backend.readItems _ _ _ _ (rest.length + 1) _ _ = _
    unfold Backend.readItems Json.readItems
    simp only [h, List.headD_cons, pure_bind, ofExcept_bind, ofExcept_context]
    congr 1
    funext item
    cases insert parsed item with
    | none => rfl
    | some parsed => exact ih parsed

theorem json_readSequence {readItem : JsonValue → Except Error α}
    {insert : List α → α → Option (List α)} :
    (json conv).readSequence tags (fun v => ofExcept (readItem v)) insert v =
      ofExcept (Json.readSequence readItem insert v) := by
  unfold Backend.readSequence Json.readSequence
  simp only [ofExcept_bind, pure_bind]
  congr 1
  funext elements
  exact json_readItems rfl

theorem json_readElement {text : String} {index : ℕ} {old : α}
    (h : ∀ v, read v old = ofRead (read' v old)) :
    (json conv).readElement text array index read old =
      contextOf text (ofRead (read' ((array.drop index).headD .null) old)) := by
  unfold Backend.readElement
  exact congrArg (contextOf text) (h _)

theorem json_readArrayItems (h : ∀ v old, read v old = ofRead (read' v old)) :
    ∀ {index : ℕ} {values : List α},
    (json conv).readArrayItems read array index values =
      ofRead (Json.readArrayItems read' index (array.drop index) values)
  | _, [] => rfl
  | index, old :: olds => by
    have ih := @json_readArrayItems h (index + 1) olds
    rw [Backend.readArrayItems_cons]
    unfold Json.readArrayItems
    rw [json_readElement fun v => h v old, ih, ofRead_bind, ofRead_contextWithin, List.tail_drop]
    simp only [ofRead_bind, ofRead_within]
    rfl

theorem json_readArray (h : ∀ v old, read v old = ofRead (read' v old)) {size : ℕ}
    {old : Backend.Fixed α size} :
    (json conv).readArray tags read v old = ofRead (Json.readArray read' v old) := by
  unfold Backend.readArray Json.readArray
  simp only [ofRead_bind, ofRead_keeping]
  congr 1
  funext elements
  simp only [json_readArrayItems h, List.drop_zero]
  by_cases hsize : elements.length = size
  · rw [if_neg (not_not_intro hsize)]
    simp only [ofRead_bind, ofRead_within]
    exact if_neg (not_not_intro hsize)
  · rw [if_pos hsize, ofRead_keeping]
    exact if_pos hsize

end

/-! ## Objects with fixed fields -/

section

variable {α β γ : Type} {read : JsonValue → α → TargetM Stop Unit α α}
  {read' : JsonValue → α → Json.ParseM α α} {readSecond : JsonValue → β → TargetM Stop Unit β β}
  {readSecond' : JsonValue → β → Json.ParseM β β} {members : List (Bytes × JsonValue)}

theorem json_readRequired {name : Bytes} {missing text : String} {whole : α → γ} {old : α}
    (h : ∀ v, read v old = ofRead (read' v old)) :
    within whole ((json conv).readRequired members name missing text read old) =
      ofRead (Json.readRequired whole members name missing text read' old) := by
  unfold Backend.readRequired Json.readRequired
  simp only [keeping_pure, pure_bind]
  unfold jsonField
  cases JsonValue.findMember name members with
  | none => rfl
  | some field =>
    rw [ofRead_contextWithin]
    exact congrArg (fun x => within whole (contextOf text x)) (h field)

theorem json_readPair {old : α × β} (h : ∀ v old, read v old = ofRead (read' v old))
    (hsecond : ∀ v old, readSecond v old = ofRead (readSecond' v old)) :
    (json conv).readPair tags read readSecond v old =
      ofRead (Json.readPair read' readSecond' v old) := by
  unfold Backend.readPair Json.readPair inTurn
  simp only [ofRead_bind, ofRead_keeping]
  congr 1
  funext object
  rw [json_readRequired fun v => h v old.1]
  congr 1
  funext first
  rw [json_readRequired fun v => hsecond v old.2]
  rfl

theorem dropping_readRequired {name : Bytes} {missing text : String} {old : α}
    (h : ∀ v, read v old = ofRead (read' v old)) :
    dropping ((json conv).readRequired members name missing text read old) =
      ofExcept (Json.result (Json.readRequired id members name missing text read' old)) := by
  rw [ofExcept_result, ← json_readRequired h, within_id]

/-! ## Maps -/

theorem json_readEntries {initial : α} {initialSecond : β}
    (h : ∀ v old, read v old = ofRead (read' v old))
    (hsecond : ∀ v old, readSecond v old = ofRead (readSecond' v old)) {unique : Bool}
    {equivalent : α → α → Bool} {array : List JsonValue} : ∀ {elements : List JsonValue}
    {index : ℕ} {parsed : List (α × β)}, array.drop index = elements →
    (json conv).readEntries read initial readSecond initialSecond unique equivalent array
        elements.length index parsed =
      ofExcept (Json.readEntries read' initial readSecond' initialSecond unique equivalent index
        elements parsed)
  | [], _, _, _ => rfl
  | w :: rest, index, parsed, hdrop => by
    have ih := fun p => @json_readEntries initial initialSecond h hsecond unique equivalent array
      rest (index + 1) p (drop_cons_eq hdrop)
    show Backend.readEntries _ _ _ _ _ _ _ _ (rest.length + 1) _ _ = _
    unfold Backend.readEntries Json.readEntries
    simp only [hdrop, List.headD_cons, pure_bind, ofExcept_bind, ofExcept_context,
      dropping_readRequired fun v => h v initial,
      dropping_readRequired fun v => hsecond v initialSecond]
    congr 1
    funext object
    congr 1
    funext key
    congr 1
    funext value
    rw [ih, apply_ite ofExcept]
    rfl

theorem json_readEntryMap {initial : α} {initialSecond : β}
    (h : ∀ v old, read v old = ofRead (read' v old))
    (hsecond : ∀ v old, readSecond v old = ofRead (readSecond' v old)) {unique : Bool}
    {equivalent : α → α → Bool} :
    (json conv).readEntryMap tags read initial readSecond initialSecond unique equivalent v =
      ofExcept (Json.readEntryMap read' initial readSecond' initialSecond unique equivalent v) := by
  unfold Backend.readEntryMap Json.readEntryMap
  simp only [ofExcept_bind, pure_bind]
  congr 1
  funext elements
  exact json_readEntries h hsecond rfl

theorem json_readMember {readValue : JsonValue → Except Error α} {name : Bytes}
    {field : JsonValue} {parsed : Entries α} :
    (json conv).readMember (fun v => ofExcept (readValue v)) name field (.ok (), parsed) =
      pure (match Json.context ("Failed to parse map field '" ++ nameText name ++ "': ")
          (readValue field) with
        | .error e => (false, .error e, parsed)
        | .ok value =>
          match parsed.emplace name value with
          | some parsed => (true, .ok (), parsed)
          | none =>
            (false, .error ⟨.invalidField, "Map contains duplicate key '" ++ nameText name ++ "'"⟩,
              parsed)) := by
  unfold Backend.readMember
  simp only [← ofExcept_context, result_ofExcept, pure_bind]
  cases Json.context ("Failed to parse map field '" ++ nameText name ++ "': ") (readValue field)
    with
  | error e => rfl
  | ok value => cases h : parsed.emplace name value <;> simp only [h]

theorem json_readMembers {readValue : JsonValue → Except Error α} :
    ∀ {members : List (Bytes × JsonValue)} {parsed : Entries α},
    (do
      let (_, outcome, parsed) ← forEachJsonMember
        ((json conv).readMember fun v => ofExcept (readValue v)) members (.ok (), parsed)
      let _ ← orThrow outcome
      pure parsed) = ofExcept (Json.readMembers readValue members parsed)
  | [], _ => rfl
  | (name, field) :: rest, parsed => by
    have ih := fun p => @json_readMembers readValue rest p
    unfold forEachJsonMember Json.readMembers
    rw [json_readMember, pure_bind, ofExcept_bind]
    cases Json.context ("Failed to parse map field '" ++ nameText name ++ "': ") (readValue field)
      with
    | error e => rfl
    | ok value =>
      show _ = ofExcept (match parsed.emplace name value with
        | some parsed => Json.readMembers readValue rest parsed
        | none => _)
      cases h : parsed.emplace name value with
      | none =>
        simp only [h]
        rfl
      | some parsed' =>
        simp only [h]
        exact ih parsed'

theorem json_readStringMap {readValue : JsonValue → Except Error α} :
    (json conv).readStringMap tags (fun v => ofExcept (readValue v)) v =
      ofExcept (Json.readStringMap readValue v) := by
  unfold Backend.readStringMap Json.readStringMap
  rw [ofExcept_bind]
  congr 1
  funext members
  exact json_readMembers

/-! ## Fields of reflected classes -/

theorem json_readReflectField {null : Option α} {name : Bytes} {old : α}
    (h : ∀ v, read v old = ofRead (read' v old)) :
    (json conv).readReflectField null name tags read v old =
      ofRead (Json.readReflectField null name tags read' v old) := by
  unfold Backend.readReflectField Json.readReflectField
  rw [ofRead_bind, ofRead_keeping]
  congr 1
  funext members
  simp only [keeping_pure, pure_bind]
  unfold jsonField
  cases JsonValue.findMember (tags.fieldName name) members with
  | none =>
    unfold Backend.readMissingField Json.readMissingField
    rw [apply_ite ofRead]
    cases null <;> rfl
  | some field =>
    have hread : contextOf ("Failed to parse field '" ++ nameText (tags.fieldName name) ++ "': ")
        (read field old) = ofRead (Json.contextWithin
          ("Failed to parse field '" ++ nameText (tags.fieldName name) ++ "': ") id
          (read' field old)) := by
      rw [ofRead_contextWithin, within_id, h]
    show Backend.readPresentField (json conv) null _ tags read field old =
      ofRead (Json.readPresentField null _ read' field old)
    unfold Backend.readPresentField Json.readPresentField
    simp only [keeping_pure, pure_bind]
    cases field.isNull with
    | false => exact hread
    | true =>
      cases null with
      | none => exact hread
      | some null => rfl

end

/-! ## All types -/

section

variable {env : Env}

theorem json_readReflected {T : Ty} {read : T.Value → TargetM Stop Unit T.Value T.Value}
    {read' : T.Value → Except Error T.Value} {old : T.Value}
    (h : ∀ parsed, dropping (read parsed) = ofExcept (read' parsed)) :
    (Program.ofEnv env).readReflected T read old =
      keeping old (ofExcept (read' (if T.copyable then old else env.default T))) := by
  unfold Program.readReflected Program.strategy
  cases hcopy : T.copyable with
  | true => simp [Program.ofEnv, hcopy, h]
  | false => simp [Program.ofEnv, hcopy, h]

theorem json_tryAlternative {α β : Type} {x : Json.ParseM β α} :
    (json conv).tryAlternative (dropping (ofRead x)) v = pure x.isOk := by
  cases x <;> rfl

/-- Two parts of a target, one after the other. -/
theorem json_inTurn {α β γ : Type} {whole : α → β → γ} {old : β} {first : TargetM Stop Unit α α}
    {x : Json.ParseM γ α} {second : TargetM Stop Unit β β} {y : Json.ParseM β β}
    (hx : within (fun left => whole left old) first = ofRead x) (hy : second = ofRead y) :
    inTurn whole first id old (fun _ => second) = ofRead (do
      let a ← x
      let b ← Json.within (whole a) y
      .ok (whole a b)) := by
  subst hy
  unfold inTurn
  simp only [ofRead_bind, ofRead_within, ← hx]
  rfl

/-- An array of a fixed size. -/
theorem json_sized {α : Type} {size : ℕ} {text : ℕ → String} {old : α}
    {read : List JsonValue → TargetM Stop Unit α α} {read' : List JsonValue → Json.ParseM α α}
    (h : ∀ array, read array = ofRead (read' array)) :
    (do
      let array ← keeping old ((json conv).toArray tags v)
      let actualSize ← keeping old ((json conv).arraySize array)
      if actualSize ≠ size then keeping old (fail .invalidLength (text actualSize))
      else read array) =
    ofRead (do
      let elements ← Json.keeping old (Json.toArray v)
      if elements.length ≠ size then
        Json.keeping old (Json.fail .invalidLength (text elements.length))
      else read' elements) := by
  rw [ofRead_bind, ofRead_keeping]
  congr 1
  funext elements
  rw [apply_ite ofRead, ← h, ofRead_keeping]
  rfl

section

variable {α : Type}

/-- A variant that is read by the alternative that matches. -/
theorem json_untagged {find : EStateM Stop Unit (ℕ × ℕ)} {found : ℕ × ℕ} (hfind : find = pure found)
    {read : ℕ → EStateM Stop Unit α} {read' : ℕ → Except Error α}
    (h : ∀ index, read index = ofExcept (read' index)) :
    (do
      let (matchCount, matchIndex) ← find
      if matchCount = 0 then fail .parseError "No variant alternative matched the input value"
      else if matchCount ≠ 1 then
        fail .parseError "Untagged variant input matches more than one alternative"
      else read matchIndex) =
    ofExcept
      (if found.1 = 0 then Json.fail .parseError "No variant alternative matched the input value"
      else if found.1 ≠ 1 then
        Json.fail .parseError "Untagged variant input matches more than one alternative"
      else read' found.2) := by
  rw [hfind, pure_bind, apply_ite ofExcept, apply_ite ofExcept, ← h]
  rfl

/-- A variant that is read by its index. -/
theorem json_tagged {read : JsonValue → ℕ → EStateM Stop Unit α}
    {read' : JsonValue → ℕ → Except Error α}
    (h : ∀ v index, read v index = ofExcept (read' v index)) :
    (do
      let array ← context "Variant must be encoded as [index, value]: "
        ((json conv).toArray tags v)
      let size ← (json conv).arraySize array
      if size ≠ 2 then fail .invalidLength "Variant array must contain exactly two elements"
      else do
        let element ← (json conv).arrayElement array 0
        let index ← context "Failed to parse variant index: "
          ((json conv).readArithmetic (.integer false .w64) {} element)
        let element ← (json conv).arrayElement array 1
        read element (BitVec.toNat index)) =
    ofExcept (do
      let elements ← Json.context "Variant must be encoded as [index, value]: " (Json.toArray v)
      if elements.length ≠ 2 then
        Json.fail .invalidLength "Variant array must contain exactly two elements"
      else do
        let index ← Json.context "Failed to parse variant index: "
          (Json.toBasicUnsigned .w64 (elements.headD .null))
        read' (elements.tail.headD .null) index.toNat) := by
  rw [ofExcept_bind, ofExcept_context]
  congr 1
  funext elements
  rw [apply_ite ofExcept, ofExcept_bind, ofExcept_context]
  simp only [pure_bind, json_readArithmetic, h, List.drop_zero, List.drop_one]
  rfl

end

mutual

/-- **The read of JSON values** is `parser_read` over the reader of RapidJSON documents. -/
theorem json_parserRead : (T : Ty) → (tags : Tags) → (v : JsonValue) → (old : T.Value) →
    (json conv).parserRead (Program.ofEnv env) T tags v old =
      ofRead (Json.parserRead conv env T tags v old)
  | .arithmetic T, tags, v, old => (congrArg _ json_readArithmetic).trans ofRead_keeping.symm
  | .string, tags, v, old => (congrArg _ ofExcept_context.symm).trans ofRead_keeping.symm
  | .enumeration signed width names, tags, v, old =>
    (congrArg _ json_readEnumeration).trans ofRead_keeping.symm
  | .null monostate, tags, v, old => (congrArg _ json_readNull).trans ofRead_keeping.symm
  | .optional T, tags, v, old => by
    have ih := (congrArg dropping (json_parserRead T tags v (env.default T))).trans
      ofExcept_result.symm
    have hread := (congrArg (fun read => (json conv).readNullable "Failed to parse optional value: "
      tags read v) ih).trans (@json_readNullable conv tags v _ _
        fun v => Json.result (Json.parserRead conv env T tags v (env.default T)))
    exact (congrArg _ hread).trans ofRead_keeping.symm
  | .pointer shared T, tags, v, old => by
    have ih := (congrArg dropping (json_parserRead T tags v (env.default T))).trans
      ofExcept_result.symm
    have hread := (congrArg (fun read => (json conv).readNullable
      (if shared then "Failed to parse shared_ptr value: "
        else "Failed to parse unique_ptr value: ") tags read v) ih).trans
      (@json_readNullable conv tags v _ _
        fun v => Json.result (Json.parserRead conv env T tags v (env.default T)))
    exact (congrArg _ hread).trans ofRead_keeping.symm
  | .sequence unique T, tags, v, old => by
    have ih := funext fun w => (congrArg dropping (json_parserRead T {} w (env.default T))).trans
      ofExcept_result.symm
    have hread := (congrArg (fun read => (json conv).readSequence tags read
      (insertItem unique (env.equivalent T)) v) ih).trans json_readSequence
    exact (congrArg _ hread).trans ofRead_keeping.symm
  | .array size T, tags, v, old => json_readArray (json_parserRead T {})
  | .tuple Ts, tags, v, old => json_sized fun array => json_readTuple Ts array 0 old
  | .pair T U, tags, v, old => json_readPair (json_parserRead T {}) (json_parserRead U {})
  | .variant Ts, tags, v, old => by
    have hfind := json_findAlternatives Ts tags.payload v 0 0 0
    have hread := json_readAlternative Ts tags.payload
    refine Eq.trans (congrArg (keeping old) ?_) ofRead_keeping.symm
    exact (if_congr Iff.rfl (json_untagged hfind fun index => hread v index)
      (json_tagged fun w index => hread w index)).trans (apply_ite ofExcept _ _ _).symm
  | .stringMap T, tags, v, old => by
    have ih := funext fun w => (congrArg dropping (json_parserRead T {} w (env.default T))).trans
      ofExcept_result.symm
    have hread := (congrArg (fun read => (json conv).readStringMap tags read v) ih).trans
      json_readStringMap
    exact (congrArg _ hread).trans ofRead_keeping.symm
  | .entryMap unique K T, tags, v, old =>
    (congrArg _ (json_readEntryMap (json_parserRead K {}) (json_parserRead T {}))).trans
      ofRead_keeping.symm
  | .object unframed fields, tags, v, old => by
    have hread : ∀ parsed : fields.Values, dropping (do
        let _ ← keeping parsed ((json conv).toObject tags v)
        (json conv).readFields (Program.ofEnv env) fields v parsed) =
        ofExcept (do
          let _ ← Json.toObject v
          Json.result (Json.readFields conv env fields v parsed)) := by
      intro parsed
      rw [dropping_keeping_bind, ofExcept_bind, ofExcept_result, json_readFields fields v parsed]
    exact (@json_readReflected env (.object unframed fields) _ _ old hread).trans
      ofRead_keeping.symm
  | .record fields, tags, v, old => by
    have hread : ∀ parsed : fields.Values, dropping (do
        let array ← keeping parsed ((json conv).toArray tags v)
        let actualSize ← keeping parsed ((json conv).arraySize array)
        if actualSize ≠ fields.count then
          keeping parsed (fail .invalidLength ("Expected reflected array with " ++
            toString fields.count ++ " elements, got " ++ toString actualSize))
        else (json conv).readRecord (Program.ofEnv env) fields array 0 0 parsed) =
        ofExcept (do
          let elements ← Json.toArray v
          if elements.length ≠ fields.count then
            Json.fail .invalidLength ("Expected reflected array with " ++ toString fields.count ++
              " elements, got " ++ toString elements.length)
          else Json.result (Json.readRecord conv env fields elements 0 parsed)) := by
      intro parsed
      rw [json_sized fun array => json_readRecord fields array 0 0 parsed, ← ofExcept_result,
        result_bind, result_keeping]
      congr 2
      funext elements
      rw [apply_ite Json.result, result_keeping]
      rfl
    exact (@json_readReflected env (.record fields) _ _ old hread).trans ofRead_keeping.symm

theorem json_readTuple : (Ts : Tys) → (array : List JsonValue) → (index : ℕ) →
    (olds : Ts.Values) → (json conv).readTuple (Program.ofEnv env) Ts array index olds =
      ofRead (Json.readTuple conv env Ts index (array.drop index) olds)
  | .nil, _, _, _ => rfl
  | .cons T Ts, array, index, (old, olds) => by
    have hrest := json_readTuple Ts array (index + 1) olds
    rw [← List.tail_drop] at hrest
    exact json_inTurn ((congrArg _ (json_readElement fun w => json_parserRead T {} w old)).trans
      ofRead_contextWithin.symm) hrest

theorem json_findAlternatives : (Ts : Alternatives) → (tags : Tags) → (v : JsonValue) →
    (index matchCount matchIndex : ℕ) →
    (json conv).findAlternatives (Program.ofEnv env) Ts tags v index matchCount matchIndex =
      pure (Json.findAlternatives conv env Ts tags v index matchCount matchIndex)
  | .one T, tags, v, index, matchCount, matchIndex => by
    have ih := (congrArg (fun read => (json conv).tryAlternative (dropping read) v)
      (json_parserRead T tags v (env.default T))).trans json_tryAlternative
    exact congrArg (· >>= fun found => pure
      (if found then (matchCount + 1, index) else (matchCount, matchIndex))) ih
  | .cons T Ts, tags, v, index, matchCount, matchIndex => by
    have ih := (congrArg (fun read => (json conv).tryAlternative (dropping read) v)
      (json_parserRead T tags v (env.default T))).trans json_tryAlternative
    have hrest := json_findAlternatives Ts tags v (index + 1)
    refine (congrArg (fun x : EStateM Stop Unit Bool => x >>= fun found =>
      if found then (json conv).findAlternatives (Program.ofEnv env) Ts tags v (index + 1)
        (matchCount + 1) index
      else (json conv).findAlternatives (Program.ofEnv env) Ts tags v (index + 1) matchCount
        matchIndex) ih).trans ?_
    rw [pure_bind, hrest, hrest]
    exact (apply_ite pure _ _ _).symm

theorem json_readAlternative : (Ts : Alternatives) → (tags : Tags) → (v : JsonValue) →
    (index : ℕ) → (json conv).readAlternative (Program.ofEnv env) Ts tags v index =
      ofExcept (Json.readAlternative conv env Ts tags v index)
  | .one T, tags, v, 0 => by
    have ih := (congrArg dropping (json_parserRead T tags v (env.default T))).trans
      ofExcept_result.symm
    exact (congrArg (context "Failed to parse variant alternative: ") ih).trans
      ofExcept_context.symm
  | .one _, _, _, _ + 1 => rfl
  | .cons T _, tags, v, 0 => by
    have ih := (congrArg dropping (json_parserRead T tags v (env.default T))).trans
      ofExcept_result.symm
    have hread := (congrArg (context "Failed to parse variant alternative: ") ih).trans
      ofExcept_context.symm
    exact (congrArg (fun x : EStateM Stop Unit T.Value => x >>= fun value => pure (Sum.inl value))
      hread).trans ofExcept_bind_ok
  | .cons _ Ts, tags, v, index + 1 =>
    (congrArg (fun x : EStateM Stop Unit Ts.Value => x >>= fun value => pure (Sum.inr value))
      (json_readAlternative Ts tags v index)).trans ofExcept_bind_ok

theorem json_readFields : (fields : Fields) → (v : JsonValue) → (olds : fields.Values) →
    (json conv).readFields (Program.ofEnv env) fields v olds =
      ofRead (Json.readFields conv env fields v olds)
  | .nil, _, _ => rfl
  | .cons name tags T rest, v, (old, olds) => by
    have hrest := json_readFields rest v olds
    have hflat := json_readFlat T v old
    have hfirst := @json_readReflectField conv tags v _ _ _ T.setNull name old
      fun w => json_parserRead T tags w old
    have hfield : (if tags.ignore then pure old
        else if tags.flat && T.isObject then (json conv).readFlat (Program.ofEnv env) T v old
        else (json conv).readReflectField T.setNull name tags
          ((json conv).parserRead (Program.ofEnv env) T tags) v old) =
        ofRead (if tags.ignore then .ok old
          else if tags.flat && T.isObject then Json.readFlat conv env T v old
          else
            Json.readReflectField T.setNull name tags (Json.parserRead conv env T tags) v old) := by
      rw [apply_ite ofRead, apply_ite ofRead, ← hflat, ← hfirst]
      rfl
    exact json_inTurn ((congrArg _ hfield).trans ofRead_within.symm) hrest

theorem json_readFlat : (T : Ty) → (v : JsonValue) → (old : T.Value) →
    (json conv).readFlat (Program.ofEnv env) T v old = ofRead (Json.readFlat conv env T v old)
  | .object _ fields, v, old => by
    have ih := json_readFields fields v old
    exact ((congrArg _ (funext fun _ => ih))).trans
      (ofRead_bind.trans (congrArg (· >>= fun _ => _) ofRead_keeping)).symm
  | .arithmetic _, _, _ => rfl
  | .string, _, _ => rfl
  | .enumeration _ _ _, _, _ => rfl
  | .null _, _, _ => rfl
  | .optional _, _, _ => rfl
  | .pointer _ _, _, _ => rfl
  | .sequence _ _, _, _ => rfl
  | .array _ _, _, _ => rfl
  | .tuple _, _, _ => rfl
  | .pair _ _, _, _ => rfl
  | .variant _, _, _ => rfl
  | .stringMap _, _, _ => rfl
  | .entryMap _ _ _, _, _ => rfl
  | .record _, _, _ => rfl

theorem json_readRecord : (fields : Fields) → (array : List JsonValue) →
    (index elementIndex : ℕ) → (olds : fields.Values) →
    (json conv).readRecord (Program.ofEnv env) fields array index elementIndex olds =
      ofRead (Json.readRecord conv env fields (array.drop elementIndex) index olds)
  | .nil, _, _, _, _ => rfl
  | .cons _ tags T rest, array, index, elementIndex, (old, olds) => by
    have hrest := fun i => json_readRecord rest array (index + 1) i olds
    have hfirst := fun w => json_parserRead T tags w old
    have hfield : (if tags.ignore then pure old
        else
          (json conv).readElement ("Failed to parse reflected element " ++ toString index ++ ": ")
            array elementIndex ((json conv).parserRead (Program.ofEnv env) T tags) old) =
        if tags.ignore then pure old
        else contextOf ("Failed to parse reflected element " ++ toString index ++ ": ")
          (ofRead
            (Json.parserRead conv env T tags ((array.drop elementIndex).headD .null) old)) := by
      rw [json_readElement hfirst]
    refine (congrArg (fun x => inTurn Prod.mk x id olds fun _ => _) hfield).trans ?_
    show _ = ofRead (if tags.ignore = true then _ else _)
    cases tags.ignore with
    | true => exact json_inTurn (x := .ok old) rfl (hrest elementIndex)
    | false =>
      have h := hrest (elementIndex + 1)
      rw [← List.tail_drop] at h
      exact json_inTurn ofRead_contextWithin.symm h

end

end

end NekoProto.Generic
