import NekoProto.Json.ReadBack

/-!
# Reads that fail for something missing

A read stops at the first thing that is wrong, and where it is a missing required member, or an
item or a key that is there twice, the error is `InvalidField`; every other error is of another
kind. `Lacks` says of an input that this is what is wrong first, by recursion on the type, and
`parserRead_misses_iff` that it says so rightly.
-/

namespace NekoProto.Json

open Binary Parsing JsonValue

/-! ## Errors for what is missing -/

/-- A read that fails with `InvalidField`. -/
def Misses {α : Type} (x : Except Error α) : Prop := ∃ e, x = .error e ∧ e.code = .invalidField

section

variable {α β γ δ ε ζ : Type}

@[simp] theorem misses_ok (a : α) : ¬Misses (.ok a : Except Error α) := by
  rintro ⟨e, h, -⟩
  cases h

@[simp] theorem misses_error {e : Error} :
    Misses (.error e : Except Error α) ↔ e.code = .invalidField := by
  constructor
  · rintro ⟨e', h, hcode⟩
    obtain rfl := Except.error.inj h
    exact hcode
  · exact fun hcode => ⟨e, rfl, hcode⟩

@[simp] theorem misses_fail {code : ErrorCode} {msg : String} :
    Misses (fail code msg : Except Error α) ↔ code = .invalidField := misses_error

@[simp] theorem misses_context {text : String} {x : Except Error α} :
    Misses (context text x) ↔ Misses x := by
  cases x with
  | ok a => exact iff_of_false (misses_ok a) (misses_ok a)
  | error e =>
    rw [context, misses_error, misses_error]

@[simp] theorem misses_map {f : α → β} {x : Except Error α} : Misses (x.map f) ↔ Misses x := by
  cases x with
  | ok a => exact iff_of_false (misses_ok (f a)) (misses_ok a)
  | error e => exact misses_error.trans misses_error.symm

theorem misses_bind {x : Except Error α} {g : α → Except Error β} :
    Misses (x >>= g) ↔ Misses x ∨ ∃ a, x = .ok a ∧ Misses (g a) := by
  cases x with
  | ok a =>
    constructor
    · exact fun h => Or.inr ⟨a, rfl, h⟩
    · rintro (h | ⟨a', ha, h⟩)
      · exact absurd h (misses_ok a)
      · obtain rfl := Except.ok.inj ha
        exact h
  | error e =>
    refine (misses_error.trans misses_error.symm).trans (or_iff_left ?_).symm
    rintro ⟨a, ha, -⟩
    cases ha

@[simp] theorem result_ok (a : α) : result (.ok a : ParseM β α) = .ok a := rfl

@[simp] theorem result_keeping (old : β) (x : Except Error α) : result (keeping old x) = x := by
  cases x <;> rfl

@[simp] theorem result_within (whole : α → β) (x : ParseM α γ) :
    result (within whole x) = result x := by
  cases x <;> rfl

@[simp] theorem result_contextWithin (text : String) (whole : α → β) (x : ParseM α γ) :
    result (contextWithin text whole x) = context text (result x) := by
  cases x <;> rfl

theorem result_bind (x : ParseM β α) (g : α → ParseM β γ) :
    result (x >>= g) = result x >>= fun a => result (g a) := by
  cases x <;> rfl

/-- The first part, or the second one after it. -/
theorem misses_result_bind {x : ParseM β α} {g : α → ParseM β γ} :
    Misses (result (x >>= g)) ↔
      Misses (result x) ∨ ∃ a, x = .ok a ∧ Misses (result (g a)) := by
  rw [result_bind, misses_bind]
  exact or_congr Iff.rfl (exists_congr fun a => and_congr result_eq_ok Iff.rfl)

theorem misses_keeping {old : β} {x : Except Error α} :
    Misses (result (keeping old x)) ↔ Misses x := by
  rw [result_keeping]

theorem misses_keeping_bind {old : β} {x : Except Error α} {g : α → ParseM β γ} :
    Misses (result (keeping old x >>= g)) ↔ Misses (x >>= fun a => result (g a)) := by
  rw [result_bind, result_keeping]

theorem misses_within {whole : α → β} {x : ParseM α γ} :
    Misses (result (within whole x)) ↔ Misses (result x) := by
  rw [result_within]

theorem misses_contextWithin {text : String} {whole : α → β} {x : ParseM α γ} :
    Misses (result (contextWithin text whole x)) ↔ Misses (result x) := by
  rw [result_contextWithin, misses_context]

/-- The end of a read. -/
theorem misses_bind_ok {x : Except Error α} {g : α → β} :
    Misses (x >>= fun a => (.ok (g a) : Except Error β)) ↔ Misses x := by
  rw [misses_bind]
  refine or_iff_left ?_
  rintro ⟨a, -, h⟩
  exact misses_ok _ h

/-- A length that is checked. -/
theorem misses_sized {length size : ℕ} {msg : String} {old : β} {x : ParseM β α} {p : Prop}
    (hx : Misses (result x) ↔ p) :
    Misses (result (if length ≠ size then keeping old (fail .invalidLength msg) else x)) ↔
      length = size ∧ p := by
  by_cases hlength : length = size
  · rw [if_neg (not_not.mpr hlength), and_iff_right hlength, hx]
  · rw [if_pos hlength, result_keeping]
    exact iff_of_false (by simp) fun h => hlength h.1

/-- Two parts that are read one after the other: the first one, or the second one where the first
one is read. -/
theorem misses_parts {x : ParseM γ α} {x' : ParseM ε α} {y : ParseM δ β} {whole : α → δ → γ}
    {both : α → β → ζ} {p q : Prop} (hp : Misses (result x) ↔ p)
    (hx : ∀ {a}, x = .ok a ↔ x' = .ok a) (hq : Misses (result y) ↔ q) :
    Misses (result (x >>= fun a => within (whole a) y >>= fun b =>
      (.ok (both a b) : ParseM γ ζ))) ↔ p ∨ (∃ a, x' = .ok a) ∧ q := by
  rw [misses_result_bind, hp, ← exists_and_right]
  refine or_congr Iff.rfl (exists_congr fun a => and_congr hx ?_)
  rw [misses_result_bind, result_within, hq]
  refine or_iff_left ?_
  rintro ⟨b, -, h⟩
  exact misses_ok _ h

end

theorem isOk_iff {ε α : Type} {x : Except ε α} : x.isOk = true ↔ ∃ a, x = .ok a := by
  cases x with
  | error e =>
    refine iff_of_false Bool.false_ne_true ?_
    rintro ⟨a, h⟩
    cases h
  | ok a => exact iff_of_true rfl ⟨a, rfl⟩

/-! ## The reader -/

theorem toArray_misses (v : JsonValue) : ¬Misses (toArray v) := by
  cases v <;> simp [toArray]

theorem toObject_misses (v : JsonValue) : ¬Misses (toObject v) := by
  cases v <;> simp [toObject]

theorem toBasicUnsigned_misses (width : Width) (v : JsonValue) :
    ¬Misses (toBasicUnsigned width v) := by
  unfold toBasicUnsigned
  split
  · split_ifs <;> simp
  · simp

theorem toBasicSigned_misses (width : Width) (v : JsonValue) : ¬Misses (toBasicSigned width v) := by
  unfold toBasicSigned
  split
  · split_ifs <;> simp
  · simp

theorem toBasicDouble_misses (conv : Conversions) (v : JsonValue) :
    ¬Misses (toBasicDouble conv v) := by
  cases v <;> simp [toBasicDouble]

theorem toBasicType_misses (conv : Conversions) (T : Arithmetic) (v : JsonValue) :
    ¬Misses (toBasicType conv T v) := by
  cases T with
  | bool => cases v <;> simp [toBasicType, toBasicBool]
  | integer signed width =>
    cases signed with
    | true => exact toBasicSigned_misses width v
    | false => exact toBasicUnsigned_misses width v
  | float => exact fun h => toBasicDouble_misses conv v (misses_map.mp h)
  | double => exact toBasicDouble_misses conv v

theorem toBasicString_misses (v : JsonValue) : ¬Misses (toBasicString v) := by
  cases v <;> simp [toBasicString]

theorem readEnumeration_misses (conv : Conversions) (signed : Bool) (width : Width)
    (names : List (Bytes × BitVec width.bits)) (v : JsonValue) :
    ¬Misses (readEnumeration conv signed width names v) := by
  unfold readEnumeration
  split
  · split <;> simp
  · rw [misses_context]
    exact toBasicType_misses conv _ v

theorem readNull_misses (monostate : Bool) (v : JsonValue) : ¬Misses (readNull monostate v) := by
  unfold readNull
  split_ifs <;> simp

theorem readNullable_misses {α : Type} {text : String} {read : JsonValue → Except Error α}
    {v : JsonValue} :
    Misses (readNullable text read v) ↔ v.isNull = false ∧ Misses (read v) := by
  unfold readNullable
  cases v.isNull <;> simp

/-! ## Arrays -/

section

variable {α : Type}

/-- An item lacks something, or is refused, and the ones before it are read. -/
def LacksItems (lacks : JsonValue → Prop) (read : JsonValue → Except Error α)
    (insert : List α → α → Option (List α)) : List JsonValue → List α → Prop
  | [], _ => False
  | v :: elements, parsed =>
    lacks v ∨ ∃ item, read v = .ok item ∧
      ∀ parsed', insert parsed item = some parsed' →
        LacksItems lacks read insert elements parsed'

theorem readItems_misses_iff {lacks : JsonValue → Prop} {read : JsonValue → Except Error α}
    {insert : List α → α → Option (List α)} (hread : ∀ v, Misses (read v) ↔ lacks v)
    (elements : List JsonValue) (index : ℕ) (parsed : List α) :
    Misses (readItems read insert index elements parsed) ↔
      LacksItems lacks read insert elements parsed := by
  induction elements generalizing index parsed with
  | nil => exact iff_of_false (misses_ok parsed) id
  | cons v elements ih =>
    rw [readItems, misses_bind, misses_context, hread v]
    refine or_congr Iff.rfl (exists_congr fun item => and_congr context_eq_ok ?_)
    cases insert parsed item with
    | none =>
      exact iff_of_true (misses_fail.mpr rfl) fun _ h => absurd h.symm (Option.some_ne_none _)
    | some parsed' =>
      refine (ih (index + 1) parsed').trans ⟨fun h parsed'' heq => ?_, fun h => h parsed' rfl⟩
      obtain rfl := Option.some.inj heq
      exact h

/-- What an array is, if the input is one. -/
def LacksSequence (lacks : List JsonValue → Prop) (v : JsonValue) : Prop :=
  ∃ elements, v = .array elements ∧ lacks elements

theorem toArray_eq_ok {v : JsonValue} {elements : List JsonValue} :
    toArray v = .ok elements ↔ v = .array elements := by
  cases v <;> simp [toArray]

theorem misses_toArray {g : List JsonValue → Except Error α} {lacks : List JsonValue → Prop}
    (hg : ∀ elements, Misses (g elements) ↔ lacks elements) (v : JsonValue) :
    Misses (toArray v >>= g) ↔ LacksSequence lacks v := by
  rw [misses_bind, or_iff_right (toArray_misses v)]
  exact exists_congr fun elements => and_congr toArray_eq_ok (hg elements)

/-- The elements of a fixed array. -/
def LacksArray (lacks : JsonValue → α → Prop) (read : JsonValue → α → ParseM α α) :
    List JsonValue → List α → Prop
  | _, [] => False
  | elements, old :: olds =>
    lacks (elements.headD .null) old ∨
      (∃ value, read (elements.headD .null) old = .ok value) ∧
        LacksArray lacks read elements.tail olds

theorem readArrayItems_misses_iff {lacks : JsonValue → α → Prop}
    {read : JsonValue → α → ParseM α α}
    (hread : ∀ v old, Misses (result (read v old)) ↔ lacks v old) (olds : List α) (index : ℕ)
    (elements : List JsonValue) :
    Misses (result (readArrayItems read index elements olds)) ↔
      LacksArray lacks read elements olds := by
  induction olds generalizing index elements with
  | nil => exact iff_of_false (misses_ok _) id
  | cons old olds ih =>
    rw [readArrayItems, misses_result_bind, result_contextWithin, misses_context, hread]
    refine or_congr Iff.rfl ?_
    constructor
    · rintro ⟨value, hvalue, h⟩
      rw [misses_result_bind, result_within, ih] at h
      refine ⟨⟨value, contextWithin_eq_ok.mp hvalue⟩, h.resolve_right ?_⟩
      rintro ⟨values, -, h⟩
      exact misses_ok _ h
    · rintro ⟨⟨value, hvalue⟩, h⟩
      refine ⟨value, contextWithin_eq_ok.mpr hvalue, ?_⟩
      rw [misses_result_bind, result_within, ih]
      exact Or.inl h

theorem readArray_misses_iff {size : ℕ} {lacks : JsonValue → α → Prop}
    {read : JsonValue → α → ParseM α α}
    (hread : ∀ v old, Misses (result (read v old)) ↔ lacks v old) (v : JsonValue)
    (old : FixedArray α size) :
    Misses (result (readArray read v old)) ↔
      LacksSequence (fun elements => elements.length = size ∧
        LacksArray lacks read elements old.1) v := by
  rw [readArray, result_bind, result_keeping]
  refine misses_toArray (fun elements => misses_sized ?_) v
  rw [result_bind, result_within]
  exact misses_bind_ok.trans (readArrayItems_misses_iff hread old.1 0 elements)

end

/-! ## Objects with fixed fields and maps -/

/-- A member that has to be there. -/
def LacksMember (lacks : JsonValue → Prop) (members : List (Bytes × JsonValue)) (name : Bytes) :
    Prop :=
  ∀ field, findMember name members = some field → lacks field

/-- What an object is, if the input is one. -/
def LacksObject (lacks : List (Bytes × JsonValue) → Prop) (v : JsonValue) : Prop :=
  ∃ members, v = .object members ∧ lacks members

theorem misses_toObject {α : Type} {g : List (Bytes × JsonValue) → Except Error α}
    {lacks : List (Bytes × JsonValue) → Prop} (hg : ∀ members, Misses (g members) ↔ lacks members)
    (v : JsonValue) : Misses (toObject v >>= g) ↔ LacksObject lacks v := by
  rw [misses_bind, or_iff_right (toObject_misses v)]
  exact exists_congr fun members => and_congr toObject_eq_ok (hg members)

theorem readRequired_misses_iff {α β : Type} {whole : α → β}
    {members : List (Bytes × JsonValue)} {name : Bytes} {missing text : String}
    {read : JsonValue → α → ParseM α α} {old : α} {lacks : JsonValue → Prop}
    (hread : ∀ v, Misses (result (read v old)) ↔ lacks v) :
    Misses (result (readRequired whole members name missing text read old)) ↔
      LacksMember lacks members name := by
  unfold readRequired LacksMember
  cases findMember name members with
  | none =>
    simp only [result_keeping]
    exact iff_of_true (misses_fail.mpr rfl) fun _ h => absurd h.symm (Option.some_ne_none _)
  | some field =>
    simp only [result_contextWithin, misses_context, hread]
    exact ⟨fun h field' heq => Option.some.inj heq ▸ h, fun h => h field rfl⟩

section

variable {α β : Type}

/-- Two members of which the second one is read after the first one. -/
def LacksPair (firstName : Bytes) (lacksFirst : JsonValue → Prop)
    (readFirst : JsonValue → α → ParseM α α) (old : α) (secondName : Bytes)
    (lacksSecond : JsonValue → Prop) (members : List (Bytes × JsonValue)) : Prop :=
  LacksMember lacksFirst members firstName ∨
    (∃ field, findMember firstName members = some field ∧
      ∃ first, readFirst field old = .ok first) ∧
      LacksMember lacksSecond members secondName

theorem readPair_misses_iff {lacksFirst : JsonValue → α → Prop} {lacksSecond : JsonValue → β → Prop}
    {readFirst : JsonValue → α → ParseM α α} {readSecond : JsonValue → β → ParseM β β}
    (hfirst : ∀ v old, Misses (result (readFirst v old)) ↔ lacksFirst v old)
    (hsecond : ∀ v old, Misses (result (readSecond v old)) ↔ lacksSecond v old)
    (v : JsonValue) (old : α × β) :
    Misses (result (readPair readFirst readSecond v old)) ↔
      LacksObject (LacksPair firstName (fun w => lacksFirst w old.1) readFirst old.1 secondName
        fun w => lacksSecond w old.2) v := by
  rw [readPair, result_bind, result_keeping]
  refine misses_toObject (fun members => ?_) v
  rw [misses_result_bind, readRequired_misses_iff fun v => hfirst v old.1]
  refine or_congr Iff.rfl ?_
  have hrest : ∀ first, Misses (result (readRequired (fun left => (first, left)) members secondName
      "Required pair field 'second' is missing" "Failed to parse pair field 'second': " readSecond
      old.2 >>= fun second => (.ok (first, second) : ParseM (α × β) (α × β)))) ↔
        LacksMember (fun w => lacksSecond w old.2) members secondName := by
    intro first
    rw [misses_result_bind, readRequired_misses_iff fun v => hsecond v old.2]
    refine or_iff_left ?_
    rintro ⟨second, -, h⟩
    exact misses_ok _ h
  constructor
  · rintro ⟨first, hread, h⟩
    obtain ⟨field, hfield, hok⟩ := readRequired_eq_ok.mp hread
    exact ⟨⟨field, hfield, first, hok⟩, (hrest first).mp h⟩
  · rintro ⟨⟨field, hfield, first, hok⟩, h⟩
    exact ⟨first, readRequired_eq_ok.mpr ⟨field, hfield, hok⟩, (hrest first).mpr h⟩

/-- An entry lacks its key or its value, or something in them, or has a key that is there already,
and the ones before it are read. -/
def LacksEntries (lacksKey lacksValue : JsonValue → Prop) (readKey : JsonValue → α → ParseM α α)
    (initialKey : α) (readValue : JsonValue → β → ParseM β β) (initialValue : β) (unique : Bool)
    (equivalent : α → α → Bool) : List JsonValue → List (α × β) → Prop
  | [], _ => False
  | v :: elements, parsed =>
    LacksObject (LacksPair keyName lacksKey readKey initialKey valueName lacksValue) v ∨
      ∃ entry, ReadsEntry readKey initialKey readValue initialValue v entry ∧
        ((unique && parsed.any fun other => equivalent entry.1 other.1) = true ∨
          LacksEntries lacksKey lacksValue readKey initialKey readValue initialValue unique
            equivalent elements (parsed ++ [entry]))

theorem readEntries_misses_iff {lacksKey lacksValue : JsonValue → Prop}
    {readKey : JsonValue → α → ParseM α α} {initialKey : α}
    {readValue : JsonValue → β → ParseM β β} {initialValue : β} {unique : Bool}
    {equivalent : α → α → Bool}
    (hkey : ∀ v, Misses (result (readKey v initialKey)) ↔ lacksKey v)
    (hvalue : ∀ v, Misses (result (readValue v initialValue)) ↔ lacksValue v)
    (elements : List JsonValue) (index : ℕ) (parsed : List (α × β)) :
    Misses (readEntries readKey initialKey readValue initialValue unique equivalent index elements
        parsed) ↔
      LacksEntries lacksKey lacksValue readKey initialKey readValue initialValue unique equivalent
        elements parsed := by
  induction elements generalizing index parsed with
  | nil => exact iff_of_false (misses_ok parsed) id
  | cons v elements ih =>
    rw [readEntries]
    simp only [misses_bind, misses_context, readRequired_misses_iff hkey,
      readRequired_misses_iff hvalue, context_eq_ok, toObject_eq_ok, result_eq_ok,
      readRequired_eq_ok, or_iff_right (toObject_misses v)]
    constructor
    · rintro ⟨members, rfl, hmember | ⟨key, hreadKey, hmember | ⟨value, hreadValue, hrest⟩⟩⟩
      · exact Or.inl ⟨members, rfl, Or.inl hmember⟩
      · obtain ⟨field, hfield, hread⟩ := hreadKey
        exact Or.inl ⟨members, rfl, Or.inr ⟨⟨field, hfield, key, hread⟩, hmember⟩⟩
      · refine Or.inr ⟨(key, value), ⟨members, rfl, hreadKey, hreadValue⟩, ?_⟩
        split_ifs at hrest with hduplicate
        · exact Or.inl hduplicate
        · exact Or.inr ((ih _ _).mp hrest)
    · rintro (⟨members, rfl, hmember | ⟨⟨field, hfield, key, hread⟩, hmember⟩⟩ |
        ⟨entry, ⟨members, rfl, hreadKey, hreadValue⟩, hrest⟩)
      · exact ⟨members, rfl, Or.inl hmember⟩
      · exact ⟨members, rfl, Or.inr ⟨key, ⟨field, hfield, hread⟩, Or.inl hmember⟩⟩
      · refine ⟨members, rfl, Or.inr ⟨entry.1, hreadKey, Or.inr ⟨entry.2, hreadValue, ?_⟩⟩⟩
        split_ifs with hduplicate
        · exact misses_fail.mpr rfl
        · exact (ih _ _).mpr (hrest.resolve_left hduplicate)

/-- A member lacks something, or has a name that is there already, and the ones before it are
read. -/
def LacksMembers (lacks : JsonValue → Prop) (read : JsonValue → Except Error α) :
    List (Bytes × JsonValue) → Entries α → Prop
  | [], _ => False
  | (name, field) :: members, parsed =>
    lacks field ∨ ∃ value, read field = .ok value ∧
      ∀ parsed', parsed.emplace name value = some parsed' →
        LacksMembers lacks read members parsed'

theorem readMembers_misses_iff {lacks : JsonValue → Prop} {read : JsonValue → Except Error α}
    (hread : ∀ v, Misses (read v) ↔ lacks v) (members : List (Bytes × JsonValue))
    (parsed : Entries α) :
    Misses (readMembers read members parsed) ↔ LacksMembers lacks read members parsed := by
  induction members generalizing parsed with
  | nil => exact iff_of_false (misses_ok parsed) id
  | cons member members ih =>
    obtain ⟨name, field⟩ := member
    rw [readMembers, misses_bind, misses_context, hread field]
    refine or_congr Iff.rfl (exists_congr fun value => and_congr context_eq_ok ?_)
    cases parsed.emplace name value with
    | none =>
      exact iff_of_true (misses_fail.mpr rfl) fun _ h => absurd h.symm (Option.some_ne_none _)
    | some parsed' =>
      refine (ih parsed').trans ⟨fun h parsed'' heq => ?_, fun h => h parsed' rfl⟩
      obtain rfl := Option.some.inj heq
      exact h

end

/-! ## Fields of reflected classes -/

section

variable {α : Type}

/-- A field is missing, where it may not be, or lacks something. -/
def LacksField (null : Option α) (name : Bytes) (tags : Tags) (lacks : JsonValue → Prop) :
    JsonValue → Prop :=
  LacksObject fun members =>
    match findMember (tags.fieldName name) members with
    | none => tags.skippable = false ∧ null = none
    | some field => ¬(field.isNull = true ∧ null.isSome = true) ∧ lacks field

theorem readMissingField_misses_iff {null : Option α} {name : Bytes} {tags : Tags} {old : α} :
    Misses (result (readMissingField null name tags old)) ↔
      tags.skippable = false ∧ null = none := by
  unfold readMissingField
  cases tags.skippable with
  | true => exact iff_of_false (misses_ok old) fun h => Bool.noConfusion h.1
  | false =>
    cases null with
    | none =>
      refine iff_of_true ?_ ⟨rfl, rfl⟩
      rw [if_neg Bool.false_ne_true, result_keeping]
      exact misses_fail.mpr rfl
    | some null => exact iff_of_false (misses_ok null) fun h => Option.some_ne_none null h.2

theorem readPresentField_misses_iff {null : Option α} {name : Bytes}
    {read : JsonValue → α → ParseM α α} {field : JsonValue} {old : α} :
    Misses (result (readPresentField null name read field old)) ↔
      ¬(field.isNull = true ∧ null.isSome = true) ∧ Misses (result (read field old)) := by
  unfold readPresentField
  cases field.isNull with
  | true =>
    cases null with
    | none => simp
    | some null => simp
  | false => simp

theorem readReflectField_misses_iff {null : Option α} {name : Bytes} {tags : Tags}
    {read : JsonValue → α → ParseM α α} {old : α} {lacks : JsonValue → Prop}
    (hread : ∀ v, Misses (result (read v old)) ↔ lacks v) (v : JsonValue) :
    Misses (result (readReflectField null name tags read v old)) ↔
      LacksField null name tags lacks v := by
  rw [readReflectField, result_bind, result_keeping]
  refine misses_toObject (fun members => ?_) v
  cases findMember (tags.fieldName name) members with
  | none => exact readMissingField_misses_iff
  | some field => exact readPresentField_misses_iff.trans (and_congr Iff.rfl (hread field))

end

/-! ## All types -/

section

variable (conv : Conversions) (env : Env)

mutual

/-- The first thing that is wrong with the input is that something is missing, or there twice. -/
def Lacks : (T : Ty) → Tags → JsonValue → T.Value → Prop
  | .arithmetic _, _, _, _ => False
  | .string, _, _, _ => False
  | .enumeration _ _ _, _, _, _ => False
  | .null _, _, _, _ => False
  | .optional T, tags, v, _ => v.isNull = false ∧ Lacks T tags v (env.default T)
  | .pointer _ T, tags, v, _ => v.isNull = false ∧ Lacks T tags v (env.default T)
  | .sequence unique T, _, v, _ =>
    LacksSequence (fun elements => LacksItems (fun w => Lacks T {} w (env.default T))
      (fun w => result (parserRead conv env T {} w (env.default T)))
      (insertItem unique (env.equivalent T)) elements []) v
  | .array size T, _, v, old =>
    LacksSequence (fun elements => elements.length = size ∧
      LacksArray (Lacks T {}) (parserRead conv env T {}) elements old.1) v
  | .tuple Ts, _, v, old =>
    LacksSequence (fun elements => elements.length = Ts.length ∧ LacksTuple Ts elements old) v
  | .pair T U, _, v, old =>
    LacksObject (LacksPair firstName (fun w => Lacks T {} w old.1) (parserRead conv env T {}) old.1
      secondName fun w => Lacks U {} w old.2) v
  | .variant Ts, tags, v, _ =>
    tags.unionEncoding ≠ .untagged ∧ LacksSequence (fun elements => elements.length = 2 ∧
      ∃ index, toBasicUnsigned .w64 (elements.headD .null) = .ok index ∧
        LacksAlternative Ts tags.payload (elements.tail.headD .null) index.toNat) v
  | .stringMap T, _, v, _ =>
    LacksObject (fun members => LacksMembers (fun w => Lacks T {} w (env.default T))
      (fun w => result (parserRead conv env T {} w (env.default T))) members
      ⟨[], List.nodup_nil⟩) v
  | .entryMap unique K T, _, v, _ =>
    LacksSequence (fun elements => LacksEntries (fun w => Lacks K {} w (env.default K))
      (fun w => Lacks T {} w (env.default T)) (parserRead conv env K {}) (env.default K)
      (parserRead conv env T {}) (env.default T) unique (env.equivalent K) elements []) v
  | .object unframed fields, _, v, old =>
    LacksObject (fun _ => LacksFields fields v
      (if fields.copyable then old else env.default (.object unframed fields))) v
  | .record fields, _, v, old =>
    LacksSequence (fun elements => elements.length = fields.count ∧
      LacksRecord fields elements
        (if fields.copyable then old else env.default (.record fields))) v

/-- The elements of a tuple. -/
def LacksTuple : (Ts : Tys) → List JsonValue → Ts.Values → Prop
  | .nil, _, _ => False
  | .cons T Ts, elements, (old, olds) =>
    Lacks T {} (elements.headD .null) old ∨
      (∃ value, parserRead conv env T {} (elements.headD .null) old = .ok value) ∧
        LacksTuple Ts elements.tail olds

/-- The alternative at an index. -/
def LacksAlternative : (Ts : Alternatives) → Tags → JsonValue → ℕ → Prop
  | .one T, tags, v, 0 => Lacks T tags v (env.default T)
  | .one _, _, _, _ + 1 => False
  | .cons T _, tags, v, 0 => Lacks T tags v (env.default T)
  | .cons _ Ts, tags, v, index + 1 => LacksAlternative Ts tags v index

/-- The fields of a reflected class. -/
def LacksFields : (fields : Fields) → JsonValue → fields.Values → Prop
  | .nil, _, _ => False
  | .cons name tags T rest, v, (old, olds) =>
    if tags.ignore then LacksFields rest v olds
    else if tags.flat && T.isObject then
      LacksFlat T v old ∨ (∃ value, readFlat conv env T v old = .ok value) ∧ LacksFields rest v olds
    else
      LacksField T.setNull name tags (fun w => Lacks T tags w old) v ∨
        (∃ value, readReflectField T.setNull name tags (parserRead conv env T tags) v old =
          .ok value) ∧ LacksFields rest v olds

/-- The fields of a flattened class. -/
def LacksFlat : (T : Ty) → JsonValue → T.Value → Prop
  | .object _ fields, v, old => LacksObject (fun _ => LacksFields fields v old) v
  | _, _, _ => False

/-- The elements of a reflected class without names. -/
def LacksRecord : (fields : Fields) → List JsonValue → fields.Values → Prop
  | .nil, _, _ => False
  | .cons _ tags T rest, elements, (old, olds) =>
    if tags.ignore then LacksRecord rest elements olds
    else
      Lacks T tags (elements.headD .null) old ∨
        (∃ value, parserRead conv env T tags (elements.headD .null) old = .ok value) ∧
          LacksRecord rest elements.tail olds

end

end

section

variable {conv : Conversions} {env : Env}

/-- An alternative that is found is one that is read. -/
theorem findAlternatives_reads (tags : Tags) (v : JsonValue) : ∀ (Ts : Alternatives)
    (index matchCount matchIndex : ℕ),
    findAlternatives conv env Ts tags v index matchCount matchIndex = (matchCount, matchIndex) ∨
      matchCount < (findAlternatives conv env Ts tags v index matchCount matchIndex).1 ∧
        ∃ k value, (findAlternatives conv env Ts tags v index matchCount matchIndex).2 = index + k ∧
          readAlternative conv env Ts tags v k = .ok value
  | .one T, index, matchCount, matchIndex => by
    rw [findAlternatives]
    split_ifs with hok
    · obtain ⟨value, hvalue⟩ := isOk_iff.mp hok
      refine Or.inr ⟨Nat.lt_succ_self _, 0, value, rfl, ?_⟩
      rw [readAlternative, hvalue]
      rfl
    · exact Or.inl rfl
  | .cons T Ts, index, matchCount, matchIndex => by
    rw [findAlternatives]
    split_ifs with hok
    · obtain ⟨value, hvalue⟩ := isOk_iff.mp hok
      right
      rcases findAlternatives_reads tags v Ts (index + 1) (matchCount + 1) index with
        h | ⟨hlt, k, value', hk, hread⟩
      · rw [h]
        refine ⟨Nat.lt_succ_self _, 0, .inl value, rfl, ?_⟩
        rw [readAlternative, hvalue]
        rfl
      · refine ⟨Nat.lt_of_succ_lt hlt, k + 1, .inr value', ?_, ?_⟩
        · rw [hk]
          omega
        · rw [readAlternative, hread]
          rfl
    · rcases findAlternatives_reads tags v Ts (index + 1) matchCount matchIndex with
        h | ⟨hlt, k, value', hk, hread⟩
      · exact Or.inl h
      · refine Or.inr ⟨hlt, k + 1, .inr value', ?_, ?_⟩
        · rw [hk]
          omega
        · rw [readAlternative, hread]
          rfl

/-- An untagged variant either matches nothing, or is read. -/
theorem untagged_misses (Ts : Alternatives) (tags : Tags) (v : JsonValue) :
    ¬Misses (
      if (findAlternatives conv env Ts tags v 0 0 0).1 = 0 then
        fail .parseError "No variant alternative matched the input value"
      else if (findAlternatives conv env Ts tags v 0 0 0).1 ≠ 1 then
        fail .parseError "Untagged variant input matches more than one alternative"
      else readAlternative conv env Ts tags v (findAlternatives conv env Ts tags v 0 0 0).2) := by
  have hfound : findAlternatives conv env Ts tags v 0 0 0 = (0, 0) ∨ _ :=
    findAlternatives_reads tags v Ts 0 0 0
  rcases hfound with h | ⟨hlt, k, value, hk, hread⟩
  · rw [h, if_pos rfl]
    simp
  · rw [if_neg (Nat.ne_of_gt hlt)]
    split_ifs
    · simp
    · rw [hk, Nat.zero_add, hread]
      exact misses_ok value

/-- The index and the alternative of a tagged variant. -/
theorem tagged_misses_iff {α : Type} {read : JsonValue → ℕ → Except Error α}
    {lacks : JsonValue → ℕ → Prop} (hread : ∀ v k, Misses (read v k) ↔ lacks v k) (v : JsonValue) :
    Misses (do
      let elements ← context "Variant must be encoded as [index, value]: " (toArray v)
      if elements.length ≠ 2 then
        fail .invalidLength "Variant array must contain exactly two elements"
      else do
        let index ← context "Failed to parse variant index: "
          (toBasicUnsigned .w64 (elements.headD .null))
        read (elements.tail.headD .null) index.toNat) ↔
      LacksSequence (fun elements => elements.length = 2 ∧
        ∃ index, toBasicUnsigned .w64 (elements.headD .null) = .ok index ∧
          lacks (elements.tail.headD .null) index.toNat) v := by
  rw [misses_bind, misses_context, or_iff_right (toArray_misses v)]
  refine exists_congr fun elements => and_congr (context_eq_ok.trans toArray_eq_ok) ?_
  beta_reduce
  by_cases hlength : elements.length = 2
  · rw [if_neg (not_not.mpr hlength), and_iff_right hlength, misses_bind, misses_context,
      or_iff_right (toBasicUnsigned_misses .w64 _)]
    exact exists_congr fun index => and_congr context_eq_ok (hread _ index.toNat)
  · rw [if_pos hlength]
    exact iff_of_false (by simp) fun h => hlength h.1

mutual

/-- **A read fails with `InvalidField`** exactly where the input lacks something. -/
theorem parserRead_misses_iff : ∀ (T : Ty) (tags : Tags) (v : JsonValue) (old : T.Value),
    Misses (result (parserRead conv env T tags v old)) ↔ Lacks conv env T tags v old
  | .arithmetic T, tags, v, old => by
    rw [parserRead, Lacks]
    exact misses_keeping.trans (iff_of_false (toBasicType_misses conv T v) id)
  | .string, tags, v, old => by
    rw [parserRead, Lacks]
    exact misses_keeping.trans (misses_context.trans (iff_of_false (toBasicString_misses v) id))
  | .enumeration signed width names, tags, v, old => by
    rw [parserRead, Lacks]
    exact misses_keeping.trans
      (iff_of_false (readEnumeration_misses conv signed width names v) id)
  | .null monostate, tags, v, old => by
    rw [parserRead, Lacks]
    exact misses_keeping.trans (iff_of_false (readNull_misses monostate v) id)
  | .optional T, tags, v, old => by
    rw [parserRead, Lacks]
    exact misses_keeping.trans (readNullable_misses.trans
      (and_congr Iff.rfl (parserRead_misses_iff T tags v (env.default T))))
  | .pointer shared T, tags, v, old => by
    rw [parserRead, Lacks]
    exact misses_keeping.trans (readNullable_misses.trans
      (and_congr Iff.rfl (parserRead_misses_iff T tags v (env.default T))))
  | .sequence unique T, tags, v, old => by
    rw [parserRead, Lacks]
    exact misses_keeping.trans (misses_toArray (fun elements => readItems_misses_iff
      (fun w => parserRead_misses_iff T {} w (env.default T)) elements 0 []) v)
  | .array size T, tags, v, old => by
    rw [parserRead, Lacks]
    exact readArray_misses_iff (parserRead_misses_iff T {}) v old
  | .tuple Ts, tags, v, old => by
    rw [parserRead, Lacks]
    exact misses_keeping_bind.trans
      (misses_toArray (fun elements => misses_sized (readTuple_misses_iff Ts 0 elements old)) v)
  | .pair T U, tags, v, old => by
    rw [parserRead, Lacks]
    exact readPair_misses_iff (parserRead_misses_iff T {}) (parserRead_misses_iff U {}) v old
  | .variant Ts, tags, v, old => by
    rw [parserRead, Lacks]
    refine misses_keeping.trans ?_
    by_cases huntagged : tags.unionEncoding = .untagged
    · rw [if_pos huntagged]
      exact iff_of_false (untagged_misses Ts tags.payload v) fun h => h.1 huntagged
    · rw [if_neg huntagged, and_iff_right huntagged]
      exact tagged_misses_iff (readAlternative_misses_iff Ts tags.payload) v
  | .stringMap T, tags, v, old => by
    rw [parserRead, Lacks]
    exact misses_keeping.trans (misses_toObject (fun members => readMembers_misses_iff
      (fun w => parserRead_misses_iff T {} w (env.default T)) members ⟨[], List.nodup_nil⟩) v)
  | .entryMap unique K T, tags, v, old => by
    rw [parserRead, Lacks]
    exact misses_keeping.trans (misses_toArray (fun elements => readEntries_misses_iff
      (fun w => parserRead_misses_iff K {} w (env.default K))
      (fun w => parserRead_misses_iff T {} w (env.default T)) elements 0 []) v)
  | .object unframed fields, tags, v, old => by
    rw [parserRead, Lacks]
    exact misses_keeping.trans (misses_toObject (fun _ => readFields_misses_iff fields v _) v)
  | .record fields, tags, v, old => by
    rw [parserRead, Lacks]
    refine misses_keeping.trans (misses_toArray (fun elements => ?_) v)
    by_cases hlength : elements.length = fields.count
    · rw [if_neg (not_not.mpr hlength), and_iff_right hlength]
      exact readRecord_misses_iff fields elements 0 _
    · rw [if_pos hlength]
      exact iff_of_false (by simp) fun h => hlength h.1

theorem readTuple_misses_iff : ∀ (Ts : Tys) (index : ℕ) (elements : List JsonValue)
    (olds : Ts.Values),
    Misses (result (readTuple conv env Ts index elements olds)) ↔
      LacksTuple conv env Ts elements olds
  | .nil, _, _, _ => iff_of_false (misses_ok ()) id
  | .cons T Ts, index, elements, (old, olds) => by
    rw [readTuple, LacksTuple]
    exact misses_parts (misses_contextWithin.trans (parserRead_misses_iff T {} _ old))
      contextWithin_eq_ok (readTuple_misses_iff Ts (index + 1) elements.tail olds)

theorem readAlternative_misses_iff : ∀ (Ts : Alternatives) (tags : Tags) (v : JsonValue) (k : ℕ),
    Misses (readAlternative conv env Ts tags v k) ↔ LacksAlternative conv env Ts tags v k
  | .one T, tags, v, 0 => by
    rw [readAlternative, LacksAlternative]
    exact misses_context.trans (parserRead_misses_iff T tags v (env.default T))
  | .one _, _, _, _ + 1 => iff_of_false (by simp [readAlternative]) id
  | .cons T _, tags, v, 0 => by
    rw [readAlternative, LacksAlternative]
    exact misses_bind_ok.trans
      (misses_context.trans (parserRead_misses_iff T tags v (env.default T)))
  | .cons _ Ts, tags, v, k + 1 => by
    rw [readAlternative, LacksAlternative]
    exact misses_bind_ok.trans (readAlternative_misses_iff Ts tags v k)

theorem readFields_misses_iff : ∀ (fields : Fields) (v : JsonValue) (olds : fields.Values),
    Misses (result (readFields conv env fields v olds)) ↔ LacksFields conv env fields v olds
  | .nil, _, _ => iff_of_false (misses_ok ()) id
  | .cons name tags T rest, v, (old, olds) => by
    have hrest := readFields_misses_iff rest v olds
    rw [readFields, LacksFields]
    split_ifs with hignore hflat
    · have hok : Misses (result (.ok old : ParseM T.Value T.Value)) ↔ False :=
        iff_of_false (misses_ok old) id
      refine (misses_parts (misses_within.trans hok) within_eq_ok hrest).trans ?_
      exact (or_iff_right id).trans (and_iff_right ⟨old, rfl⟩)
    · exact misses_parts (misses_within.trans (readFlat_misses_iff T v old)) within_eq_ok hrest
    · exact misses_parts (misses_within.trans
        (readReflectField_misses_iff (fun w => parserRead_misses_iff T tags w old) v))
        within_eq_ok hrest

theorem readFlat_misses_iff : ∀ (T : Ty) (v : JsonValue) (old : T.Value),
    Misses (result (readFlat conv env T v old)) ↔ LacksFlat conv env T v old
  | .object _ fields, v, old => by
    show Misses (result (keeping old (toObject v) >>= fun _ => readFields conv env fields v old)) ↔
      LacksObject (fun _ => LacksFields conv env fields v old) v
    refine misses_keeping_bind.trans ?_
    exact misses_toObject (fun _ => readFields_misses_iff fields v old) v
  | .arithmetic _, _, old => iff_of_false (misses_ok old) id
  | .string, _, old => iff_of_false (misses_ok old) id
  | .enumeration _ _ _, _, old => iff_of_false (misses_ok old) id
  | .null _, _, old => iff_of_false (misses_ok old) id
  | .optional _, _, old => iff_of_false (misses_ok old) id
  | .pointer _ _, _, old => iff_of_false (misses_ok old) id
  | .sequence _ _, _, old => iff_of_false (misses_ok old) id
  | .array _ _, _, old => iff_of_false (misses_ok old) id
  | .tuple _, _, old => iff_of_false (misses_ok old) id
  | .pair _ _, _, old => iff_of_false (misses_ok old) id
  | .variant _, _, old => iff_of_false (misses_ok old) id
  | .stringMap _, _, old => iff_of_false (misses_ok old) id
  | .entryMap _ _ _, _, old => iff_of_false (misses_ok old) id
  | .record _, _, old => iff_of_false (misses_ok old) id

theorem readRecord_misses_iff : ∀ (fields : Fields) (elements : List JsonValue) (index : ℕ)
    (olds : fields.Values),
    Misses (result (readRecord conv env fields elements index olds)) ↔
      LacksRecord conv env fields elements olds
  | .nil, _, _, _ => iff_of_false (misses_ok ()) id
  | .cons _ tags T rest, elements, index, (old, olds) => by
    rw [readRecord, LacksRecord]
    split_ifs with hignore
    · rw [result_bind]
      exact misses_bind_ok.trans
        (misses_within.trans (readRecord_misses_iff rest elements (index + 1) olds))
    · exact misses_parts (misses_contextWithin.trans (parserRead_misses_iff T tags _ old))
        contextWithin_eq_ok (readRecord_misses_iff rest elements.tail (index + 1) olds)

end

end

end NekoProto.Json
