import NekoProto.Parsing.Types

/-!
# JSON values

The values of a RapidJSON document, and its text as far as the serializers depend on it: what is
printed is parsed again with the same numbers, strings and members, except that a double comes
back as one near it, or not at all (`JsonText`).
-/

namespace NekoProto.Json

open Binary

/-- The integers that a value holds, signed or unsigned ones of 64 bits. A number beyond them is
a double. -/
abbrev JsonInteger := { z : ℤ // -2 ^ 63 ≤ z ∧ z < 2 ^ 64 }

/-- A `rapidjson::Value`. A double is kept as its bits, an object as its members in their order. -/
inductive JsonValue
  | null
  | bool (value : Bool)
  | integer (value : JsonInteger)
  | double (value : BitVec 64)
  | string (value : Bytes)
  | array (elements : List JsonValue)
  | object (members : List (Bytes × JsonValue))

namespace JsonValue

/-- `IsNull`. -/
def isNull : JsonValue → Bool
  | null => true
  | _ => false

/-- `IsObject`. -/
def isObject : JsonValue → Bool
  | object _ => true
  | _ => false

/-- `FindMember`: the first member with a name. -/
def findMember (name : Bytes) (members : List (Bytes × JsonValue)) : Option JsonValue :=
  (members.find? fun member => member.1 = name).map Prod.snd

mutual

/-- The value with a function applied to its doubles. -/
def mapDoubles (f : BitVec 64 → BitVec 64) : JsonValue → JsonValue
  | double value => double (f value)
  | array elements => array (mapDoublesList f elements)
  | object members => object (mapDoublesMembers f members)
  | v => v

/-- The elements of an array. -/
def mapDoublesList (f : BitVec 64 → BitVec 64) : List JsonValue → List JsonValue
  | [] => []
  | v :: vs => mapDoubles f v :: mapDoublesList f vs

/-- The members of an object. -/
def mapDoublesMembers (f : BitVec 64 → BitVec 64) :
    List (Bytes × JsonValue) → List (Bytes × JsonValue)
  | [] => []
  | (name, v) :: members => (name, mapDoubles f v) :: mapDoublesMembers f members

end

mutual

/-- No double in the value. -/
def Exact : JsonValue → Prop
  | double _ => False
  | array elements => ExactList elements
  | object members => ExactMembers members
  | _ => True

/-- No double in the elements. -/
def ExactList : List JsonValue → Prop
  | [] => True
  | v :: vs => v.Exact ∧ ExactList vs

/-- No double in the members. -/
def ExactMembers : List (Bytes × JsonValue) → Prop
  | [] => True
  | (_, v) :: members => v.Exact ∧ ExactMembers members

end

mutual

/-- Every double in the value satisfies a predicate. -/
def AllDoubles (p : BitVec 64 → Bool) : JsonValue → Bool
  | double value => p value
  | array elements => AllDoublesList p elements
  | object members => AllDoublesMembers p members
  | _ => true

/-- Every double in the elements. -/
def AllDoublesList (p : BitVec 64 → Bool) : List JsonValue → Bool
  | [] => true
  | v :: vs => AllDoubles p v && AllDoublesList p vs

/-- Every double in the members. -/
def AllDoublesMembers (p : BitVec 64 → Bool) : List (Bytes × JsonValue) → Bool
  | [] => true
  | (_, v) :: members => AllDoubles p v && AllDoublesMembers p members

end

theorem isNull_iff {v : JsonValue} : v.isNull = true ↔ v = null := by
  cases v <;> simp [isNull]

theorem mapDoublesList_eq (f : BitVec 64 → BitVec 64) (vs : List JsonValue) :
    mapDoublesList f vs = vs.map (mapDoubles f) := by
  induction vs with
  | nil => rfl
  | cons v vs ih => rw [mapDoublesList, ih, List.map_cons]

theorem mapDoublesMembers_eq (f : BitVec 64 → BitVec 64) (members : List (Bytes × JsonValue)) :
    mapDoublesMembers f members = members.map fun member => (member.1, mapDoubles f member.2) := by
  induction members with
  | nil => rfl
  | cons member members ih => rw [mapDoublesMembers, ih, List.map_cons]

theorem mapDoubles_array_map {α : Type} (f : BitVec 64 → BitVec 64) (write : α → JsonValue)
    (values : List α) :
    mapDoubles f (array (values.map write)) =
      array (values.map fun a => mapDoubles f (write a)) := by
  rw [mapDoubles, mapDoublesList_eq, List.map_map]
  rfl

theorem mapDoubles_object_map {α : Type} (f : BitVec 64 → BitVec 64) (write : α → JsonValue)
    (entries : List (Bytes × α)) :
    mapDoubles f (object (entries.map fun entry => (entry.1, write entry.2))) =
      object (entries.map fun entry => (entry.1, mapDoubles f (write entry.2))) := by
  rw [mapDoubles, mapDoublesMembers_eq, List.map_map]
  rfl

@[simp] theorem mapDoubles_isNull (f : BitVec 64 → BitVec 64) (v : JsonValue) :
    (mapDoubles f v).isNull = v.isNull := by
  cases v <;> rfl

/-- A member is found as before. -/
theorem findMember_mapDoubles (f : BitVec 64 → BitVec 64) (name : Bytes)
    (members : List (Bytes × JsonValue)) :
    findMember name (mapDoublesMembers f members) =
      (findMember name members).map (mapDoubles f) := by
  rw [mapDoublesMembers_eq]
  induction members with
  | nil => rfl
  | cons member members ih =>
    unfold findMember at ih ⊢
    rw [List.map_cons, List.find?_cons, List.find?_cons]
    by_cases h : member.1 = name
    · simp only [h, decide_true]
      rfl
    · simp only [h, decide_false]
      exact ih

mutual

/-- **Without doubles nothing changes.** -/
theorem mapDoubles_of_exact (f : BitVec 64 → BitVec 64) :
    ∀ {v : JsonValue}, v.Exact → mapDoubles f v = v
  | null, _ => rfl
  | bool _, _ => rfl
  | integer _, _ => rfl
  | double _, h => h.elim
  | string _, _ => rfl
  | array _, h => congrArg array (mapDoublesList_of_exact f h)
  | object _, h => congrArg object (mapDoublesMembers_of_exact f h)

theorem mapDoublesList_of_exact (f : BitVec 64 → BitVec 64) :
    ∀ {vs : List JsonValue}, ExactList vs → mapDoublesList f vs = vs
  | [], _ => rfl
  | _ :: _, h => congrArg₂ List.cons (mapDoubles_of_exact f h.1) (mapDoublesList_of_exact f h.2)

theorem mapDoublesMembers_of_exact (f : BitVec 64 → BitVec 64) :
    ∀ {members : List (Bytes × JsonValue)}, ExactMembers members →
      mapDoublesMembers f members = members
  | [], _ => rfl
  | (name, _) :: _, h =>
    congrArg₂ List.cons (congrArg (Prod.mk name) (mapDoubles_of_exact f h.1))
      (mapDoublesMembers_of_exact f h.2)

end

mutual

theorem allDoubles_of_exact (p : BitVec 64 → Bool) :
    ∀ {v : JsonValue}, v.Exact → AllDoubles p v = true
  | null, _ => rfl
  | bool _, _ => rfl
  | integer _, _ => rfl
  | double _, h => h.elim
  | string _, _ => rfl
  | array _, h => allDoublesList_of_exact p h
  | object _, h => allDoublesMembers_of_exact p h

theorem allDoublesList_of_exact (p : BitVec 64 → Bool) :
    ∀ {vs : List JsonValue}, ExactList vs → AllDoublesList p vs = true
  | [], _ => rfl
  | _ :: _, h =>
    (congrArg₂ and (allDoubles_of_exact p h.1) (allDoublesList_of_exact p h.2)).trans rfl

theorem allDoublesMembers_of_exact (p : BitVec 64 → Bool) :
    ∀ {members : List (Bytes × JsonValue)}, ExactMembers members →
      AllDoublesMembers p members = true
  | [], _ => rfl
  | (_, _) :: _, h =>
    (congrArg₂ and (allDoubles_of_exact p h.1) (allDoublesMembers_of_exact p h.2)).trans rfl

end

mutual

theorem allDoubles_mapDoubles (p : BitVec 64 → Bool) (f : BitVec 64 → BitVec 64) :
    ∀ v : JsonValue, AllDoubles p (mapDoubles f v) = AllDoubles (p ∘ f) v
  | null => rfl
  | bool _ => rfl
  | integer _ => rfl
  | double _ => rfl
  | string _ => rfl
  | array vs => allDoublesList_mapDoublesList p f vs
  | object members => allDoublesMembers_mapDoublesMembers p f members

theorem allDoublesList_mapDoublesList (p : BitVec 64 → Bool) (f : BitVec 64 → BitVec 64) :
    ∀ vs : List JsonValue, AllDoublesList p (mapDoublesList f vs) = AllDoublesList (p ∘ f) vs
  | [] => rfl
  | v :: vs =>
    congrArg₂ and (allDoubles_mapDoubles p f v) (allDoublesList_mapDoublesList p f vs)

theorem allDoublesMembers_mapDoublesMembers (p : BitVec 64 → Bool) (f : BitVec 64 → BitVec 64) :
    ∀ members : List (Bytes × JsonValue),
      AllDoublesMembers p (mapDoublesMembers f members) = AllDoublesMembers (p ∘ f) members
  | [] => rfl
  | (_, v) :: members =>
    congrArg₂ and (allDoubles_mapDoubles p f v) (allDoublesMembers_mapDoublesMembers p f members)

end

mutual

theorem mapDoubles_mapDoubles (f g : BitVec 64 → BitVec 64) :
    ∀ v : JsonValue, mapDoubles f (mapDoubles g v) = mapDoubles (f ∘ g) v
  | null => rfl
  | bool _ => rfl
  | integer _ => rfl
  | double _ => rfl
  | string _ => rfl
  | array vs => congrArg array (mapDoublesList_mapDoublesList f g vs)
  | object members => congrArg object (mapDoublesMembers_mapDoublesMembers f g members)

theorem mapDoublesList_mapDoublesList (f g : BitVec 64 → BitVec 64) :
    ∀ vs : List JsonValue, mapDoublesList f (mapDoublesList g vs) = mapDoublesList (f ∘ g) vs
  | [] => rfl
  | v :: vs =>
    congrArg₂ List.cons (mapDoubles_mapDoubles f g v) (mapDoublesList_mapDoublesList f g vs)

theorem mapDoublesMembers_mapDoublesMembers (f g : BitVec 64 → BitVec 64) :
    ∀ members : List (Bytes × JsonValue),
      mapDoublesMembers f (mapDoublesMembers g members) = mapDoublesMembers (f ∘ g) members
  | [] => rfl
  | (name, v) :: members =>
    congrArg₂ List.cons (congrArg (Prod.mk name) (mapDoubles_mapDoubles f g v))
      (mapDoublesMembers_mapDoublesMembers f g members)

end

theorem allDoublesList_iff {p : BitVec 64 → Bool} {vs : List JsonValue} :
    AllDoublesList p vs = true ↔ ∀ v ∈ vs, AllDoubles p v = true := by
  induction vs with
  | nil => exact ⟨fun _ v hmem => absurd hmem List.not_mem_nil, fun _ => rfl⟩
  | cons v vs ih => rw [AllDoublesList, Bool.and_eq_true, ih, List.forall_mem_cons]

theorem allDoublesMembers_iff {p : BitVec 64 → Bool} {members : List (Bytes × JsonValue)} :
    AllDoublesMembers p members = true ↔ ∀ member ∈ members, AllDoubles p member.2 = true := by
  induction members with
  | nil => exact ⟨fun _ member hmem => absurd hmem List.not_mem_nil, fun _ => rfl⟩
  | cons member members ih =>
    rw [AllDoublesMembers, Bool.and_eq_true, ih, List.forall_mem_cons]

theorem exactMembers_append {members others : List (Bytes × JsonValue)} :
    ExactMembers (members ++ others) ↔ ExactMembers members ∧ ExactMembers others := by
  induction members with
  | nil => exact (Iff.of_eq (true_and _)).symm
  | cons member members ih =>
    show member.2.Exact ∧ ExactMembers (members ++ others) ↔
      (member.2.Exact ∧ ExactMembers members) ∧ ExactMembers others
    rw [ih, and_assoc]

theorem findMember_append (name : Bytes) (members others : List (Bytes × JsonValue)) :
    findMember name (members ++ others) =
      (findMember name members).or (findMember name others) := by
  unfold findMember
  rw [List.find?_append]
  cases members.find? fun member => member.1 = name <;> rfl

end JsonValue

/-! ## Text -/

/-- Printing and parsing. Of the doubles, some are not carried by a text (those that are not
finite), and the others are read back as `reread` says; an empty text is not parsed. -/
structure JsonText where
  print : JsonValue → Option Bytes
  parse : Bytes → Option JsonValue
  carries : BitVec 64 → Bool
  reread : BitVec 64 → BitVec 64
  parse_print : ∀ v : JsonValue,
    (print v).bind parse = if v.AllDoubles carries then some (v.mapDoubles reread) else none
  parse_nil : parse [] = none

/-- **A value without doubles** is printed, and parsed as it is. -/
theorem JsonText.print_exact (text : JsonText) {v : JsonValue} (h : v.Exact) :
    ∃ bytes, text.print v = some bytes ∧ text.parse bytes = some v := by
  have hparse := text.parse_print v
  rw [if_pos (JsonValue.allDoubles_of_exact text.carries h),
    JsonValue.mapDoubles_of_exact text.reread h] at hparse
  exact Option.bind_eq_some_iff.mp hparse

/-- The conversions of the language between its numbers. -/
structure Conversions where
  widen : BitVec 32 → BitVec 64
  narrow : BitVec 64 → BitVec 32
  toDouble : ℤ → BitVec 64

end NekoProto.Json
