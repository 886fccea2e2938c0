import NekoProto.Parsing.Document
import NekoProto.Json.ReadBack

/-!
# Keys of members

The keys that `parser_write_reflect_fields` passes to its writer, and those under which
`parser_read_reflect_fields` looks the members up. A member of a class is known by its place: its
index in the class, below the place of the flattened class that holds it.

1. Both writers emit just these keys (`members_keys`, `writeFields_keys`), and what the reader of
   JSON reads depends on no others (`readFields_congr`).
2. A member is looked up under one key (`lookedUp_unique`), under which it is emitted, except for
   the null of an empty optional, which is emitted under the name of the member itself
   (`emitted_cases`).
-/

namespace NekoProto.Generic

open Binary Parsing

/-! ## Places and keys -/

/-- A member, by its place, with a key. -/
abbrev KeyedPlace := List ℕ × Bytes

section

variable (nullForEmpty : Bool)

/-- The key that `parser_write_reflect_field` emits a field under, where `flat` is what it emits
of a flattened class. -/
def emittedField (T : Ty) (name : Bytes) (tags : Tags) (value : T.Value) (place : List ℕ)
    (flat : List KeyedPlace) : List KeyedPlace :=
  if tags.ignore then []
  else if tags.flat && T.isObject then flat
  else if shouldSkipEmptyField nullForEmpty T value then []
  else if T.optionalLike && !T.hasValue value then [(place, name)]
  else [(place, tags.fieldName name)]

mutual

/-- What `parser_write_reflect_fields` emits, from the field with this index on. -/
def emitted : (fields : Fields) → fields.Values → List ℕ → ℕ → List KeyedPlace
  | .nil, _, _, _ => []
  | .cons name tags T rest, (value, values), place, index =>
    emittedField nullForEmpty T name tags value (place ++ [index])
      (emittedFlat T value (place ++ [index])) ++ emitted rest values place (index + 1)

/-- What it emits of a flattened class. -/
def emittedFlat : (T : Ty) → T.Value → List ℕ → List KeyedPlace
  | .object _ fields, values, place => emitted fields values place 0
  | _, _, _ => []

end

end

/-- The key that `parser_read_reflect_field` looks a field up under. -/
def lookedUpField (T : Ty) (name : Bytes) (tags : Tags) (place : List ℕ)
    (flat : List KeyedPlace) : List KeyedPlace :=
  if tags.ignore then []
  else if tags.flat && T.isObject then flat
  else [(place, tags.fieldName name)]

mutual

/-- What `parser_read_reflect_fields` looks up, from the field with this index on. -/
def lookedUp : Fields → List ℕ → ℕ → List KeyedPlace
  | .nil, _, _ => []
  | .cons name tags T rest, place, index =>
    lookedUpField T name tags (place ++ [index]) (lookedUpFlat T (place ++ [index])) ++
      lookedUp rest place (index + 1)

/-- What it looks up for a flattened class. -/
def lookedUpFlat : Ty → List ℕ → List KeyedPlace
  | .object _ fields, place => lookedUp fields place 0
  | _, _ => []

end

/-- The keys of members. -/
def keys (members : List KeyedPlace) : List Bytes := members.map Prod.snd

/-! ## The writers -/

mutual

/-- **Both writers emit these keys**: the members of a document, -/
theorem members_keys (nullForEmpty : Bool) : (fields : Fields) → (values : fields.Values) →
    (place : List ℕ) → (index : ℕ) → {ms : List (Bytes × Tree)} →
    fields.members nullForEmpty values = some ms →
    ms.map Prod.fst = keys (emitted nullForEmpty fields values place index)
  | .nil, _, _, _, _, h => by
    obtain rfl := Option.some.inj h
    rfl
  | .cons name tags T rest, (value, values), place, index, ms, h => by
    obtain ⟨as, has, h⟩ := Option.bind_eq_some_iff.mp h
    obtain ⟨bs, hbs, h⟩ := Option.bind_eq_some_iff.mp h
    obtain rfl := Option.some.inj h
    have hrest := members_keys nullForEmpty rest values place (index + 1) hbs
    have hfield : as.map Prod.fst = keys (emittedField nullForEmpty T name tags value
        (place ++ [index]) (emittedFlat nullForEmpty T value (place ++ [index]))) := by
      unfold fieldMembers at has
      unfold emittedField
      split_ifs at has ⊢
      · obtain rfl := Option.some.inj has
        rfl
      · exact flatMembers_keys nullForEmpty T value _ has
      · obtain rfl := Option.some.inj has
        rfl
      · obtain rfl := Option.some.inj has
        rfl
      · obtain ⟨t, -, rfl⟩ := Option.map_eq_some_iff.mp has
        rfl
    rw [List.map_append, hfield, hrest]
    exact List.map_append.symm

theorem flatMembers_keys (nullForEmpty : Bool) : (T : Ty) → (value : T.Value) →
    (place : List ℕ) → {ms : List (Bytes × Tree)} → T.flatMembers nullForEmpty value = some ms →
    ms.map Prod.fst = keys (emittedFlat nullForEmpty T value place)
  | T, value, place, ms, h => by
    cases T with
    | object unframed fields => exact members_keys nullForEmpty fields value place 0 h
    | _ =>
      obtain rfl := Option.some.inj h
      rfl

end

mutual

/-- and the members of a JSON object. -/
theorem writeFields_keys (nullForEmpty : Bool) (conv : Json.Conversions) : (fields : Fields) →
    (values : fields.Values) → (place : List ℕ) → (index : ℕ) →
    (Json.writeFields nullForEmpty conv fields values).map Prod.fst =
      keys (emitted nullForEmpty fields values place index)
  | .nil, _, _, _ => rfl
  | .cons name tags T rest, (value, values), place, index => by
    have hrest := writeFields_keys nullForEmpty conv rest values place (index + 1)
    have hflat := writeFlat_keys nullForEmpty conv T value (place ++ [index])
    refine List.map_append.trans ((congrArg₂ (· ++ ·) ?_ hrest).trans List.map_append.symm)
    unfold emittedField Json.writeReflectField shouldSkipEmptyField
    cases tags.ignore with
    | true => rfl
    | false =>
      cases hobject : tags.flat && T.isObject with
      | true => exact hflat
      | false =>
        cases T.optionalLike && !T.hasValue value with
        | false => rfl
        | true => cases nullForEmpty <;> rfl

theorem writeFlat_keys (nullForEmpty : Bool) (conv : Json.Conversions) : (T : Ty) →
    (value : T.Value) → (place : List ℕ) →
    (Json.writeFlat nullForEmpty conv T value).map Prod.fst =
      keys (emittedFlat nullForEmpty T value place)
  | T, value, place => by
    cases T with
    | object unframed fields => exact writeFields_keys nullForEmpty conv fields value place 0
    | _ => rfl

end

/-! ## The reader -/

/-- The members of two objects that are found under these keys are the same. -/
def SameUnder (sought : List Bytes) (ms ms' : List (Bytes × Json.JsonValue)) : Prop :=
  ∀ key ∈ sought, Json.JsonValue.findMember key ms = Json.JsonValue.findMember key ms'

mutual

/-- **What is read** depends on the members under the keys that are looked up. -/
theorem readFields_congr (conv : Json.Conversions) (env : Env) : (fields : Fields) →
    (place : List ℕ) → (index : ℕ) → {ms ms' : List (Bytes × Json.JsonValue)} →
    SameUnder (keys (lookedUp fields place index)) ms ms' → (olds : fields.Values) →
    Json.readFields conv env fields (.object ms) olds =
      Json.readFields conv env fields (.object ms') olds
  | .nil, _, _, _, _, _, _ => rfl
  | .cons name tags T rest, place, index, ms, ms', h, (old, olds) => by
    have hfield : SameUnder (keys (lookedUpField T name tags (place ++ [index])
        (lookedUpFlat T (place ++ [index])))) ms ms' := fun key hkey =>
      h key (List.mem_map.mpr ((List.mem_map.mp hkey).imp
        fun _ hmem => ⟨List.mem_append_left _ hmem.1, hmem.2⟩))
    have hrest := readFields_congr conv env rest place (index + 1) (fun key hkey =>
      h key (List.mem_map.mpr ((List.mem_map.mp hkey).imp
        fun _ hmem => ⟨List.mem_append_right _ hmem.1, hmem.2⟩))) olds
    have hread : (if tags.ignore then Except.ok old
        else if tags.flat && T.isObject then Json.readFlat conv env T (.object ms) old
        else Json.readReflectField T.setNull name tags (Json.parserRead conv env T tags)
          (.object ms) old) =
        if tags.ignore then Except.ok old
        else if tags.flat && T.isObject then Json.readFlat conv env T (.object ms') old
        else Json.readReflectField T.setNull name tags (Json.parserRead conv env T tags)
          (.object ms') old := by
      unfold lookedUpField at hfield
      split_ifs at hfield ⊢
      · rfl
      · exact readFlat_congr conv env T _ hfield old
      · rw [Json.readReflectField_object, Json.readReflectField_object,
          hfield _ (List.mem_singleton_self _)]
    rw [Json.readFields, Json.readFields, hread, hrest]

theorem readFlat_congr (conv : Json.Conversions) (env : Env) : (T : Ty) → (place : List ℕ) →
    {ms ms' : List (Bytes × Json.JsonValue)} →
    SameUnder (keys (lookedUpFlat T place)) ms ms' → (old : T.Value) →
    Json.readFlat conv env T (.object ms) old = Json.readFlat conv env T (.object ms') old
  | T, place, ms, ms', h, old => by
    cases T with
    | object unframed fields => exact readFields_congr conv env fields place 0 h old
    | _ => rfl

end

/-! ## One key for each member -/

/-- All places are below those of the fields from this index on. -/
def Below (place : List ℕ) (index : ℕ) (members : List KeyedPlace) : Prop :=
  ∀ m ∈ members, ∃ j, index ≤ j ∧ place ++ [j] <+: m.1

theorem Below.append {place : List ℕ} {index : ℕ} {first rest : List KeyedPlace}
    (hfirst : ∀ m ∈ first, place ++ [index] <+: m.1) (hrest : Below place (index + 1) rest) :
    Below place index (first ++ rest) := by
  intro m hm
  rcases List.mem_append.mp hm with hm | hm
  · exact ⟨index, le_rfl, hfirst m hm⟩
  · obtain ⟨j, hj, hprefix⟩ := hrest m hm
    exact ⟨j, by omega, hprefix⟩

/-- The fields after one are not below its place. -/
theorem Below.disjoint {place : List ℕ} {index : ℕ} {members : List KeyedPlace}
    (h : Below place (index + 1) members) {m : KeyedPlace} (hm : m ∈ members) :
    ¬place ++ [index] <+: m.1 := by
  intro hprefix
  obtain ⟨j, hj, hother⟩ := h m hm
  have heq := (List.prefix_of_prefix_length_le hprefix hother (by simp)).eq_of_length (by simp)
  have : index = j := by simpa using heq
  omega

theorem lookedUpField_below {T : Ty} {name : Bytes} {tags : Tags} {place : List ℕ}
    {flat : List KeyedPlace} (hflat : ∀ m ∈ flat, place <+: m.1) :
    ∀ m ∈ lookedUpField T name tags place flat, place <+: m.1 := by
  unfold lookedUpField
  split_ifs
  · exact fun _ hm => absurd hm List.not_mem_nil
  · exact hflat
  · intro m hm
    obtain rfl := List.mem_singleton.mp hm
    exact List.prefix_rfl

mutual

theorem lookedUp_below : (fields : Fields) → (place : List ℕ) → (index : ℕ) →
    Below place index (lookedUp fields place index)
  | .nil, _, _ => fun _ hm => absurd hm List.not_mem_nil
  | .cons name tags T rest, place, index => by
    exact Below.append (lookedUpField_below (lookedUpFlat_below T (place ++ [index])))
      (lookedUp_below rest place (index + 1))

theorem lookedUpFlat_below : (T : Ty) → (place : List ℕ) →
    ∀ m ∈ lookedUpFlat T place, place <+: m.1
  | T, place => by
    cases T with
    | object unframed fields =>
      intro m hm
      obtain ⟨j, -, hprefix⟩ := lookedUp_below fields place 0 m hm
      exact (List.prefix_append place [j]).trans hprefix
    | _ => exact fun _ hm => absurd hm List.not_mem_nil

end

/-- Each member has one key. -/
def OneKey (members : List KeyedPlace) : Prop :=
  ∀ place key key', (place, key) ∈ members → (place, key') ∈ members → key = key'

mutual

/-- **A member is looked up under one key.** -/
theorem lookedUp_unique : (fields : Fields) → (place : List ℕ) → (index : ℕ) →
    OneKey (lookedUp fields place index)
  | .nil, _, _ => fun _ _ _ hm => absurd hm List.not_mem_nil
  | .cons name tags T rest, place, index => by
    have hbelow := lookedUp_below rest place (index + 1)
    have hfirst := @lookedUpField_below T name tags _ _
      (lookedUpFlat_below T (place ++ [index]))
    have hunique : OneKey (lookedUpField T name tags (place ++ [index])
        (lookedUpFlat T (place ++ [index]))) := by
      unfold lookedUpField
      split_ifs
      · exact fun _ _ _ hm => absurd hm List.not_mem_nil
      · exact lookedUpFlat_unique T (place ++ [index])
      · intro p key key' hkey hkey'
        have hk := List.mem_singleton.mp hkey
        have hk' := List.mem_singleton.mp hkey'
        exact (congrArg Prod.snd hk).trans (congrArg Prod.snd hk').symm
    intro p key key' hkey hkey'
    rcases List.mem_append.mp hkey with hkey | hkey <;>
      rcases List.mem_append.mp hkey' with hkey' | hkey'
    · exact hunique p key key' hkey hkey'
    · have hprefix := hfirst _ hkey
      exact (hbelow.disjoint hkey' hprefix).elim
    · have hprefix := hfirst _ hkey'
      exact (hbelow.disjoint hkey hprefix).elim
    · exact lookedUp_unique rest place (index + 1) p key key' hkey hkey'

theorem lookedUpFlat_unique : (T : Ty) → (place : List ℕ) → OneKey (lookedUpFlat T place)
  | T, place => by
    cases T with
    | object unframed fields => exact lookedUp_unique fields place 0
    | _ => exact fun _ _ _ hm => absurd hm List.not_mem_nil

end

/-! ## Keys that differ -/

mutual

/-- A member that is not ignored is an empty optional, and its tag gives it another name. -/
def RenamedNull : (fields : Fields) → fields.Values → Prop
  | .nil, _ => False
  | .cons name tags T rest, (value, values) =>
    (tags.ignore = false ∧
      if tags.flat && T.isObject then RenamedNullFlat T value
      else T.optionalLike = true ∧ T.hasValue value = false ∧ tags.fieldName name ≠ name) ∨
    RenamedNull rest values

/-- A member of a flattened class is. -/
def RenamedNullFlat : (T : Ty) → T.Value → Prop
  | .object _ fields, values => RenamedNull fields values
  | _, _ => False

end

mutual

/-- **Without such a member** each one is looked up under the key that it is emitted under. -/
theorem emitted_lookedUp (nullForEmpty : Bool) : (fields : Fields) → (values : fields.Values) →
    (place : List ℕ) → (index : ℕ) → (nullForEmpty = true → ¬RenamedNull fields values) →
    ∀ m ∈ emitted nullForEmpty fields values place index, m ∈ lookedUp fields place index
  | .nil, _, _, _, _ => fun _ hm => hm
  | .cons name tags T rest, (value, values), place, index, h => by
    have hrest := emitted_lookedUp nullForEmpty rest values place (index + 1)
      fun hnull hrenamed => h hnull (.inr hrenamed)
    have hfield : ∀ m ∈ emittedField nullForEmpty T name tags value (place ++ [index])
          (emittedFlat nullForEmpty T value (place ++ [index])),
        m ∈ lookedUpField T name tags (place ++ [index]) (lookedUpFlat T (place ++ [index])) := by
      unfold emittedField lookedUpField
      split_ifs with hignore hflat hskip hempty
      · exact fun _ hm => hm
      · refine emittedFlat_lookedUp nullForEmpty T value _ fun hnull hrenamed => h hnull (.inl ?_)
        rw [if_pos hflat]
        exact ⟨eq_false_of_ne_true hignore, hrenamed⟩
      · exact fun _ hm => absurd hm List.not_mem_nil
      · intro m hm
        obtain rfl := List.mem_singleton.mp hm
        have hnull : nullForEmpty = true := by
          unfold shouldSkipEmptyField at hskip
          rw [hempty] at hskip
          simpa using hskip
        obtain ⟨hlike, hvalue⟩ := Bool.and_eq_true_iff.mp hempty
        have hname : tags.fieldName name = name := by
          by_contra hne
          refine h hnull (.inl ⟨eq_false_of_ne_true hignore, ?_⟩)
          rw [if_neg hflat]
          exact ⟨hlike, by simpa using hvalue, hne⟩
        rw [hname]
        exact List.mem_singleton_self _
      · exact fun _ hm => hm
    intro m hm
    rcases List.mem_append.mp hm with hm | hm
    · exact List.mem_append_left _ (hfield m hm)
    · exact List.mem_append_right _ (hrest m hm)

theorem emittedFlat_lookedUp (nullForEmpty : Bool) : (T : Ty) → (value : T.Value) →
    (place : List ℕ) → (nullForEmpty = true → ¬RenamedNullFlat T value) →
    ∀ m ∈ emittedFlat nullForEmpty T value place, m ∈ lookedUpFlat T place
  | T, value, place, h => by
    cases T with
    | object unframed fields => exact emitted_lookedUp nullForEmpty fields value place 0 h
    | _ => exact fun _ hm => hm

end

mutual

/-- **Such a member** is emitted as a null under another key than the one it is looked up under. -/
theorem renamedNull_emitted : (fields : Fields) → (values : fields.Values) → (place : List ℕ) →
    (index : ℕ) → RenamedNull fields values → ∃ p key key',
      (p, key) ∈ emitted true fields values place index ∧ (p, key') ∈ lookedUp fields place index ∧
        key ≠ key'
  | .nil, _, _, _, h => h.elim
  | .cons name tags T rest, (value, values), place, index, h => by
    obtain ⟨hignore, hfield⟩ | hrest := h
    · have hdiffer : ∃ p key key',
          (p, key) ∈ emittedField true T name tags value (place ++ [index])
            (emittedFlat true T value (place ++ [index])) ∧
          (p, key') ∈ lookedUpField T name tags (place ++ [index])
            (lookedUpFlat T (place ++ [index])) ∧ key ≠ key' := by
        unfold emittedField lookedUpField
        rw [hignore, if_neg Bool.false_ne_true, if_neg Bool.false_ne_true]
        split_ifs at hfield with hflat
        · rw [if_pos hflat, if_pos hflat]
          exact renamedNullFlat_emitted T value _ hfield
        · obtain ⟨hlike, hvalue, hne⟩ := hfield
          have hskip : ¬shouldSkipEmptyField true T value = true := by
            simp [shouldSkipEmptyField]
          have hempty : (T.optionalLike && !T.hasValue value) = true := by
            rw [hlike, hvalue]
            rfl
          rw [if_neg hflat, if_neg hflat, if_neg hskip, if_pos hempty]
          exact ⟨_, _, _, List.mem_singleton_self _, List.mem_singleton_self _, hne.symm⟩
      obtain ⟨p, key, key', hkey, hkey', hne⟩ := hdiffer
      exact ⟨p, key, key', List.mem_append_left _ hkey, List.mem_append_left _ hkey', hne⟩
    · obtain ⟨p, key, key', hkey, hkey', hne⟩ :=
        renamedNull_emitted rest values place (index + 1) hrest
      exact ⟨p, key, key', List.mem_append_right _ hkey, List.mem_append_right _ hkey', hne⟩

theorem renamedNullFlat_emitted : (T : Ty) → (value : T.Value) → (place : List ℕ) →
    RenamedNullFlat T value → ∃ p key key',
      (p, key) ∈ emittedFlat true T value place ∧ (p, key') ∈ lookedUpFlat T place ∧ key ≠ key'
  | T, value, place, h => by
    cases T with
    | object unframed fields => exact renamedNull_emitted fields value place 0 h
    | _ => exact h.elim

end

/-! ## Agreement -/

/-- The keys that are emitted agree with those that are looked up. -/
structure KeysAgree (emitted lookedUp : List KeyedPlace) : Prop where
  same : ∀ place key, (place, key) ∈ emitted →
    ∀ other, (place, other) ∈ lookedUp ↔ other = key
  read : ∀ key ∈ keys emitted, key ∈ keys lookedUp
  distinct : ∀ place key place' key', (place, key) ∈ emitted → (place', key') ∈ emitted →
    ∀ name name', (place, name) ∈ lookedUp → (place', name') ∈ lookedUp → name ≠ name' → key ≠ key'

/-- **Agreement of keys.** Each member that is emitted is emitted under the key that it is looked
up under, no key is emitted that no member is looked up under, and members with different effective
names have different keys; exactly if the build writes no nulls for empty optionals, or none of
them has another name by its tag. -/
theorem keysAgree_iff (nullForEmpty : Bool) (fields : Fields) (values : fields.Values) :
    KeysAgree (emitted nullForEmpty fields values [] 0) (lookedUp fields [] 0) ↔
      (nullForEmpty = true → ¬RenamedNull fields values) := by
  have hunique := lookedUp_unique fields [] 0
  constructor
  · rintro h rfl hrenamed
    obtain ⟨p, key, key', hkey, hkey', hne⟩ := renamedNull_emitted fields values [] 0 hrenamed
    exact hne ((h.same p key hkey key').mp hkey').symm
  · intro h
    have hsame := emitted_lookedUp nullForEmpty fields values [] 0 h
    refine ⟨fun p key hkey other => ⟨fun hother => ?_, fun heq => ?_⟩, fun key hkey => ?_, ?_⟩
    · exact hunique p other key hother (hsame _ hkey)
    · exact heq ▸ hsame _ hkey
    · obtain ⟨m, hm, rfl⟩ := List.mem_map.mp hkey
      exact List.mem_map_of_mem (hsame m hm)
    · intro p key p' key' hkey hkey' name name' hname hname' hne
      rw [hunique p key name (hsame _ hkey) hname, hunique p' key' name' (hsame _ hkey') hname']
      exact hne

/-- An optional `a` that is named `b` by its tag, and a member `c` that is named `a`. -/
def renamedMembers : Fields :=
  .cons [97] { name := some [98] } (.optional (.arithmetic .bool))
    (.cons [99] { name := some [97] } (.arithmetic .bool) .nil)

/-- The empty optional is emitted under the key of the other member. -/
theorem keysAgree_not :
    emitted true renamedMembers (none, true, ()) [] 0 = [([0], [97]), ([1], [97])] ∧
    lookedUp renamedMembers [] 0 = [([0], [98]), ([1], [97])] ∧
    ¬KeysAgree (emitted true renamedMembers (none, true, ()) [] 0)
      (lookedUp renamedMembers [] 0) := by
  refine ⟨rfl, rfl, fun h => ?_⟩
  have hother : ([0], [98]) ∈ lookedUp renamedMembers [] 0 := List.mem_cons_self
  have heq := (h.same [0] [97] List.mem_cons_self [98]).mp hother
  exact absurd heq (by decide)

end NekoProto.Generic
