import NekoProto.Parsing.Document

/-!
# Types with nullable members

The types built from scalars, strings, sequences, optionals, pointers, nulls and reflected classes
without tags (`Ty.Simple`), and what reading them back needs of their trees.

1. There is one for every value (`exists_tree`), and its names fit (`tree_namesOk`).
2. It is a null exactly for the values that are null themselves (`tag_eq_null_iff`).
3. A field is one member under its name, unless it is an optional that is left out
   (`fieldMembers_simple`).
-/

namespace NekoProto.Parsing

open Binary

/-! ## Types -/

/-- The types that have a null of their own. -/
def Ty.nullable : Ty → Bool
  | .null _ => true
  | .optional _ => true
  | .pointer _ _ => true
  | _ => false

/-- The names of the fields. -/
def Fields.names : Fields → List Bytes
  | .nil => []
  | .cons name _ _ rest => name :: rest.names

mutual

/-- Types built from scalars, strings, sequences, nullable types and classes whose fields have
distinct names that are not empty and do not collide. No optional or pointer holds a nullable
type. -/
def Ty.Simple : Ty → Prop
  | .arithmetic _ => True
  | .string => True
  | .enumeration _ _ names => (names.map Prod.fst).Nodup
  | .null _ => True
  | .optional T => T.nullable = false ∧ T.Simple
  | .pointer _ T => T.nullable = false ∧ T.Simple
  | .sequence _ T => T.Simple
  | .array _ T => T.Simple
  | .object _ fields => Tree.NamesFit false fields.names ∧ fields.Simple
  | _ => False

/-- The fields have such types, and no tags. -/
def Fields.Simple : Fields → Prop
  | .nil => True
  | .cons _ tags T rest => tags = {} ∧ T.Simple ∧ rest.Simple

end

/-! ## Values -/

/-- A null itself. -/
def Ty.isNull : (T : Ty) → T.Value → Bool
  | .null _, _ => true
  | .optional _, value => Option.isNone value
  | .pointer _ _, value => Option.isNone value
  | _, _ => false

mutual

/-- In no class of the value is a member null, but for empty optionals that can be copied. -/
def Ty.NullsOptional : (T : Ty) → T.Value → Prop
  | .optional T, some value => T.NullsOptional value
  | .pointer _ T, some value => T.NullsOptional value
  | .sequence _ T, values => List.Forall T.NullsOptional values
  | .array _ T, values => List.Forall T.NullsOptional values.1
  | .object _ fields, values => fields.NullsOptional values
  | _, _ => True

/-- No member is null, but for such optionals. -/
def Fields.NullsOptional : (fields : Fields) → fields.Values → Prop
  | .nil, _ => True
  | .cons _ _ T rest, (value, values) =>
    ((T.isNull value = true → T.optionalLike = true) ∧ T.NullsOptional value) ∧
      rest.NullsOptional values

end

section

variable (env : Env)

mutual

/-- The sets in the value hold no two equivalent items. -/
def Ty.SetsOk : (T : Ty) → T.Value → Prop
  | .optional T, some value => T.SetsOk value
  | .pointer _ T, some value => T.SetsOk value
  | .sequence unique T, values =>
    (unique = true → List.Pairwise (fun a b => env.equivalent T b a = false) values) ∧
      List.Forall T.SetsOk values
  | .array _ T, values => List.Forall T.SetsOk values.1
  | .object _ fields, values => fields.SetsOk values
  | _, _ => True

/-- The sets in the members hold no two equivalent items. -/
def Fields.SetsOk : (fields : Fields) → fields.Values → Prop
  | .nil, _ => True
  | .cons _ _ T rest, (value, values) => T.SetsOk value ∧ rest.SetsOk values

end

end

/-! ## Trees -/

section

variable {nullForEmpty : Bool}

theorem tag_arithmetic (T : Arithmetic) (value : T.Value) :
    (BasicValue.arithmetic T value).wire.tag ≠ .null := by
  cases T with
  | bool => cases value <;> decide
  | integer signed width => cases signed <;> exact nofun
  | float => exact nofun
  | double => exact nofun

/-- A value of a type without a null is not written as a null. -/
theorem tag_of_nullable {T : Ty} {value : T.Value} {t : Tree} (hsimple : T.Simple)
    (hnullable : T.nullable = false) (ht : T.tree nullForEmpty {} value = some t) :
    t.wire.tag ≠ .null := by
  cases T with
  | arithmetic T =>
    obtain rfl := Option.some.inj ht
    exact tag_arithmetic T value
  | string =>
    obtain rfl := Option.some.inj ht
    exact nofun
  | enumeration signed width names =>
    unfold Ty.tree enumerationTree at ht
    split_ifs at ht
    · obtain rfl := Option.some.inj ht
      exact nofun
    · obtain rfl := Option.some.inj ht
      exact tag_arithmetic (.integer signed width) value
  | sequence unique T =>
    obtain ⟨ts, -, rfl⟩ := Option.map_eq_some_iff.mp ht
    exact nofun
  | array size T =>
    obtain ⟨ts, -, rfl⟩ := Option.map_eq_some_iff.mp ht
    exact nofun
  | object unframed fields =>
    obtain ⟨ms, -, rfl⟩ := Option.map_eq_some_iff.mp ht
    exact nofun
  | null monostate => cases hnullable
  | optional T => cases hnullable
  | pointer shared T => cases hnullable
  | tuple Ts => exact hsimple.elim
  | pair T U => exact hsimple.elim
  | variant Ts => exact hsimple.elim
  | stringMap T => exact hsimple.elim
  | entryMap unique K T => exact hsimple.elim
  | record fields => exact hsimple.elim

/-- A value is written as a null exactly if it is one. -/
theorem tag_eq_null_iff {T : Ty} {value : T.Value} {t : Tree} (hsimple : T.Simple)
    (ht : T.tree nullForEmpty {} value = some t) :
    t.wire.tag = .null ↔ T.isNull value = true := by
  cases hnullable : T.nullable with
  | false =>
    refine iff_of_false (tag_of_nullable hsimple hnullable ht) ?_
    cases T <;> first | exact Bool.false_ne_true | cases hnullable
  | true =>
    cases T with
    | null monostate =>
      obtain rfl := Option.some.inj ht
      exact iff_of_true rfl rfl
    | optional T =>
      cases value with
      | none =>
        obtain rfl := Option.some.inj ht
        exact iff_of_true rfl rfl
      | some value => exact iff_of_false (tag_of_nullable hsimple.2 hsimple.1 ht) Bool.false_ne_true
    | pointer shared T =>
      cases value with
      | none =>
        obtain rfl := Option.some.inj ht
        exact iff_of_true rfl rfl
      | some value => exact iff_of_false (tag_of_nullable hsimple.2 hsimple.1 ht) Bool.false_ne_true
    | _ => cases hnullable

/-- An optional-like type without a value is an empty optional. -/
theorem setNull_of_hasValue {T : Ty} {value : T.Value} (hsimple : T.Simple)
    (hlike : T.optionalLike = true) (hvalue : T.hasValue value = false) :
    T.setNull = some value ∧ T.tree nullForEmpty {} value = some .null := by
  cases T with
  | optional T =>
    cases value with
    | some value => cases hvalue
    | none =>
      have hnull : Ty.setNull (.optional T) = if T.copyable then some none else none := rfl
      rw [Ty.optionalLike, hnull] at hlike
      rw [hnull]
      split_ifs at hlike ⊢
      · exact ⟨rfl, rfl⟩
      · cases hlike
  | variant Ts => exact hsimple.elim
  | _ => cases hlike

/-- A field without tags is left out as an empty optional, or is one member under its name. -/
theorem fieldMembers_simple {T : Ty} {name : Bytes} {value : T.Value}
    {flat : Option (List (Bytes × Tree))} (hsimple : T.Simple) :
    (T.setNull = some value ∧ fieldMembers nullForEmpty T name {} value flat
        (T.tree nullForEmpty {} value) = some []) ∨
      fieldMembers nullForEmpty T name {} value flat (T.tree nullForEmpty {} value) =
        (T.tree nullForEmpty {} value).map fun t => [(name, t)] := by
  have hflat : ¬(({} : Tags).flat && T.isObject) = true := by simp
  unfold fieldMembers
  rw [if_neg (by simp), if_neg hflat]
  cases hlike : T.optionalLike with
  | false => exact .inr (by simp [shouldSkipEmptyField, hlike]; rfl)
  | true =>
    cases hvalue : T.hasValue value with
    | true => exact .inr (by simp [shouldSkipEmptyField, hvalue]; rfl)
    | false =>
      obtain ⟨hnull, htree⟩ : T.setNull = some value ∧ T.tree nullForEmpty {} value = some .null :=
        setNull_of_hasValue hsimple hlike hvalue
      cases nullForEmpty with
      | false => exact .inl ⟨hnull, by simp [shouldSkipEmptyField, hlike, hvalue]⟩
      | true => exact .inr (by simp [shouldSkipEmptyField, hlike, hvalue, htree])

theorem exists_elementTrees {α : Type} {tree : α → Option Tree} (h : ∀ a, ∃ t, tree a = some t) :
    ∀ values : List α, ∃ ts, elementTrees tree values = some ts
  | [] => ⟨[], rfl⟩
  | value :: values => by
    obtain ⟨t, ht⟩ := h value
    obtain ⟨ts, hts⟩ := exists_elementTrees h values
    exact ⟨t :: ts, by rw [elementTrees, ht, hts]; rfl⟩

mutual

/-- **Every value has a tree.** -/
theorem exists_tree : (T : Ty) → T.Simple → (value : T.Value) →
    ∃ t, T.tree nullForEmpty {} value = some t
  | .arithmetic _, _, _ => ⟨_, rfl⟩
  | .string, _, _ => ⟨_, rfl⟩
  | .enumeration _ _ _, _, _ => by
    unfold Ty.tree enumerationTree
    split_ifs
    · exact ⟨_, rfl⟩
    · exact ⟨_, rfl⟩
  | .null _, _, _ => ⟨_, rfl⟩
  | .optional _, _, none => ⟨_, rfl⟩
  | .optional T, h, some value => exists_tree T h.2 value
  | .pointer _ _, _, none => ⟨_, rfl⟩
  | .pointer _ T, h, some value => exists_tree T h.2 value
  | .sequence _ T, h, values => by
    obtain ⟨ts, hts⟩ := exists_elementTrees (exists_tree T h) values
    exact ⟨_, congrArg (Option.map Tree.array) hts⟩
  | .array _ T, h, values => by
    obtain ⟨ts, hts⟩ := exists_elementTrees (exists_tree T h) values.1
    exact ⟨_, congrArg (Option.map Tree.array) hts⟩
  | .object _ fields, h, values => by
    obtain ⟨ms, hms⟩ := exists_members fields h.2 values
    exact ⟨_, congrArg (Option.map (Tree.object false)) hms⟩

theorem exists_members : (fields : Fields) → fields.Simple → (values : fields.Values) →
    ∃ ms, fields.members nullForEmpty values = some ms
  | .nil, _, _ => ⟨[], rfl⟩
  | .cons name tags T rest, ⟨htags, hT, hrest⟩, (value, values) => by
    subst htags
    obtain ⟨t, ht⟩ := exists_tree T hT value
    obtain ⟨ms, hms⟩ := exists_members rest hrest values
    rw [Fields.members, hms]
    obtain ⟨-, hfield⟩ | hfield := fieldMembers_simple hT
    · rw [hfield]
      exact ⟨_, rfl⟩
    · rw [hfield, ht]
      exact ⟨_, rfl⟩

end

/-! ## Names -/

/-- A field without tags is left out, or is one member. -/
theorem members_cons {name : Bytes} {T : Ty} {rest : Fields} {value : T.Value}
    {values : rest.Values} {ms : List (Bytes × Tree)} (hsimple : T.Simple)
    (h : (Fields.cons name {} T rest).members nullForEmpty (value, values) = some ms) :
    (T.setNull = some value ∧ rest.members nullForEmpty values = some ms) ∨
      ∃ t ms', T.tree nullForEmpty {} value = some t ∧
        rest.members nullForEmpty values = some ms' ∧ ms = (name, t) :: ms' := by
  obtain ⟨as, has, h⟩ := Option.bind_eq_some_iff.mp h
  obtain ⟨bs, hbs, h⟩ := Option.bind_eq_some_iff.mp h
  obtain rfl := Option.some.inj h
  obtain ⟨hnull, hfield⟩ | hfield := fieldMembers_simple hsimple
  · obtain rfl := Option.some.inj (hfield.symm.trans has)
    exact .inl ⟨hnull, hbs⟩
  · obtain ⟨t, ht, rfl⟩ := Option.map_eq_some_iff.mp (hfield.symm.trans has)
    exact .inr ⟨t, bs, ht, hbs, rfl⟩

theorem names_members : ∀ (fields : Fields) {values : fields.Values} {ms : List (Bytes × Tree)},
    fields.Simple → fields.members nullForEmpty values = some ms →
    (ms.map Prod.fst).Sublist fields.names
  | .nil, _, ms, _, h => by
    obtain rfl := Option.some.inj h
    exact .slnil
  | .cons name tags T rest, (value, values), ms, ⟨htags, hT, hrest⟩, h => by
    subst htags
    obtain ⟨-, hms⟩ | ⟨t, ms', -, hms, rfl⟩ := members_cons hT h
    · exact (names_members rest hrest hms).cons name
    · exact (names_members rest hrest hms).cons_cons name

theorem elementTrees_namesOk {α : Type} {tree : α → Option Tree}
    (h : ∀ a t, tree a = some t → t.NamesOk) :
    ∀ {values : List α} {ts : List Tree}, elementTrees tree values = some ts →
      Tree.NamesOkList ts
  | [], ts, hts => by
    obtain rfl := Option.some.inj hts
    trivial
  | value :: values, ts, hts => by
    obtain ⟨t, ht, hts⟩ := Option.bind_eq_some_iff.mp hts
    obtain ⟨ts', hts', heq⟩ := Option.bind_eq_some_iff.mp hts
    obtain rfl := Option.some.inj heq
    exact ⟨h value t ht, elementTrees_namesOk h hts'⟩

mutual

/-- **The names fit** in the tree of a value. -/
theorem tree_namesOk : (T : Ty) → T.Simple → (value : T.Value) → (t : Tree) →
    T.tree nullForEmpty {} value = some t → t.NamesOk
  | .arithmetic _, _, _, t, ht => by
    obtain rfl := Option.some.inj ht
    trivial
  | .string, _, _, t, ht => by
    obtain rfl := Option.some.inj ht
    trivial
  | .enumeration _ _ _, _, _, t, ht => by
    unfold Ty.tree enumerationTree at ht
    split_ifs at ht
    · obtain rfl := Option.some.inj ht
      trivial
    · obtain rfl := Option.some.inj ht
      trivial
  | .null _, _, _, t, ht => by
    obtain rfl := Option.some.inj ht
    trivial
  | .optional _, _, none, t, ht => by
    obtain rfl := Option.some.inj ht
    trivial
  | .optional T, h, some value, t, ht => tree_namesOk T h.2 value t ht
  | .pointer _ _, _, none, t, ht => by
    obtain rfl := Option.some.inj ht
    trivial
  | .pointer _ T, h, some value, t, ht => tree_namesOk T h.2 value t ht
  | .sequence _ T, h, values, t, ht => by
    obtain ⟨ts, hts, rfl⟩ := Option.map_eq_some_iff.mp ht
    exact elementTrees_namesOk (tree_namesOk T h) hts
  | .array _ T, h, values, t, ht => by
    obtain ⟨ts, hts, rfl⟩ := Option.map_eq_some_iff.mp ht
    exact elementTrees_namesOk (tree_namesOk T h) hts
  | .object _ fields, h, values, t, ht => by
    obtain ⟨ms, hms, rfl⟩ := Option.map_eq_some_iff.mp ht
    exact ⟨h.1.sublist (names_members fields h.2 hms), members_namesOk fields h.2 values ms hms⟩

theorem members_namesOk : (fields : Fields) → fields.Simple → (values : fields.Values) →
    (ms : List (Bytes × Tree)) → fields.members nullForEmpty values = some ms →
    Tree.NamesOkMembers ms
  | .nil, _, _, ms, h => by
    obtain rfl := Option.some.inj h
    trivial
  | .cons name tags T rest, ⟨htags, hT, hrest⟩, (value, values), ms, h => by
    subst htags
    obtain ⟨-, hms⟩ | ⟨t, ms', ht, hms, rfl⟩ := members_cons hT h
    · exact members_namesOk rest hrest values ms hms
    · exact ⟨tree_namesOk T hT value t ht, members_namesOk rest hrest values ms' hms⟩

end

end

end NekoProto.Parsing
