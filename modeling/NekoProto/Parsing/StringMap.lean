import NekoProto.Parsing.ReadRules

/-!
# Reading string-keyed maps

A map is read by enumerating the members of an object. The Reader enumerates a `NamedObject` only;
its answer for an `IdObject` is that it enumerated nothing, and `parser_read_string_key_map` does
not look at the answer.

1. What the enumeration of a `NamedObject` reads is every member, under its name
   (`readStringMap_decodes`).
2. An `IdObject` is read as the empty map (`readStringMap_idObject`).
3. So a read loses no member exactly when it is not the read of an `IdObject` that has one
   (`string_map_lossless_iff`).
-/

namespace NekoProto.Parsing

open Binary Binary.Reader Outcome

/-- The entries are the names of the members and the values that reading them one after the other
gives. -/
inductive Decodes {α : Type} (read : InputValue → ReadM α) :
    List (Member InputValue) → List (Bytes × α) → State → State → Prop
  | nil {s} : Decodes read [] [] s s
  | cons {m ms a es s t u} (first : Returns (read m.value) s a t) (rest : Decodes read ms es t u) :
      Decodes read (m :: ms) ((m.name, a) :: es) s u

section

variable {inp : Input} {α : Type} {read : InputValue → ReadM α} {s t : State}
  {v : InputValue} {entries : Entries α}

/-! ## The enumeration -/

theorem Entries.emplace_eq_some {parsed : Entries α} {name : Bytes} {a : α}
    (h : parsed.emplace name a = some entries) : entries.1 = parsed.1 ++ [(name, a)] := by
  unfold Entries.emplace at h
  split_ifs at h
  exact congrArg Subtype.val (Option.some.inj h).symm

/-- The callback goes on after a member it has read, and stops at an error. -/
theorem readMember_cases {name : Bytes} {field : InputValue} {parsed : Entries α} {go : Bool}
    {outcome : Except Error Unit}
    (h : Returns (readMember read name field (.ok (), parsed)) s (go, outcome, entries) t) :
    (go = true ∧ outcome = .ok () ∧
      ∃ a, Returns (read field) s a t ∧ entries.1 = parsed.1 ++ [(name, a)]) ∨
    (go = false ∧ outcome ≠ .ok ()) := by
  unfold readMember at h
  obtain ⟨value, s', hvalue, h⟩ := returns_bind.mp h
  cases value with
  | error e =>
    obtain ⟨h, -⟩ := returns_pure.mp h
    simp only [Prod.mk.injEq] at h
    exact .inr ⟨h.1, by simp [h.2.1]⟩
  | ok a =>
    rw [result_returns_ok, context_returns] at hvalue
    cases hemplace : parsed.emplace name a with
    | none =>
      simp only [hemplace, returns_pure, Prod.mk.injEq] at h
      exact .inr ⟨h.1.1, by simp [h.1.2.1]⟩
    | some parsed' =>
      simp only [hemplace, returns_pure, Prod.mk.injEq] at h
      obtain ⟨⟨rfl, rfl, rfl⟩, rfl⟩ := h
      exact .inl ⟨rfl, rfl, a, hvalue, Entries.emplace_eq_some hemplace⟩

/-- The enumeration stops at the first error, so one without an error has read all members. -/
theorem forEachMember_decodes {ms : List (Member InputValue)} : ∀ {s : State} {parsed : Entries α}
    {go : Bool}, Returns (forEachMember (readMember read) ms (.ok (), parsed)) s
      (go, .ok (), entries) t →
    ∃ es, Decodes read ms es s t ∧ entries.1 = parsed.1 ++ es := by
  induction ms with
  | nil =>
    intro s parsed go h
    simp only [forEachMember, returns_pure, Prod.mk.injEq, true_and] at h
    obtain ⟨⟨-, rfl⟩, rfl⟩ := h
    exact ⟨[], .nil, (List.append_nil _).symm⟩
  | cons m ms ih =>
    intro s parsed go h
    simp only [forEachMember] at h
    obtain ⟨⟨more, outcome, parsed'⟩, s', hfirst, h⟩ := returns_bind.mp h
    obtain ⟨rfl, rfl, a, hread, hparsed⟩ | ⟨rfl, hfailed⟩ := readMember_cases hfirst
    · rw [if_pos rfl] at h
      obtain ⟨es, hrest, hentries⟩ := ih h
      refine ⟨_, .cons hread hrest, ?_⟩
      rw [hentries, hparsed, List.append_assoc, List.singleton_append]
    · simp only [Bool.false_eq_true, if_false, returns_pure, Prod.mk.injEq] at h
      exact absurd h.1.2.1.symm hfailed

/-! ## The two kinds of objects -/

/-- What `parser_read_string_key_map` does with a valid handle of an object. -/
theorem readStringMap_returns :
    Returns (readStringMap inp read v) s entries t ↔
      validate inp s v = none ∧ isFramedObject v = true ∧
        ∃ go, Returns (forEachObjectMember inp v (readMember read) (.ok (), ⟨[], List.nodup_nil⟩))
          s (go, .ok (), entries) t := by
  unfold readStringMap
  simp only [returns_bind, toObject_returns_iff, orThrow_returns, returns_pure]
  constructor
  · rintro ⟨_, _, ⟨hvalid, hobject, rfl, rfl⟩, ⟨go, outcome, parsed⟩, s', h, _, _, ⟨rfl, rfl⟩, rfl,
      rfl⟩
    exact ⟨hvalid, hobject, go, h⟩
  · rintro ⟨hvalid, hobject, go, h⟩
    exact ⟨v, s, ⟨hvalid, hobject, rfl, rfl⟩, _, t, h, (), t, ⟨rfl, rfl⟩, rfl, rfl⟩

theorem readStringMap_decodes (htag : v.tag = .namedObject)
    (h : Returns (readStringMap inp read v) s entries t) :
    Decodes read v.members entries.1 s t := by
  obtain ⟨hvalid, -, go, h⟩ := readStringMap_returns.mp h
  unfold forEachObjectMember at h
  rw [returns_get_bind] at h
  simp only [validateHandle_of_validate hvalid, htag, ne_eq, not_true_eq_false, if_false] at h
  obtain ⟨es, hdecodes, hentries⟩ := forEachMember_decodes h
  rwa [hentries]

theorem readStringMap_idObject (htag : v.tag = .idObject) :
    Returns (readStringMap inp read v) s entries t ↔
      validate inp s v = none ∧ entries.1 = [] ∧ t = s := by
  have hobject : isFramedObject v = true := isFramedObject_iff.mpr (.inr htag)
  rw [readStringMap_returns]
  constructor
  · rintro ⟨hvalid, -, go, h⟩
    unfold forEachObjectMember at h
    rw [returns_get_bind] at h
    simp only [validateHandle_of_validate hvalid, htag, ne_eq, reduceCtorEq, not_false_eq_true,
      if_true, returns_pure, Prod.mk.injEq, true_and] at h
    exact ⟨hvalid, by rw [h.1.2], h.2⟩
  · rintro ⟨hvalid, hentries, rfl⟩
    refine ⟨hvalid, hobject, false, ?_⟩
    unfold forEachObjectMember
    rw [returns_get_bind]
    simp only [validateHandle_of_validate hvalid, htag, ne_eq, reduceCtorEq, not_false_eq_true,
      if_true, returns_pure, Prod.mk.injEq, true_and, and_true]
    exact Subtype.ext hentries

end

/-! ## Lossless reads -/

/-- No loss when reading a map: it holds what the members decode to, under their names, and a
member without a name (only its hash is on the wire) makes the read fail. -/
def Lossless (inp : Input) (env : Env) (T : Ty) (tags : Tags) (v : InputValue) (s : State) : Prop :=
  ∀ old entries t, Returns (parserRead inp env (.stringMap T) tags v old) s entries t →
    Decodes (fun field => parserRead inp env T {} field (env.default T)) v.members entries.1 s t ∧
      ∀ m ∈ v.members, ¬(v.tag = .idObject ∧ m.name = [])

/-- **No loss when reading a map.** A read loses no member exactly when it does not reach an
`IdObject` that has one. -/
theorem string_map_lossless_iff (inp : Input) (env : Env) (T : Ty) (tags : Tags) (v : InputValue)
    (s : State) :
    Lossless inp env T tags v s ↔
      ¬(validate inp s v = none ∧ v.tag = .idObject ∧ v.members ≠ []) := by
  constructor
  · rintro h ⟨hvalid, htag, hmembers⟩
    have hread : Returns (readStringMap inp
        (fun field => parserRead inp env T {} field (env.default T)) v) s ⟨[], List.nodup_nil⟩ s :=
      (readStringMap_idObject htag).mpr ⟨hvalid, rfl, rfl⟩
    have hdecodes := (h ⟨[], List.nodup_nil⟩ _ s hread).1
    generalize hms : v.members = ms at hdecodes hmembers
    cases hdecodes
    exact hmembers rfl
  · intro h old entries t hread
    have hread : Returns (readStringMap inp
        (fun field => parserRead inp env T {} field (env.default T)) v) s entries t := hread
    obtain ⟨hvalid, hobject, -⟩ := readStringMap_returns.mp hread
    obtain htag | htag := isFramedObject_iff.mp hobject
    · exact ⟨readStringMap_decodes htag hread, fun m _ hm => by simp [htag] at hm⟩
    · have hmembers : v.members = [] := by
        by_contra hne
        exact h ⟨hvalid, htag, hne⟩
      obtain ⟨-, hentries, rfl⟩ := (readStringMap_idObject htag).mp hread
      rw [hmembers, hentries]
      exact ⟨.nil, fun m hm => (List.not_mem_nil hm).elim⟩

/-- A reflected object with one member, `a`, which is the string `b`. -/
def reflected : Wire := .object false [(.literal [0x61], .string [0x62])]

/-- The document of the object. -/
def reflectedInput : Input where
  data := [0x4E, 0x50, 0x02, 0x0A, 0x01, 0x02, 0x61, 0x07, 0x01, 0x62]
  size_lt := show (10 : ℕ) < 2 ^ 64 by decide
  limits_lt := ParseLimits.sized_default

theorem reflectedInput_holds : Holds reflectedInput reflected where
  notNull := rfl
  size_le := show (10 : ℕ) ≤ 16 * 1024 * 1024 by decide
  data_eq := by
    simp [reflected, Wire.encode, Wire.encodeMembers, Key.encode, Leb128.encode_of_lt]
    rfl
  fits := by
    simp [reflected, reflectedInput, Wire.Fits, Wire.FitsMembers, Key.Fits, KeysFit]
  charge_le := show _ ≤ 32 * 1024 * 1024 by decide

/-- The reflected object is read as an empty map. -/
theorem string_map_lossless_fails :
    ∃ v s, Returns (root reflectedInput) (init reflectedInput) v s ∧
      v.members.map Member.name = [[0x61]] ∧
      (∃ entries t, Returns (parserRead reflectedInput .zero (.stringMap .string) {} v
        (Ty.zero (.stringMap .string))) s entries t ∧ entries.1 = [] ∧
          finish reflectedInput t = .ok ()) ∧
      ¬Lossless reflectedInput .zero .string {} v s := by
  obtain ⟨hroot, hfinish⟩ := root_node_iff.mpr ⟨reflected, reflectedInput_holds, rfl, rfl, rfl⟩
  have hvalid : validate reflectedInput (opened reflectedInput reflected)
      (.node 0 (reflected.layout binaryMagic.length 0)) = none := rfl
  have hread : Returns (readStringMap reflectedInput (fun field => parserRead reflectedInput .zero
      .string {} field (Env.zero.default .string))
      (.node 0 (reflected.layout binaryMagic.length 0)))
      (opened reflectedInput reflected) ⟨[], List.nodup_nil⟩ (opened reflectedInput reflected) :=
    (readStringMap_idObject rfl).mpr ⟨hvalid, rfl, rfl⟩
  refine ⟨_, _, hroot, rfl, ⟨⟨[], List.nodup_nil⟩, _, hread, rfl, hfinish⟩, fun hlossless => ?_⟩
  have hdecodes := (hlossless ⟨[], List.nodup_nil⟩ _ _ hread).1
  cases hdecodes

end NekoProto.Parsing
