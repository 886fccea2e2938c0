import NekoProto.Proto.ProtoFactory
import NekoProto.Lib.Outcome

/-!
# Types of protocols

Looking a name up assigns at most one type, to that name (`protoType_cases`): the specified one,
which is free and not above the reserved range, or the next one of the counter. So in every state
the types are distinct (`Reachable.typesOk`), no operation changes a type, and a new one keeps its
side of the range (`step_keeps`).
-/

namespace NekoProto.Proto

open Outcome (bind_eq_ok)

variable {Creator : Type} {s s' : Statics Creator} {name : String} {type : ℤ}

/-! ## Looking up -/

/-- A type that is free and not above the reserved range. -/
def Free (type : ℤ) (s : Statics Creator) : Prop :=
  (∀ n, s.protoNameMap.find n ≠ some type) ∧ type ≤ reservedProtoTypeSize

/-- The statics with the type of a name. -/
def assignType (name : String) (type : ℤ) (s : Statics Creator) : Statics Creator :=
  { s with protoNameMap := s.protoNameMap.insert name type }

/-- The statics with the next type of the counter for a name. -/
def assignNext (name : String) (s : Statics Creator) : Statics Creator :=
  { assignType name (s.counter + 1) s with counter := s.counter + 1 }

theorem any_type_iff : (s.protoNameMap.entries.any fun item => item.2 = type) = true ↔
    ∃ n, s.protoNameMap.find n = some type := by
  rw [List.any_eq_true]
  constructor
  · rintro ⟨⟨n, t⟩, hmem, htype⟩
    obtain rfl : t = type := of_decide_eq_true htype
    exact ⟨n, OrderedMap.mem_entries_iff.mp hmem⟩
  · rintro ⟨n, hn⟩
    exact ⟨(n, type), OrderedMap.mem_entries_iff.mpr hn, decide_eq_true rfl⟩

theorem protoType_found (hname : name ≠ "") (h : s.protoNameMap.find name = some type)
    {isDeclared : Bool} {specifyType : ℤ} :
    protoType name isDeclared specifyType s = (type, s) := by
  unfold protoType
  rw [if_neg hname, h]

/-- **A lookup without a declaration** changes nothing. -/
theorem protoType_undeclared (name : String) (specifyType : ℤ) (s : Statics Creator) :
    protoType name false specifyType s =
      (if name = "" then -1 else (s.protoNameMap.find name).getD (-1), s) := by
  unfold protoType
  by_cases hname : name = ""
  · rw [if_pos hname, if_pos hname]
  · rw [if_neg hname, if_neg hname]
    cases s.protoNameMap.find name with
    | some type => rfl
    | none => simp

/-- A declaration of a new name takes the next type of the counter. -/
theorem protoType_next (hname : name ≠ "") (h : s.protoNameMap.find name = none) :
    protoType name true (-1) s = (s.counter + 1, assignNext name s) := by
  unfold protoType
  rw [if_neg hname, h]
  rfl

/-- A specified type is taken if it is free. -/
theorem protoType_specified (hname : name ≠ "") (h : s.protoNameMap.find name = none)
    (htype : type ≠ -1) (hfree : Free type s) :
    protoType name true type s = (type, assignType name type s) := by
  have hany : ¬(s.protoNameMap.entries.any fun item => item.2 = type) = true := by
    rw [any_type_iff]
    rintro ⟨n, hn⟩
    exact hfree.1 n hn
  unfold protoType
  rw [if_neg hname, h]
  simp only
  rw [if_pos ⟨htype, trivial⟩, if_neg hany, if_neg (not_lt.mpr hfree.2)]
  rfl

theorem protoType_refused (hname : name ≠ "") (h : s.protoNameMap.find name = none)
    (htype : type ≠ -1) (hfree : ¬Free type s) : protoType name true type s = (-1, s) := by
  unfold protoType
  rw [if_neg hname, h]
  simp only
  rw [if_pos ⟨htype, trivial⟩]
  by_cases hany : (s.protoNameMap.entries.any fun item => item.2 = type) = true
  · rw [if_pos hany]
  · rw [if_neg hany, if_pos]
    by_contra hle
    refine hfree ⟨fun n hn => hany (any_type_iff.mpr ⟨n, hn⟩), not_lt.mp hle⟩

/-- **What a declaration does**: nothing, or it assigns one type to its name. -/
theorem protoType_cases (name : String) (type : ℤ) (s : Statics Creator) :
    (protoType name true type s).2 = s ∨
    name ≠ "" ∧ s.protoNameMap.find name = none ∧
      (type ≠ -1 ∧ Free type s ∧ (protoType name true type s).2 = assignType name type s ∨
        type = -1 ∧ (protoType name true type s).2 = assignNext name s) := by
  by_cases hname : name = ""
  · left
    unfold protoType
    rw [if_pos hname]
  cases h : s.protoNameMap.find name with
  | some found =>
    left
    rw [protoType_found hname h]
  | none =>
    by_cases htype : type = -1
    · right
      rw [htype, protoType_next hname h]
      exact ⟨hname, rfl, .inr ⟨rfl, rfl⟩⟩
    by_cases hfree : Free type s
    · right
      rw [protoType_specified hname h htype hfree]
      exact ⟨hname, rfl, .inl ⟨htype, hfree, rfl⟩⟩
    · left
      rw [protoType_refused hname h htype hfree]

theorem find_assignType (h : s.protoNameMap.find name = none) (n : String) :
    (assignType name type s).protoNameMap.find n =
      if n = name then some type else s.protoNameMap.find n :=
  OrderedMap.find_insert_new h n

theorem find_assignNext (h : s.protoNameMap.find name = none) (n : String) :
    (assignNext name s).protoNameMap.find n =
      if n = name then some (s.counter + 1) else s.protoNameMap.find n :=
  OrderedMap.find_insert_new h n

/-! ## What all operations keep -/

/-- The types of the names are distinct, and those above the reserved range are counted. -/
structure TypesOk (s : Statics Creator) : Prop where
  counter_le : reservedProtoTypeSize ≤ s.counter
  le_counter : ∀ n t, s.protoNameMap.find n = some t → t ≤ s.counter
  injective : ∀ n m t, s.protoNameMap.find n = some t → s.protoNameMap.find m = some t → n = m

/-- No type is specified for a name. -/
def NoneSpecified (_ : String) (_ : ℤ) : Prop := False

/-- How the types may grow. The names that `specifies` relates to a type are those for which the
type is specified. -/
structure Grows (specifies : String → ℤ → Prop) (s s' : Statics Creator) : Prop where
  keeps : ∀ n t, s.protoNameMap.find n = some t → s'.protoNameMap.find n = some t
  assigns : ∀ n t, s.protoNameMap.find n = none → s'.protoNameMap.find n = some t →
    specifies n t ∧ t ≤ reservedProtoTypeSize ∨
      (∀ u, ¬specifies n u) ∧ reservedProtoTypeSize < t

theorem Grows.refl {specifies : String → ℤ → Prop} : Grows specifies s s := by
  refine ⟨fun n t h => h, fun n t hnone hsome => ?_⟩
  rw [hnone] at hsome
  cases hsome

theorem Grows.trans {specifies : String → ℤ → Prop} {t u : Statics Creator}
    (h : Grows specifies s t) (g : Grows specifies t u) : Grows specifies s u := by
  refine ⟨fun n a ha => g.keeps n a (h.keeps n a ha), fun n a hnone ha => ?_⟩
  cases hn : t.protoNameMap.find n with
  | none => exact g.assigns n a hn ha
  | some b =>
    have hab := g.keeps n b hn
    rw [ha] at hab
    cases hab
    exact h.assigns n a hnone hn

theorem Grows.of_same {specifies : String → ℤ → Prop}
    (h : s'.protoNameMap = s.protoNameMap) : Grows specifies s s' := by
  constructor
  · intro n t hn
    rw [h]
    exact hn
  · intro n t hnone hsome
    rw [h, hnone] at hsome
    cases hsome

theorem TypesOk.of_same (hs : TypesOk s) (hmap : s'.protoNameMap = s.protoNameMap)
    (hcounter : s'.counter = s.counter) : TypesOk s' := by
  refine ⟨hcounter ▸ hs.counter_le, ?_, ?_⟩
  · rw [hmap, hcounter]
    exact hs.le_counter
  · rw [hmap]
    exact hs.injective

/-- A name gets a type that no other name has. -/
theorem TypesOk.of_assigned (hs : TypesOk s)
    (hfind : ∀ n, s'.protoNameMap.find n =
      if n = name then some type else s.protoNameMap.find n)
    (hcounter : s.counter ≤ s'.counter) (hle : type ≤ s'.counter)
    (hfresh : ∀ n, s.protoNameMap.find n ≠ some type) : TypesOk s' := by
  refine ⟨hs.counter_le.trans hcounter, fun n t hn => ?_, fun n m t hn hm => ?_⟩
  · rw [hfind] at hn
    split_ifs at hn
    · cases hn
      exact hle
    · exact (hs.le_counter n t hn).trans hcounter
  · rw [hfind] at hn hm
    split_ifs at hn hm with hn' hm' hm'
    · exact hn'.trans hm'.symm
    · cases hn
      exact absurd hm (hfresh m)
    · cases hm
      exact absurd hn (hfresh n)
    · exact hs.injective n m t hn hm

theorem Grows.of_assigned {specifies : String → ℤ → Prop}
    (hnone : s.protoNameMap.find name = none)
    (hfind : ∀ n, s'.protoNameMap.find n =
      if n = name then some type else s.protoNameMap.find n)
    (hassigns : specifies name type ∧ type ≤ reservedProtoTypeSize ∨
      (∀ u, ¬specifies name u) ∧ reservedProtoTypeSize < type) : Grows specifies s s' := by
  refine ⟨fun n t hn => ?_, fun n t hn hsome => ?_⟩
  · rw [hfind]
    split_ifs with h
    · rw [h, hnone] at hn
      cases hn
    · exact hn
  · rw [hfind] at hsome
    split_ifs at hsome with h
    · cases hsome
      exact h ▸ hassigns
    · rw [hn] at hsome
      cases hsome

/-- **A declaration** keeps the types, and the type it assigns is the specified one or above the
reserved range. -/
theorem protoType_keeps {specifies : String → ℤ → Prop} (hs : TypesOk s)
    (hspecifies : ∀ t, specifies name t ↔ t = type ∧ type ≠ -1) :
    TypesOk (protoType name true type s).2 ∧ Grows specifies s (protoType name true type s).2 := by
  obtain heq | ⟨-, hnone, ⟨htype, hfree, heq⟩ | ⟨htype, heq⟩⟩ := protoType_cases name type s
  · rw [heq]
    exact ⟨hs, .refl⟩
  · rw [heq]
    refine ⟨hs.of_assigned (find_assignType hnone) (le_refl _)
      (hfree.2.trans hs.counter_le) hfree.1, ?_⟩
    exact .of_assigned hnone (find_assignType hnone)
      (.inl ⟨(hspecifies type).mpr ⟨rfl, htype⟩, hfree.2⟩)
  · rw [heq]
    have hcounter := hs.counter_le
    have hle : s.counter ≤ (assignNext name s).counter := Int.le_add_one (le_refl _)
    have hfresh : ∀ n, s.protoNameMap.find n ≠ some (s.counter + 1) := by
      intro n hn
      have := hs.le_counter n _ hn
      omega
    refine ⟨hs.of_assigned (find_assignNext hnone) hle (le_refl _) hfresh, ?_⟩
    exact .of_assigned hnone (find_assignNext hnone)
      (.inr ⟨fun u hu => ((hspecifies u).mp hu).2 htype, by omega⟩)

/-! ## Factories -/

variable {f f' : ProtoFactory Creator} {creator : Creator}

/-- Registering declares the name, whatever becomes of the creator. -/
theorem regist_statics (h : regist name creator s f = .ok (s', f')) :
    s' = (protoType name true (-1) s).2 := by
  unfold regist at h
  simp only at h
  split_ifs at h with hlt hpos
  · exact (congrArg Prod.fst (Except.ok.inj h)).symm
  · cases hfound : f.dynamicCreaterMap.lookup (protoType name true (-1) s).1 with
    | some found =>
      rw [hfound] at h
      exact (congrArg Prod.fst (Except.ok.inj h)).symm
    | none =>
      rw [hfound] at h
      exact (congrArg Prod.fst (Except.ok.inj h)).symm

theorem regist_keeps {specifies : String → ℤ → Prop} (hs : TypesOk s)
    (hspecifies : ∀ t, ¬specifies name t) (h : regist name creator s f = .ok (s', f')) :
    TypesOk s' ∧ Grows specifies s s' := by
  rw [regist_statics h]
  exact protoType_keeps hs fun t => iff_of_false (hspecifies t) fun h => h.2 rfl

theorem runFuncs_keeps {specifies : String → ℤ → Prop} (hspecifies : ∀ n t, ¬specifies n t)
    (funcs : List (String × Creator)) : ∀ {s : Statics Creator} {f : ProtoFactory Creator},
    TypesOk s → runFuncs funcs s f = .ok (s', f') → TypesOk s' ∧ Grows specifies s s' := by
  induction funcs with
  | nil =>
    intro s f hs h
    cases h
    exact ⟨hs, .refl⟩
  | cons func funcs ih =>
    intro s f hs h
    obtain ⟨⟨s₁, f₁⟩, hregist, hrest⟩ := bind_eq_ok.mp h
    obtain ⟨hs₁, hgrows⟩ := regist_keeps hs (hspecifies _) hregist
    obtain ⟨hs', hgrows'⟩ := ih hs₁ hrest
    exact ⟨hs', hgrows.trans hgrows'⟩

/-! ## Programs -/

/-- The operation specifies a type, other than -1, for a name. -/
def Event.Specifies : Event Creator → String → ℤ → Prop
  | .staticInit declaration, n, t =>
    declaration.name = n ∧ declaration.specifyType = some t ∧ t ≠ -1
  | .specifyProtoType name type, n, t => name = n ∧ type = t ∧ t ≠ -1
  | _, _, _ => False

theorem staticInitFuncs_same {d : Declaration Creator} :
    (staticInitFuncs d.name d.creator s).protoNameMap = s.protoNameMap ∧
      (staticInitFuncs d.name d.creator s).counter = s.counter := by
  unfold staticInitFuncs
  split_ifs
  · exact ⟨rfl, rfl⟩
  · exact ⟨rfl, rfl⟩

theorem staticInit_keeps {checked : Bool} {d : Declaration Creator} (hs : TypesOk s)
    (h : staticInit checked d s = .ok s') :
    TypesOk s' ∧ Grows (Event.staticInit d).Specifies s s' := by
  obtain ⟨s₁, hdeclared, hs'⟩ := bind_eq_ok.mp h
  obtain rfl := Except.ok.inj hs'
  obtain ⟨hmap, hcounter⟩ := @staticInitFuncs_same _ s₁ d
  have hkeeps : TypesOk s₁ ∧ Grows (Event.staticInit d).Specifies s s₁ := by
    unfold declared at hdeclared
    cases hspecify : d.specifyType with
    | none =>
      rw [hspecify] at hdeclared
      cases hdeclared
      exact ⟨hs, .refl⟩
    | some type =>
      rw [hspecify] at hdeclared
      simp only at hdeclared
      split_ifs at hdeclared
      cases hdeclared
      refine protoType_keeps hs fun t => ?_
      change d.name = d.name ∧ d.specifyType = some t ∧ t ≠ -1 ↔ _
      rw [hspecify]
      constructor
      · rintro ⟨-, htype, hne⟩
        cases htype
        exact ⟨rfl, hne⟩
      · rintro ⟨rfl, hne⟩
        exact ⟨rfl, rfl, hne⟩
  exact ⟨hkeeps.1.of_same hmap hcounter, hkeeps.2.trans (.of_same hmap)⟩

/-- **One operation** keeps the types. -/
theorem step_keeps {checked : Bool} {p p' : Program Creator} {event : Event Creator}
    (hp : TypesOk p.statics) (h : step checked p event = .ok p') :
    TypesOk p'.statics ∧ Grows event.Specifies p.statics p'.statics := by
  cases event with
  | staticInit d =>
    obtain ⟨statics, hinit, hp'⟩ := bind_eq_ok.mp h
    obtain rfl := Except.ok.inj hp'
    exact staticInit_keeps hp hinit
  | construct =>
    obtain ⟨⟨statics, factory⟩, hinit, hp'⟩ := bind_eq_ok.mp h
    obtain rfl := Except.ok.inj hp'
    exact runFuncs_keeps (fun _ _ h => h) _ hp hinit
  | specifyProtoType name type =>
    obtain rfl := Except.ok.inj h
    refine protoType_keeps hp fun t => ?_
    constructor
    · rintro ⟨-, rfl, hne⟩
      exact ⟨rfl, hne⟩
    · rintro ⟨rfl, hne⟩
      exact ⟨rfl, rfl, hne⟩
  | regist index buffer creator =>
    unfold step at h
    simp only at h
    cases hfactory : p.factories[index]? with
    | none =>
      rw [hfactory] at h
      obtain rfl := Except.ok.inj h
      exact ⟨hp, .refl⟩
    | some factory =>
      rw [hfactory] at h
      obtain ⟨⟨statics, factory'⟩, hregist, hp'⟩ := bind_eq_ok.mp h
      obtain rfl := Except.ok.inj hp'
      exact regist_keeps hp (fun _ h => h) hregist
  | write buffer name =>
    unfold step at h
    simp only at h
    split_ifs at h
    obtain rfl := Except.ok.inj h
    exact ⟨hp, .refl⟩

theorem typesOk_empty : TypesOk ({} : Statics Creator) := by
  refine ⟨le_refl _, fun n t h => ?_, fun n m t h => ?_⟩
  · cases h
  · cases h

/-- **A whole run** keeps the types. -/
theorem run_keeps {checked : Bool} (events : List (Event Creator)) :
    ∀ {p p' : Program Creator}, TypesOk p.statics → run checked p events = .ok p' →
      TypesOk p'.statics ∧ ∀ n t, p.statics.protoNameMap.find n = some t →
        p'.statics.protoNameMap.find n = some t := by
  induction events with
  | nil =>
    intro p p' hp h
    cases h
    exact ⟨hp, fun _ _ hn => hn⟩
  | cons event events ih =>
    intro p p' hp h
    obtain ⟨p₁, hstep, hrest⟩ := bind_eq_ok.mp h
    obtain ⟨hp₁, hgrows⟩ := step_keeps hp hstep
    obtain ⟨hp', hkeeps⟩ := ih hp₁ hrest
    exact ⟨hp', fun n t hn => hkeeps n t (hgrows.keeps n t hn)⟩

/-- **In every state** that a program comes to, the types are distinct. -/
theorem Reachable.typesOk {checked : Bool} {p : Program Creator} (h : Reachable checked p) :
    TypesOk p.statics := by
  obtain ⟨events, hrun⟩ := h
  exact (run_keeps events typesOk_empty hrun).1

end NekoProto.Proto
