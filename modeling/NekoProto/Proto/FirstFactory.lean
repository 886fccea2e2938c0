import NekoProto.Proto.TypeIds

/-!
# The first factory

1. Static initializers of distinct names and distinct specified types enter the same types and
   functions in every order (`Entered.unique`).
2. The first factory runs the functions in the order of their names, and numbers those that have
   no type yet (`Numbering.runFuncs`).
-/

namespace NekoProto.Proto

open Outcome (bind_eq_ok)

variable {Creator : Type} {s s' : Statics Creator} {f f' : ProtoFactory Creator} {name : String}
  {type : ℤ} {creator : Creator}

/-! ## Static initializers -/

/-- Protocols with distinct names and distinct specified types. -/
structure Distinct (ds : List (Declaration Creator)) : Prop where
  names : (ds.map Declaration.name).Nodup
  types : (ds.filterMap Declaration.specifyType).Nodup

/-- The specified type is above the reserved range. -/
def Declaration.Exceeds (d : Declaration Creator) : Prop :=
  ∃ t, d.specifyType = some t ∧ reservedProtoTypeSize < t

/-- The specified type is -1, which stands for none: the counter gives one. -/
def Declaration.isCounted (d : Declaration Creator) : Bool := d.specifyType = some (-1)

/-- The initializer enters the type for the name. -/
def Declaration.Enters (d : Declaration Creator) (n : String) (t : ℤ) : Prop :=
  d.name = n ∧ (d.isCounted = true ∧ t = reservedProtoTypeSize + 1 ∨
    d.isCounted = false ∧ d.specifyType = some t ∧ t ≤ reservedProtoTypeSize)

/-- The statics after the initializers of some protocols have run. -/
structure Entered (ds : List (Declaration Creator)) (s : Statics Creator) : Prop where
  counter : s.counter = reservedProtoTypeSize + ds.countP Declaration.isCounted
  funcs : ∀ n c, s.funcs.find n = some c ↔ ∃ d ∈ ds, d.name = n ∧ d.creator = c
  types : ∀ n t, s.protoNameMap.find n = some t ↔ ∃ d ∈ ds, d.Enters n t

theorem entered_nil : Entered [] ({} : Statics Creator) := by
  refine ⟨rfl, fun n c => ?_, fun n t => ?_⟩
  · simp only [List.not_mem_nil, false_and, exists_false, iff_false]
    exact nofun
  · simp only [List.not_mem_nil, false_and, exists_false, iff_false]
    exact nofun

variable {ds ds' : List (Declaration Creator)} {d : Declaration Creator} {checked : Bool}

/-- A protocol whose name and specified type are not among others. -/
structure NewFor (ds : List (Declaration Creator)) (d : Declaration Creator) : Prop where
  name : ∀ d' ∈ ds, d'.name ≠ d.name
  type : ∀ d' ∈ ds, ∀ t, d.specifyType = some t → d'.specifyType ≠ some t

theorem Declaration.isCounted_iff : d.isCounted = true ↔ d.specifyType = some (-1) :=
  decide_eq_true_iff

theorem Entered.find_none (h : Entered ds s) (hd : NewFor ds d) :
    s.protoNameMap.find d.name = none := by
  cases hfind : s.protoNameMap.find d.name with
  | none => rfl
  | some t =>
    obtain ⟨d', hd', hn, -⟩ := (h.types _ _).mp hfind
    exact absurd hn (hd.name d' hd')

/-- Only a type in the reserved range is free. -/
theorem Entered.free_iff (h : Entered ds s) (hd : NewFor ds d)
    (hspecify : d.specifyType = some type) :
    Free type s ↔ type ≤ reservedProtoTypeSize := by
  refine ⟨And.right, fun hle => ⟨fun n hn => ?_, hle⟩⟩
  obtain ⟨d', hd', -, ⟨-, heq⟩ | ⟨-, hd't, -⟩⟩ := (h.types n type).mp hn
  · omega
  · exact hd.type d' hd' type hspecify hd't

theorem exists_append_singleton {P : Declaration Creator → Prop} :
    (∃ d' ∈ ds ++ [d], P d') ↔ (∃ d' ∈ ds, P d') ∨ P d := by
  constructor
  · rintro ⟨d', hmem, hd'⟩
    obtain hmem | hmem := List.mem_append.mp hmem
    · exact .inl ⟨d', hmem, hd'⟩
    · obtain rfl := List.mem_singleton.mp hmem
      exact .inr hd'
  · rintro (⟨d', hmem, hd'⟩ | hd')
    · exact ⟨d', List.mem_append_left _ hmem, hd'⟩
    · exact ⟨d, List.mem_append_right _ (List.mem_singleton_self d), hd'⟩

/-- The type of `d` is entered, or there is none to enter. -/
structure TypeEntered (ds : List (Declaration Creator)) (d : Declaration Creator)
    (s : Statics Creator) : Prop where
  counter : s.counter = reservedProtoTypeSize + (ds ++ [d]).countP Declaration.isCounted
  funcs : ∀ n c, s.funcs.find n = some c ↔ ∃ d ∈ ds, d.name = n ∧ d.creator = c
  types : ∀ n t, s.protoNameMap.find n = some t ↔ ∃ d' ∈ ds ++ [d], d'.Enters n t

theorem countP_append_singleton : (ds ++ [d]).countP Declaration.isCounted =
    ds.countP Declaration.isCounted + if d.isCounted then 1 else 0 := by
  rw [List.countP_append, List.countP_singleton]

/-- The initializer enters a type, the counter gives it or not. -/
theorem Entered.assigned (h : Entered ds s) (hd : NewFor ds d)
    (henters : ∀ n t, d.Enters n t ↔ d.name = n ∧ t = type)
    (hfuncs : s'.funcs = s.funcs)
    (hfind : ∀ n, s'.protoNameMap.find n =
      if n = d.name then some type else s.protoNameMap.find n)
    (hcounter : s'.counter = s.counter + if d.isCounted then 1 else 0) : TypeEntered ds d s' := by
  refine ⟨?_, hfuncs ▸ h.funcs, fun n u => ?_⟩
  · rw [hcounter, h.counter, countP_append_singleton]
    push_cast
    split_ifs <;> omega
  · rw [hfind, exists_append_singleton, ← h.types, henters]
    split_ifs with hn
    · subst hn
      rw [h.find_none hd]
      simp [eq_comm]
    · exact ⟨.inl, fun h => h.resolve_right fun h => hn h.1.symm⟩

theorem Entered.unassigned (h : Entered ds s) (hcounted : d.isCounted = false)
    (henters : ∀ n t, ¬d.Enters n t) : TypeEntered ds d s := by
  refine ⟨?_, h.funcs, fun n t => ?_⟩
  · rw [h.counter, countP_append_singleton, hcounted]
    simp
  · rw [exists_append_singleton, ← h.types]
    exact ⟨.inl, fun h => h.resolve_right (henters n t)⟩

theorem Declaration.enters_none (h : d.specifyType = none) (n : String) (t : ℤ) :
    ¬d.Enters n t := by
  simp [Declaration.Enters, Declaration.isCounted, h]

theorem Declaration.enters_counted (h : d.specifyType = some (-1)) (n : String) (t : ℤ) :
    d.Enters n t ↔ d.name = n ∧ t = reservedProtoTypeSize + 1 := by
  simp [Declaration.Enters, Declaration.isCounted, h]

theorem Declaration.isCounted_false (h : d.specifyType = some type) (htype : type ≠ -1) :
    d.isCounted = false := by
  simp [Declaration.isCounted, h, htype]

theorem Declaration.enters_specified (h : d.specifyType = some type) (htype : type ≠ -1)
    (hle : type ≤ reservedProtoTypeSize) (n : String) (t : ℤ) :
    d.Enters n t ↔ d.name = n ∧ t = type := by
  unfold Declaration.Enters
  rw [Declaration.isCounted_false h htype, h]
  constructor
  · rintro ⟨rfl, ⟨hfalse, -⟩ | ⟨-, heq, -⟩⟩
    · cases hfalse
    · exact ⟨rfl, (Option.some.inj heq).symm⟩
  · rintro ⟨rfl, rfl⟩
    exact ⟨rfl, .inr ⟨rfl, rfl, hle⟩⟩

theorem Declaration.enters_exceeds (h : d.specifyType = some type)
    (hlt : reservedProtoTypeSize < type) (n : String) (t : ℤ) : ¬d.Enters n t := by
  have htype : type ≠ -1 := by
    rintro rfl
    exact absurd hlt (by decide)
  rintro ⟨-, ⟨hcounted, -⟩ | ⟨-, ht, hle⟩⟩
  · rw [Declaration.isCounted_false h htype] at hcounted
    cases hcounted
  · rw [h] at ht
    cases ht
    exact absurd hle (not_le.mpr hlt)

theorem Declaration.exceeds_iff (h : d.specifyType = some type) :
    d.Exceeds ↔ reservedProtoTypeSize < type := by
  unfold Declaration.Exceeds
  rw [h]
  simp

/-- What `declared` does with a specified type, and when the assertion fails. -/
theorem Entered.specified (h : Entered ds s) (hd : NewFor ds d)
    (hspecify : d.specifyType = some type) :
    ((specifyProtoType d.name type s).1 = -1 ↔ d.Exceeds) ∧
      TypeEntered ds d (specifyProtoType d.name type s).2 := by
  have hnone := h.find_none hd
  rw [Declaration.exceeds_iff hspecify]
  unfold specifyProtoType
  by_cases htype : type = -1
  · subst htype
    have hcounted := Declaration.isCounted_iff.mpr hspecify
    have hzero : ds.countP Declaration.isCounted = 0 := by
      rw [List.countP_eq_zero]
      intro d' hd' hcounted'
      exact hd.type d' hd' _ hspecify (Declaration.isCounted_iff.mp hcounted')
    have hcounter : s.counter = reservedProtoTypeSize := by
      rw [h.counter, hzero]
      rfl
    rw [protoType_next d.name_ne hnone, hcounter]
    have hne : reservedProtoTypeSize + 1 ≠ -1 := by decide
    refine ⟨iff_of_false hne (by decide), ?_⟩
    refine h.assigned hd (Declaration.enters_counted hspecify) rfl ?_ ?_
    · rw [← hcounter]
      exact find_assignNext hnone
    · rw [if_pos hcounted]
      rfl
  have hcounted := Declaration.isCounted_false hspecify htype
  by_cases hle : type ≤ reservedProtoTypeSize
  · rw [protoType_specified d.name_ne hnone htype ((h.free_iff hd hspecify).mpr hle)]
    refine ⟨iff_of_false htype (not_lt.mpr hle), ?_⟩
    refine h.assigned hd (Declaration.enters_specified hspecify htype hle) rfl
      (find_assignType hnone) ?_
    rw [hcounted]
    exact (Int.add_zero _).symm
  · rw [protoType_refused d.name_ne hnone htype fun hfree => hle hfree.2]
    refine ⟨iff_of_true rfl (not_le.mp hle), ?_⟩
    exact h.unassigned hcounted (Declaration.enters_exceeds hspecify (not_le.mp hle))

/-- What `declared` does: a type above the reserved range ends a program that checks its
assertions. -/
theorem Entered.declared (h : Entered ds s) (hd : NewFor ds d) :
    (checked = true ∧ d.Exceeds → declared checked d s = .error .aborted) ∧
    (¬(checked = true ∧ d.Exceeds) →
      ∃ s', declared checked d s = .ok s' ∧ TypeEntered ds d s') := by
  unfold Proto.declared
  cases hspecify : d.specifyType with
  | none =>
    refine ⟨?_, fun _ => ⟨s, rfl, ?_⟩⟩
    · rintro ⟨-, t, ht, -⟩
      rw [hspecify] at ht
      cases ht
    · refine h.unassigned ?_ (Declaration.enters_none hspecify)
      simp [Declaration.isCounted, hspecify]
  | some type =>
    obtain ⟨hfails, hentered⟩ := h.specified hd hspecify
    rw [← hfails]
    exact ⟨fun hstop => if_pos hstop, fun hstop => ⟨_, if_neg hstop, hentered⟩⟩

theorem TypeEntered.entered (h : TypeEntered ds d s) (hnone : s.funcs.find d.name = none) :
    Entered (ds ++ [d]) (staticInitFuncs d.name d.creator s) := by
  obtain ⟨hmap, hcounter⟩ := @staticInitFuncs_same _ s d
  refine ⟨hcounter.trans h.counter, fun n c => ?_, fun n t => ?_⟩
  · have hfuncs : (staticInitFuncs d.name d.creator s).funcs = s.funcs.insert d.name d.creator := by
      unfold staticInitFuncs
      rw [if_pos ⟨d.name_ne, hnone⟩]
    rw [hfuncs, OrderedMap.find_insert_new hnone, exists_append_singleton, ← h.funcs]
    split_ifs with hn
    · subst hn
      rw [hnone]
      simp
    · exact ⟨.inl, fun h => h.resolve_right fun h => hn h.1.symm⟩
  · rw [hmap]
    exact h.types n t

theorem TypeEntered.funcs_none (h : TypeEntered ds d s) (hd : NewFor ds d) :
    s.funcs.find d.name = none := by
  cases hfind : s.funcs.find d.name with
  | none => rfl
  | some c =>
    obtain ⟨d', hd', hn, -⟩ := (h.funcs _ _).mp hfind
    exact absurd hn (hd.name d' hd')

/-- **One initializer** of a new name and a new type. -/
theorem Entered.staticInit (h : Entered ds s) (hd : NewFor ds d) :
    (checked = true ∧ d.Exceeds → staticInit checked d s = .error .aborted) ∧
    (¬(checked = true ∧ d.Exceeds) →
      ∃ s', staticInit checked d s = .ok s' ∧ Entered (ds ++ [d]) s') := by
  obtain ⟨habort, hok⟩ := @Entered.declared _ _ _ _ checked h hd
  unfold Proto.staticInit
  refine ⟨fun hstop => ?_, fun hstop => ?_⟩
  · rw [habort hstop]
    rfl
  · obtain ⟨s', hs', hentered⟩ := hok hstop
    rw [hs']
    exact ⟨_, rfl, hentered.entered (hentered.funcs_none hd)⟩

theorem Distinct.newFor {done rest : List (Declaration Creator)}
    (h : Distinct (done ++ d :: rest)) : NewFor done d := by
  have hnames := h.names
  have htypes := h.types
  rw [List.map_append, List.nodup_append] at hnames
  rw [List.filterMap_append, List.nodup_append] at htypes
  refine ⟨fun d' hd' heq => ?_, fun d' hd' t ht hd't => ?_⟩
  · exact hnames.2.2 _ (List.mem_map_of_mem hd') _ (List.mem_map_of_mem List.mem_cons_self) heq
  · exact htypes.2.2 t (List.mem_filterMap.mpr ⟨d', hd', hd't⟩) t
      (List.mem_filterMap.mpr ⟨d, List.mem_cons_self, ht⟩) rfl

/-- **All initializers** of distinct protocols, before any other operation. -/
theorem run_staticInits (rest : List (Declaration Creator)) :
    ∀ {done : List (Declaration Creator)} {p : Program Creator}, Entered done p.statics →
    Distinct (done ++ rest) →
    (checked = true ∧ (∃ d ∈ rest, d.Exceeds) →
      ∀ events, run checked p (rest.map .staticInit ++ events) = .error .aborted) ∧
    (¬(checked = true ∧ ∃ d ∈ rest, d.Exceeds) → ∃ s', Entered (done ++ rest) s' ∧
      ∀ events, run checked p (rest.map .staticInit ++ events) =
        run checked { p with statics := s' } events) := by
  induction rest with
  | nil =>
    intro done p h _
    refine ⟨?_, fun _ => ⟨p.statics, (List.append_nil done).symm ▸ h, fun _ => rfl⟩⟩
    rintro ⟨-, d, hd, -⟩
    exact absurd hd List.not_mem_nil
  | cons d rest ih =>
    intro done p h hdistinct
    obtain ⟨habort, hok⟩ := @Entered.staticInit _ _ _ _ checked h hdistinct.newFor
    by_cases hd : checked = true ∧ d.Exceeds
    · refine ⟨fun _ events => ?_, fun hnot => absurd ⟨hd.1, d, List.mem_cons_self, hd.2⟩ hnot⟩
      change (step checked p (.staticInit d) >>= _) = _
      unfold step
      simp only
      rw [habort hd]
      rfl
    obtain ⟨s', hs', hentered⟩ := hok hd
    have hstep : ∀ events, run checked p ((d :: rest).map .staticInit ++ events) =
        run checked { p with statics := s' } (rest.map .staticInit ++ events) := by
      intro events
      change (step checked p (.staticInit d) >>= _) = _
      unfold step
      simp only
      rw [hs']
      rfl
    have hexceeds : (checked = true ∧ ∃ d' ∈ d :: rest, d'.Exceeds) ↔
        (checked = true ∧ ∃ d' ∈ rest, d'.Exceeds) := by
      refine and_congr_right fun hchecked => ?_
      constructor
      · rintro ⟨d', hmem, hd'⟩
        obtain rfl | hmem := List.mem_cons.mp hmem
        · exact absurd ⟨hchecked, hd'⟩ hd
        · exact ⟨d', hmem, hd'⟩
      · rintro ⟨d', hmem, hd'⟩
        exact ⟨d', List.mem_cons_of_mem _ hmem, hd'⟩
    rw [List.append_cons] at hdistinct ⊢
    obtain ⟨habort', hok'⟩ := @ih (done ++ [d]) { p with statics := s' } hentered hdistinct
    rw [hexceeds]
    refine ⟨fun h events => (hstep events).trans (habort' h events), fun h => ?_⟩
    obtain ⟨s'', hentered', hrun⟩ := hok' h
    exact ⟨s'', hentered', fun events => (hstep events).trans (hrun events)⟩

/-! ## The first factory -/

/-- The types of the names, after the initializers and the first factory. -/
def firstTypes (checked : Bool) (ds : List (Declaration Creator)) :
    Except Stop (OrderedMap String ℤ) :=
  (run checked {} (ds.map .staticInit ++ [.construct])).map fun p => p.statics.protoNameMap

theorem firstTypes_eq (h : Distinct ds) :
    (checked = true ∧ (∃ d ∈ ds, d.Exceeds) → firstTypes checked ds = .error .aborted) ∧
    (¬(checked = true ∧ ∃ d ∈ ds, d.Exceeds) → ∃ s : Statics Creator, Entered ds s ∧
      TypesOk s ∧ firstTypes checked ds = (init s).map fun result => result.1.protoNameMap) := by
  obtain ⟨habort, hok⟩ := @run_staticInits _ checked ds [] {} entered_nil h
  unfold firstTypes
  refine ⟨fun h => ?_, fun h => ?_⟩
  · rw [habort h]
    rfl
  · obtain ⟨s, hentered, hrun⟩ := hok h
    refine ⟨s, hentered, (run_keeps _ typesOk_empty (hrun [])).1, ?_⟩
    rw [hrun]
    change ((init s >>= _) >>= _).map _ = _
    cases init s with
    | error e => rfl
    | ok result => rfl

theorem Distinct.perm (h : Distinct ds) (hperm : ds.Perm ds') : Distinct ds' :=
  ⟨(hperm.map _).nodup_iff.mp h.names, (hperm.filterMap _).nodup_iff.mp h.types⟩

theorem Entered.unique (h : Entered ds s) (h' : Entered ds' s') (hperm : ds.Perm ds') :
    s = s' := by
  have hfuncs : s.funcs = s'.funcs := by
    refine OrderedMap.ext_find fun n => Option.ext fun c => ?_
    rw [h.funcs, h'.funcs]
    simp only [hperm.mem_iff]
  have htypes : s.protoNameMap = s'.protoNameMap := by
    refine OrderedMap.ext_find fun n => Option.ext fun t => ?_
    rw [h.types, h'.types]
    simp only [hperm.mem_iff]
  have hcounter : s.counter = s'.counter := by
    rw [h.counter, h'.counter, hperm.countP_eq]
  cases s
  cases s'
  congr

/-- **The order of the initializers** does not matter. -/
theorem firstTypes_perm (h : Distinct ds) (hperm : ds.Perm ds') :
    firstTypes checked ds = firstTypes checked ds' := by
  obtain ⟨habort, hok⟩ := @firstTypes_eq _ ds checked h
  obtain ⟨habort', hok'⟩ := @firstTypes_eq _ ds' checked (h.perm hperm)
  have hexceeds : (∃ d ∈ ds, d.Exceeds) ↔ ∃ d ∈ ds', d.Exceeds := by
    simp only [hperm.mem_iff]
  by_cases hstop : checked = true ∧ ∃ d ∈ ds, d.Exceeds
  · rw [habort hstop, habort' ⟨hstop.1, hexceeds.mp hstop.2⟩]
  · obtain ⟨s, hentered, -, heq⟩ := hok hstop
    obtain ⟨s', hentered', -, heq'⟩ := hok' fun h => hstop ⟨h.1, hexceeds.mpr h.2⟩
    rw [heq, heq', hentered.unique hentered' hperm]

/-! ## The numbers of the first factory -/

/-- The initializer enters no type, so that the first factory numbers the name. -/
def Declaration.IsNumbered (d : Declaration Creator) : Prop := d.specifyType = none ∨ d.Exceeds

theorem Declaration.IsNumbered.not_enters (h : d.IsNumbered) (n : String) (t : ℤ) :
    ¬d.Enters n t := by
  obtain h | ⟨type, h, hlt⟩ := h
  · exact Declaration.enters_none h n t
  · exact Declaration.enters_exceeds h hlt n t

/-- The types of these names are in the order of the names. -/
def Increasing (names : String → Prop) (types : OrderedMap String ℤ) : Prop :=
  ∀ n m t u, names n → names m → types.find n = some t → types.find m = some u → n < m → t < u

/-- What the loop of `_init` keeps, with the functions that it has not run yet: the names in
question that have a type come before theirs. -/
structure Numbering (names : String → Prop) (funcs : List (String × Creator))
    (s : Statics Creator) : Prop where
  typesOk : TypesOk s
  increasing : Increasing names s.protoNameMap
  below : ∀ n t, names n → s.protoNameMap.find n = some t → ∀ func ∈ funcs, n < func.1

variable {names : String → Prop} {funcs : List (String × Creator)}

/-- A new name takes the next type, above all others. -/
theorem Numbering.next (h : Numbering names ((name, creator) :: funcs) s)
    (hnone : s.protoNameMap.find name = none) (hsorted : ∀ func ∈ funcs, name < func.1) :
    Increasing names (assignNext name s).protoNameMap ∧
      ∀ n t, names n → (assignNext name s).protoNameMap.find n = some t →
        ∀ func ∈ funcs, n < func.1 := by
  constructor
  · intro n m t u hn hm ht hu hlt
    rw [find_assignNext hnone] at ht hu
    split_ifs at ht hu with hn' hm' hm'
    · exact absurd (hn'.trans hm'.symm) hlt.ne
    · subst hn'
      exact absurd hlt (h.below m u hm hu _ List.mem_cons_self).asymm
    · cases hu
      exact Int.lt_add_one_of_le (h.typesOk.le_counter n t ht)
    · exact h.increasing n m t u hn hm ht hu hlt
  · intro n t hn ht func hfunc
    rw [find_assignNext hnone] at ht
    split_ifs at ht with hn'
    · exact hn' ▸ hsorted func hfunc
    · exact h.below n t hn ht func (List.mem_cons_of_mem _ hfunc)

/-- **One registration** of a function. -/
theorem Numbering.regist (h : Numbering names ((name, creator) :: funcs) s)
    (hsorted : ∀ func ∈ funcs, name < func.1) (hregist : regist name creator s f = .ok (s', f')) :
    Numbering names funcs s' := by
  obtain ⟨htypes, -⟩ : TypesOk s' ∧ Grows NoneSpecified s s' :=
    regist_keeps h.typesOk (fun _ h => h) hregist
  obtain heq | ⟨-, hnone, ⟨hne, -⟩ | ⟨-, heq⟩⟩ := protoType_cases name (-1) s
  · obtain rfl := (regist_statics hregist).trans heq
    exact ⟨htypes, h.increasing, fun n t hn ht func hfunc =>
      h.below n t hn ht func (List.mem_cons_of_mem _ hfunc)⟩
  · exact absurd rfl hne
  · obtain rfl := (regist_statics hregist).trans heq
    obtain ⟨hincreasing, hbelow⟩ := h.next hnone hsorted
    exact ⟨htypes, hincreasing, hbelow⟩

theorem Numbering.runFuncs (funcs : List (String × Creator)) :
    ∀ {s : Statics Creator} {f : ProtoFactory Creator}, Numbering names funcs s →
      (funcs.Pairwise fun a b => a.1 < b.1) → runFuncs funcs s f = .ok (s', f') →
      Increasing names s'.protoNameMap := by
  induction funcs with
  | nil =>
    intro s f h _ hrun
    cases hrun
    exact h.increasing
  | cons func funcs ih =>
    intro s f h hsorted hrun
    obtain ⟨hfirst, hrest⟩ := List.pairwise_cons.mp hsorted
    obtain ⟨⟨s₁, f₁⟩, hregist, hrun⟩ := bind_eq_ok.mp hrun
    exact ih (h.regist hfirst hregist) hrest hrun

/-- A registered name has a type. -/
theorem regist_types (hname : name ≠ "") (h : regist name creator s f = .ok (s', f')) :
    ∃ t, s'.protoNameMap.find name = some t := by
  rw [regist_statics h]
  cases hfind : s.protoNameMap.find name with
  | some t => exact ⟨t, by rw [protoType_found hname hfind, hfind]⟩
  | none =>
    refine ⟨s.counter + 1, ?_⟩
    rw [protoType_next hname hfind, find_assignNext hfind, if_pos rfl]

theorem runFuncs_types (funcs : List (String × Creator)) :
    ∀ {s : Statics Creator} {f : ProtoFactory Creator}, TypesOk s →
      (∀ func ∈ funcs, func.1 ≠ "") → runFuncs funcs s f = .ok (s', f') →
      ∀ func ∈ funcs, ∃ t, s'.protoNameMap.find func.1 = some t := by
  induction funcs with
  | nil => exact fun _ _ _ func hfunc => absurd hfunc List.not_mem_nil
  | cons first funcs ih =>
    intro s f hs hnames hrun
    obtain ⟨hfirst, hrest⟩ := List.forall_mem_cons.mp hnames
    obtain ⟨⟨s₁, f₁⟩, hregist, hrun⟩ := bind_eq_ok.mp hrun
    obtain ⟨hs₁, -⟩ : TypesOk s₁ ∧ Grows NoneSpecified s s₁ :=
      regist_keeps hs (fun _ h => h) hregist
    obtain ⟨t, ht⟩ := regist_types hfirst hregist
    have hgrows : Grows NoneSpecified s₁ s' := (runFuncs_keeps (fun _ _ h => h) funcs hs₁ hrun).2
    exact List.forall_mem_cons.mpr ⟨⟨t, hgrows.keeps _ t ht⟩, ih hs₁ hrest hrun⟩

/-- The protocols have types: those that their initializers entered, or numbers in the order of
their names. -/
structure Assigned (ds : List (Declaration Creator)) (types : OrderedMap String ℤ) : Prop where
  entered : ∀ d ∈ ds, ∀ t, d.Enters d.name t → types.find d.name = some t
  numbered : ∀ d ∈ ds, d.IsNumbered → ∃ t, types.find d.name = some t ∧ reservedProtoTypeSize < t
  increasing : ∀ d ∈ ds, ∀ d' ∈ ds, d.IsNumbered → d'.IsNumbered → ∀ t u,
    types.find d.name = some t → types.find d'.name = some u → d.name < d'.name → t < u

theorem Distinct.eq_of_name (h : Distinct ds) {d d' : Declaration Creator} (hd : d ∈ ds)
    (hd' : d' ∈ ds) (heq : d.name = d'.name) : d = d' :=
  List.inj_on_of_nodup_map h.names hd hd' heq

theorem Entered.init (h : Entered ds s) (hs : TypesOk s) (hdistinct : Distinct ds)
    (hinit : init s = .ok (s', f')) : Assigned ds s'.protoNameMap := by
  have hgrows : Grows NoneSpecified s s' := (runFuncs_keeps (fun _ _ h => h) _ hs hinit).2
  have hnone : ∀ d ∈ ds, d.IsNumbered → s.protoNameMap.find d.name = none := by
    intro d hd hnumbered
    cases hfind : s.protoNameMap.find d.name with
    | none => rfl
    | some t =>
      obtain ⟨d', hd', henters⟩ := (h.types _ _).mp hfind
      obtain rfl := hdistinct.eq_of_name hd' hd henters.1
      exact absurd henters (hnumbered.not_enters _ t)
  refine ⟨fun d hd t henters => ?_, fun d hd hnumbered => ?_, ?_⟩
  · exact hgrows.keeps _ t ((h.types _ t).mpr ⟨d, hd, henters⟩)
  · have hfuncs := (h.funcs d.name d.creator).mpr ⟨d, hd, rfl, rfl⟩
    have hne : ∀ func ∈ s.funcs.entries, func.1 ≠ "" := by
      rintro ⟨n, c⟩ hfunc
      obtain ⟨d', -, rfl, -⟩ := (h.funcs n c).mp (OrderedMap.mem_entries_iff.mp hfunc)
      exact d'.name_ne
    obtain ⟨t, ht⟩ := runFuncs_types _ hs hne hinit _ (OrderedMap.mem_entries_iff.mpr hfuncs)
    obtain ⟨hfalse, -⟩ | ⟨-, hlt⟩ := hgrows.assigns _ t (hnone d hd hnumbered) ht
    · exact hfalse.elim
    · exact ⟨t, ht, hlt⟩
  · have hnumbering :
        Numbering (fun n => ∃ d ∈ ds, d.name = n ∧ d.IsNumbered) s.funcs.entries s := by
      refine ⟨hs, ?_, ?_⟩
      · rintro n m t u ⟨d, hd, rfl, hnumbered⟩ - ht
        rw [hnone d hd hnumbered] at ht
        cases ht
      · rintro n t ⟨d, hd, rfl, hnumbered⟩ ht
        rw [hnone d hd hnumbered] at ht
        cases ht
    intro d hd d' hd' hnumbered hnumbered' t u
    exact hnumbering.runFuncs _ s.funcs.sorted hinit _ _ t u ⟨d, hd, rfl, hnumbered⟩
      ⟨d', hd', rfl, hnumbered'⟩

/-- **What the first factory assigns.** -/
theorem firstTypes_assigned (h : Distinct ds) {types : OrderedMap String ℤ}
    (hok : firstTypes checked ds = .ok types) : Assigned ds types := by
  obtain ⟨habort, hinit⟩ := @firstTypes_eq _ ds checked h
  by_cases hstop : checked = true ∧ ∃ d ∈ ds, d.Exceeds
  · rw [habort hstop] at hok
    cases hok
  · obtain ⟨s, hentered, hs, heq⟩ := hinit hstop
    rw [heq] at hok
    cases hresult : init s with
    | error e =>
      rw [hresult] at hok
      cases hok
    | ok result =>
      rw [hresult] at hok
      cases hok
      exact hentered.init hs h hresult

/-! ## Ids of protocols -/

/-- **The types of protocols.** In every state the map from names to types is injective; no run
changes a type; and an operation assigns the type that it specifies, which is not above the
reserved range, or specifies none and assigns one above. Whatever the order in which the static
initializers of distinct protocols run, the first factory gives the same types, and numbers the
names that have none in their order. -/
theorem proto_types (checked : Bool) :
    (∀ p : Program Creator, Reachable checked p →
      (∀ n m t, p.statics.protoNameMap.find n = some t → p.statics.protoNameMap.find m = some t →
        n = m) ∧
      (∀ events p', run checked p events = .ok p' → ∀ n t,
        p.statics.protoNameMap.find n = some t → p'.statics.protoNameMap.find n = some t) ∧
      ∀ event p', step checked p event = .ok p' → Grows event.Specifies p.statics p'.statics) ∧
    ∀ ds : List (Declaration Creator), Distinct ds →
      (∀ ds', ds.Perm ds' → firstTypes checked ds = firstTypes checked ds') ∧
      ∀ types, firstTypes checked ds = .ok types → Assigned ds types := by
  refine ⟨fun p hp => ⟨hp.typesOk.injective, ?_, ?_⟩, fun ds h => ⟨?_, ?_⟩⟩
  · exact fun events p' hrun => (run_keeps events hp.typesOk hrun).2
  · exact fun event p' hstep => (step_keeps hp.typesOk hstep).2
  · exact fun ds' hperm => firstTypes_perm h hperm
  · exact fun types hok => firstTypes_assigned h hok

/-- Three protocols, of which one specifies its type. -/
def threeProtocols : List (Declaration ℕ) :=
  [{ name := "Ping", creator := 0 }, { name := "Hello", specifyType := some 7, creator := 1 },
    { name := "Echo", creator := 2 }]

theorem proto_types_three :
    (∃ p : Program ℕ, run true {} (threeProtocols.map .staticInit ++ [.construct]) = .ok p ∧
      ∀ n m t, p.statics.protoNameMap.find n = some t → p.statics.protoNameMap.find m = some t →
        n = m) ∧
    firstTypes true threeProtocols = firstTypes true threeProtocols.reverse ∧
      ∃ types : OrderedMap String ℤ, types.entries = [("Echo", 65), ("Hello", 7), ("Ping", 66)] ∧
        Assigned threeProtocols types := by
  have h : Distinct threeProtocols := ⟨by decide, by decide⟩
  obtain ⟨hperm, hassigned⟩ := (proto_types true).2 threeProtocols h
  refine ⟨⟨_, rfl, ?_⟩, hperm _ (List.reverse_perm _).symm, _, rfl, hassigned _ rfl⟩
  exact ((proto_types true).1 _ ⟨threeProtocols.map .staticInit ++ [.construct], rfl⟩).1

/-- Two protocols of one name keep the type of the one that is initialized first. And -1 stands
for no type: the name takes a number before those that the factory gives. -/
theorem proto_types_differ :
    (∃ ds : List (Declaration ℕ), (ds.filterMap Declaration.specifyType).Nodup ∧
      (firstTypes true ds).map OrderedMap.entries = .ok [("Message", 5)] ∧
      (firstTypes true ds.reverse).map OrderedMap.entries = .ok [("Message", 6)]) ∧
    ∃ ds : List (Declaration ℕ), (ds.filterMap Declaration.specifyType).Nodup ∧
      (firstTypes true ds).map OrderedMap.entries = .ok [("Alpha", 66), ("Zeta", 65)] :=
  ⟨⟨[{ name := "Message", specifyType := some 5, creator := 0 },
      { name := "Message", specifyType := some 6, creator := 1 }], by decide, rfl, rfl⟩,
    [{ name := "Zeta", specifyType := some (-1), creator := 0 },
      { name := "Alpha", creator := 1 }], by decide, rfl⟩

end NekoProto.Proto
