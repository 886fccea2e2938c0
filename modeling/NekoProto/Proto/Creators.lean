import NekoProto.Proto.TypeIds
import Mathlib.Logic.Function.Basic
import Mathlib.Data.List.Forall2

/-!
# Registered creators

1. What a factory is for: each name has the creator that was registered last, or none
   (`Registered`), whatever its type. The name is what stands in the buffer at the time.
2. A factory represents that (`Represents`) if a type of a name finds the creator of the name.
   Assigning types keeps it (`Represents.mono`), and so does registering a name, if its type is
   positive and the dynamic map has no other creator there (`Represents.regist`).
3. Hence every run whose operations meet that condition (`run_represents`).
-/

namespace NekoProto.Proto

open Outcome (bind_eq_ok)

variable {Creator : Type} {s s' : Statics Creator} {f f' : ProtoFactory Creator} {name : String}
  {type : ℤ} {creator : Creator}

/-! ## What factories are for -/

/-- The creators of the names of a factory. -/
abbrev Creators (Creator : Type) := String → Option Creator

/-- The functions of the static initializers, the factories, and the names in the buffers. -/
structure Registered (Creator : Type) where
  funcs : Creators Creator := fun _ => none
  factories : List (Creators Creator) := []
  buffers : ℕ → String := fun _ => ""

/-- What an operation registers. The first function of a name stays; a new factory registers all
functions; registering a name replaces its creator. -/
def Registered.step (r : Registered Creator) : Event Creator → Registered Creator
  | .staticInit d =>
    { r with funcs := Function.update r.funcs d.name (some ((r.funcs d.name).getD d.creator)) }
  | .construct => { r with factories := r.factories ++ [r.funcs] }
  | .specifyProtoType _ _ => r
  | .regist index buffer creator =>
    { r with
      factories := r.factories.modify index fun c =>
        Function.update c (r.buffers buffer) (some creator) }
  | .write buffer name => { r with buffers := Function.update r.buffers buffer name }

/-- What is registered after some operations. -/
def registered (events : List (Event Creator)) : Registered Creator :=
  events.foldl Registered.step {}

/-! ## Registering -/

theorem createType_reserved (hpos : 0 < type) (hlt : type < f.createrList.length) :
    createType type f = f.createrList[type.toNat]?.join := by
  unfold createType
  cases hslot : f.createrList[type.toNat]?.join with
  | none => rw [if_neg (fun h => by simp at h), if_neg (not_le.mpr hlt)]
  | some c => rw [if_pos ⟨hpos, hlt, rfl⟩]

theorem createType_dynamic (hle : f.createrList.length ≤ type) :
    createType type f = f.dynamicCreaterMap.lookup type := by
  unfold createType
  rw [if_neg fun h => absurd h.2.1 (not_lt.mpr hle), if_pos hle]

theorem createType_congr {t : ℤ} (hlength : f'.createrList.length = f.createrList.length)
    (hslot : 0 < t → f'.createrList[t.toNat]? = f.createrList[t.toNat]?)
    (hdynamic : f'.dynamicCreaterMap.lookup t = f.dynamicCreaterMap.lookup t) :
    createType t f' = createType t f := by
  unfold createType
  rw [hlength, hdynamic]
  by_cases hpos : 0 < t
  · rw [hslot hpos]
  · have hnot : ∀ q : Prop, ¬(0 < t ∧ q) := fun _ h => hpos h.1
    rw [if_neg (hnot _), if_neg (hnot _)]

/-- **Registering a name of a positive type** changes what its type creates, unless there is a
creator of this type in the dynamic map, which stays. -/
theorem regist_ok (htype : protoType name true (-1) s = (type, s')) (hpos : 0 < type)
    (hdynamic : f.createrList.length ≤ type →
      ∀ c, f.dynamicCreaterMap.lookup type = some c → c = creator) :
    ∃ f', regist name creator s f = .ok (s', f') ∧
      ∀ t, createType t f' = if t = type then some creator else createType t f := by
  unfold regist
  rw [htype]
  simp only
  by_cases hlt : type < f.createrList.length
  · rw [if_pos hlt, if_pos hpos.le]
    refine ⟨_, rfl, fun t => ?_⟩
    split_ifs with heq
    · subst heq
      rw [createType_reserved hpos (by rw [List.length_set]; exact hlt),
        List.getElem?_set_self (by omega)]
      rfl
    · refine createType_congr List.length_set (fun ht => ?_) rfl
      exact List.getElem?_set_ne (by omega)
  · have hle := not_lt.mp hlt
    rw [if_neg hlt]
    cases hlookup : f.dynamicCreaterMap.lookup type with
    | some c =>
      refine ⟨f, rfl, fun t => ?_⟩
      split_ifs with heq
      · rw [heq, createType_dynamic hle, hlookup, hdynamic hle c hlookup]
      · rfl
    | none =>
      refine ⟨_, rfl, fun t => ?_⟩
      split_ifs with heq
      · subst heq
        rw [@createType_dynamic _ ⟨f.createrList, (t, creator) :: f.dynamicCreaterMap⟩ t hle,
          List.lookup_cons, BEq.rfl]
      · refine createType_congr rfl (fun _ => rfl) ?_
        rw [List.lookup_cons, beq_eq_false_iff_ne.mpr heq]

/-! ## What a factory represents -/

/-- The factory creates what is registered. Nothing is created for a type without a name, so that
a name which gets it finds nothing. -/
structure Represents (s : Statics Creator) (f : ProtoFactory Creator) (c : Creators Creator) :
    Prop where
  empty : c "" = none
  named : ∀ n t, s.protoNameMap.find n = some t → createType t f = c n
  unnamed : ∀ n, s.protoNameMap.find n = none → c n = none
  free : ∀ t, (∀ n, s.protoNameMap.find n ≠ some t) → createType t f = none

variable {c : Creators Creator}

/-- **New types** create nothing. -/
theorem Represents.mono (h : Represents s f c) (hs' : TypesOk s')
    (hkeeps : ∀ n t, s.protoNameMap.find n = some t → s'.protoNameMap.find n = some t) :
    Represents s' f c := by
  refine ⟨h.empty, fun n t ht => ?_, fun n hn => ?_, fun t ht => ?_⟩
  · cases hn : s.protoNameMap.find n with
    | some u =>
      have hu := hkeeps n u hn
      rw [ht] at hu
      cases hu
      exact h.named n t hn
    | none =>
      rw [h.unnamed n hn]
      refine h.free t fun m hm => ?_
      obtain rfl := hs'.injective n m t ht (hkeeps m t hm)
      rw [hn] at hm
      cases hm
  · refine h.unnamed n ?_
    cases hfind : s.protoNameMap.find n with
    | none => rfl
    | some t =>
      rw [hkeeps n t hfind] at hn
      cases hn
  · exact h.free t fun n hn => ht n (hkeeps n t hn)

/-- A name that has a type from before, or that gets one. -/
theorem Represents.set (h : Represents s f c) (hs : TypesOk s) (hne : name ≠ "")
    (hname : s.protoNameMap.find name = some type)
    (hset : ∀ t, createType t f' = if t = type then some creator else createType t f) :
    Represents s f' (Function.update c name (some creator)) := by
  refine ⟨?_, fun n t ht => ?_, fun n hn => ?_, fun t ht => ?_⟩
  · rw [Function.update_of_ne hne.symm, h.empty]
  · rw [hset]
    by_cases hn : n = name
    · subst hn
      rw [hname] at ht
      rw [if_pos (Option.some.inj ht).symm, Function.update_self]
    · have hne : t ≠ type := by
        rintro rfl
        exact hn (hs.injective n name t ht hname)
      rw [if_neg hne, Function.update_of_ne hn, h.named n t ht]
  · have hne : n ≠ name := by
      rintro rfl
      rw [hn] at hname
      cases hname
    rw [Function.update_of_ne hne, h.unnamed n hn]
  · have hne : t ≠ type := by
      rintro rfl
      exact ht name hname
    rw [hset, if_neg hne, h.free t ht]

/-- The name can be registered with the creator: it has a positive type or none, and the dynamic
map has no other creator of its type. -/
def CanRegist (name : String) (creator : Creator) (s : Statics Creator) (f : ProtoFactory Creator) :
    Prop :=
  name ≠ "" ∧ ∀ type, s.protoNameMap.find name = some type → 0 < type ∧
    (f.createrList.length ≤ type → ∀ c, f.dynamicCreaterMap.lookup type = some c → c = creator)

/-- **Registering a name.** -/
theorem Represents.regist (h : Represents s f c) (hs : TypesOk s)
    (hcan : CanRegist name creator s f) :
    ∃ s' f', regist name creator s f = .ok (s', f') ∧
      Represents s' f' (Function.update c name (some creator)) := by
  obtain ⟨hname, htypes⟩ := hcan
  cases hfind : s.protoNameMap.find name with
  | some type =>
    obtain ⟨hpos, hdynamic⟩ := htypes type hfind
    obtain ⟨f', hregist, hset⟩ := regist_ok (protoType_found hname hfind) hpos hdynamic
    exact ⟨s, f', hregist, h.set hs hname hfind hset⟩
  | none =>
    have hpos : 0 < s.counter + 1 := by
      have := hs.counter_le
      unfold reservedProtoTypeSize at this
      omega
    have hfresh : ∀ n, s.protoNameMap.find n ≠ some (s.counter + 1) := by
      intro n hn
      have := hs.le_counter n _ hn
      omega
    have hnone : f.createrList.length ≤ s.counter + 1 →
        ∀ c, f.dynamicCreaterMap.lookup (s.counter + 1) = some c → c = creator := by
      intro hle c hc
      rw [← createType_dynamic hle, h.free _ hfresh] at hc
      cases hc
    obtain ⟨f', hregist, hset⟩ := regist_ok (protoType_next hname hfind) hpos hnone
    obtain ⟨hs', hgrows⟩ :
        TypesOk (assignNext name s) ∧ Grows NoneSpecified s (assignNext name s) :=
      regist_keeps hs (fun _ h => h) hregist
    have hassigned : (assignNext name s).protoNameMap.find name = some (s.counter + 1) := by
      rw [find_assignNext hfind, if_pos rfl]
    exact ⟨_, f', hregist, (h.mono hs' hgrows.keeps).set hs' hname hassigned hset⟩

/-! ## New factories -/

/-- The names of these functions have positive types, or none. -/
def PositiveTypes (names : List String) (s : Statics Creator) : Prop :=
  ∀ n ∈ names, ∀ t, s.protoNameMap.find n = some t → 0 < t

theorem PositiveTypes.mono {names : List String} (h : PositiveTypes names s)
    (hgrows : Grows NoneSpecified s s') : PositiveTypes names s' := by
  intro n hn t ht
  cases hfind : s.protoNameMap.find n with
  | some u =>
    have hu := hgrows.keeps n u hfind
    rw [ht] at hu
    cases hu
    exact h n hn t hfind
  | none =>
    obtain ⟨hfalse, -⟩ | ⟨-, hlt⟩ := hgrows.assigns n t hfind ht
    · exact hfalse.elim
    · exact lt_trans (by decide) hlt

/-- A name without a creator can be registered if its type is positive. -/
theorem Represents.canRegist (h : Represents s f c) (hname : name ≠ "") (hnone : c name = none)
    (hpos : ∀ t, s.protoNameMap.find name = some t → 0 < t) : CanRegist name creator s f := by
  refine ⟨hname, fun t ht => ⟨hpos t ht, fun hle c' hc' => ?_⟩⟩
  rw [← createType_dynamic hle, h.named name t ht, hnone] at hc'
  cases hc'

/-- The creators after some functions have run. -/
def afterFuncs (funcs : List (String × Creator)) (c : Creators Creator) : Creators Creator :=
  fun n => (funcs.lookup n).or (c n)

theorem afterFuncs_cons {funcs : List (String × Creator)} (hname : name ∉ funcs.map Prod.fst) :
    afterFuncs funcs (Function.update c name (some creator)) =
      afterFuncs ((name, creator) :: funcs) c := by
  funext n
  unfold afterFuncs
  rw [KeyedTable.lookup_cons]
  split_ifs with hn
  · subst hn
    have hnone : funcs.lookup n = none := by
      rw [List.lookup_eq_none_iff]
      rintro func hfunc
      exact bne_iff_ne.mpr fun heq => hname (heq ▸ List.mem_map_of_mem hfunc)
    rw [hnone, Function.update_self]
    rfl
  · rw [Function.update_of_ne hn]

/-- **The loop of `_init`**, over distinct names without a creator. -/
theorem Represents.runFuncs (funcs : List (String × Creator)) :
    ∀ {s : Statics Creator} {f : ProtoFactory Creator} {c : Creators Creator}, Represents s f c →
      TypesOk s → (funcs.map Prod.fst).Nodup → (∀ func ∈ funcs, func.1 ≠ "" ∧ c func.1 = none) →
      PositiveTypes (funcs.map Prod.fst) s →
      ∃ s' f', runFuncs funcs s f = .ok (s', f') ∧ Represents s' f' (afterFuncs funcs c) := by
  induction funcs with
  | nil => exact fun h _ _ _ _ => ⟨_, _, rfl, h⟩
  | cons func funcs ih =>
    intro s f c h hs hnodup hnames hpos
    obtain ⟨hnotMem, hnodup⟩ := List.nodup_cons.mp hnodup
    obtain ⟨⟨hne, hnone⟩, hnames⟩ := List.forall_mem_cons.mp hnames
    have hcan : CanRegist func.1 func.2 s f :=
      h.canRegist hne hnone (hpos func.1 List.mem_cons_self)
    obtain ⟨s₁, f₁, hregist, hrepresents⟩ := h.regist hs hcan
    obtain ⟨hs₁, hgrows⟩ : TypesOk s₁ ∧ Grows NoneSpecified s s₁ :=
      regist_keeps hs (fun _ h => h) hregist
    have hrest : ∀ func' ∈ funcs, func'.1 ≠ "" ∧
        Function.update c func.1 (some func.2) func'.1 = none := by
      intro func' hfunc'
      obtain ⟨hne', hnone'⟩ := hnames func' hfunc'
      refine ⟨hne', ?_⟩
      rw [Function.update_of_ne, hnone']
      rintro heq
      exact hnotMem (heq ▸ List.mem_map_of_mem hfunc')
    have hpos₁ : PositiveTypes (funcs.map Prod.fst) s₁ :=
      PositiveTypes.mono (fun n hn => hpos n (List.mem_cons_of_mem _ hn)) hgrows
    obtain ⟨s', f', hrun, hrepresents'⟩ := ih hrepresents hs₁ hnodup hrest hpos₁
    rw [afterFuncs_cons hnotMem] at hrepresents'
    exact ⟨s', f', bind_eq_ok.mpr ⟨(s₁, f₁), hregist, hrun⟩, hrepresents'⟩

theorem represents_empty (n : ℕ) :
    Represents s { createrList := List.replicate n none } fun _ => none := by
  have hnone : ∀ t : ℤ,
      createType t { createrList := List.replicate n (none : Option Creator) } = none := by
    intro t
    by_cases hle : n ≤ t
    · rw [createType_dynamic (by rw [List.length_replicate]; exact hle)]
      rfl
    · unfold createType
      rw [if_neg, if_neg]
      · rw [List.length_replicate]
        exact hle
      · rintro ⟨-, -, hsome⟩
        rw [List.getElem?_replicate] at hsome
        split_ifs at hsome
        all_goals cases hsome
  exact ⟨rfl, fun _ t _ => hnone t, fun _ _ => rfl, fun t _ => hnone t⟩

/-- **A new factory** has the functions registered. -/
theorem init_represents (hs : TypesOk s) (hname : s.funcs.find "" = none)
    (hpos : PositiveTypes (s.funcs.entries.map Prod.fst) s) :
    ∃ s' f', init s = .ok (s', f') ∧ Represents s' f' s.funcs.find := by
  have hnodup : (s.funcs.entries.map Prod.fst).Nodup :=
    List.pairwise_map.mpr (s.funcs.sorted.imp fun hlt => hlt.ne)
  have hnames : ∀ func ∈ s.funcs.entries, func.1 ≠ "" ∧ (none : Option Creator) = none := by
    rintro ⟨n, c⟩ hfunc
    refine ⟨?_, rfl⟩
    rintro rfl
    rw [OrderedMap.mem_entries_iff, hname] at hfunc
    cases hfunc
  obtain ⟨s', f', hrun, hrepresents⟩ :=
    (represents_empty _).runFuncs s.funcs.entries hs hnodup hnames hpos
  have hfind : afterFuncs s.funcs.entries (fun _ => none) = s.funcs.find := by
    funext n
    exact Option.or_none
  exact ⟨s', f', hrun, hfind ▸ hrepresents⟩

/-! ## Programs -/

/-- The condition of an operation: names that are registered can be, the functions that a new
factory runs have positive types, or none, and the characters of a key stay as they are. -/
def Event.Meets (p : Program Creator) : Event Creator → Prop
  | .construct => PositiveTypes (p.statics.funcs.entries.map Prod.fst) p.statics
  | .regist index buffer creator =>
    ∀ f, p.factories[index]? = some f → CanRegist (p.buffers buffer) creator p.statics f
  | .write buffer name => buffer ∈ p.keys → name = p.buffers buffer
  | _ => True

/-- The condition of all operations, each in the state before it. -/
def AllMeet (checked : Bool) : Program Creator → List (Event Creator) → Prop
  | _, [] => True
  | p, event :: events =>
    event.Meets p ∧ ∀ p', step checked p event = .ok p' → AllMeet checked p' events

/-- The program creates what is registered. -/
structure Refines (p : Program Creator) (r : Registered Creator) : Prop where
  typesOk : TypesOk p.statics
  unnamed : p.statics.funcs.find "" = none
  funcs : p.statics.funcs.find = r.funcs
  factories : List.Forall₂ (Represents p.statics) p.factories r.factories
  buffers : p.buffers = r.buffers

theorem refines_empty : Refines ({} : Program Creator) {} :=
  ⟨typesOk_empty, rfl, rfl, .nil, rfl⟩

variable {checked : Bool} {p p' : Program Creator} {r : Registered Creator}

/-- Types that are assigned do not matter to the factories. -/
theorem Refines.mono (h : Refines p r) (hs' : TypesOk s')
    (hkeeps : ∀ n t, p.statics.protoNameMap.find n = some t → s'.protoNameMap.find n = some t) :
    List.Forall₂ (Represents s') p.factories r.factories :=
  h.factories.imp fun _ _ hrepresents => hrepresents.mono hs' hkeeps

theorem protoType_funcs (name : String) (type : ℤ) (s : Statics Creator) :
    (protoType name true type s).2.funcs = s.funcs := by
  obtain heq | ⟨-, -, ⟨-, -, heq⟩ | ⟨-, heq⟩⟩ := protoType_cases name type s
  all_goals exact congrArg (fun statics => statics.funcs) heq

theorem declared_cases {d : Declaration Creator} :
    declared checked d s = .error .aborted ∨
      ∃ s', declared checked d s = .ok s' ∧ s'.funcs = s.funcs := by
  unfold declared
  cases d.specifyType with
  | none => exact .inr ⟨s, rfl, rfl⟩
  | some type =>
    simp only
    split_ifs
    · exact .inl rfl
    · exact .inr ⟨_, rfl, protoType_funcs _ _ _⟩

theorem find_staticInitFuncs {d : Declaration Creator} :
    (staticInitFuncs d.name d.creator s).funcs.find =
      Function.update s.funcs.find d.name (some ((s.funcs.find d.name).getD d.creator)) := by
  funext n
  unfold staticInitFuncs
  cases hfind : s.funcs.find d.name with
  | none =>
    rw [if_pos ⟨d.name_ne, rfl⟩, OrderedMap.find_insert_new hfind, Function.update_apply]
    rfl
  | some c =>
    have hnot : ¬(d.name ≠ "" ∧ some c = none) := fun h => Option.some_ne_none c h.2
    rw [if_neg hnot, Function.update_apply]
    split_ifs with hn
    · rw [hn, hfind]
      rfl
    · rfl

/-- Why a run stops that does not meet the conditions. -/
def Stop.IsFault (stop : Stop) : Prop := stop = .outOfBounds ∨ stop = .keyChanged

/-- **One static initializer.** -/
theorem Refines.staticInit {d : Declaration Creator} (h : Refines p r) :
    (∀ stop, step checked p (.staticInit d) = .error stop → ¬stop.IsFault) ∧
      ∀ p', step checked p (.staticInit d) = .ok p' → Refines p' (r.step (.staticInit d)) := by
  obtain habort | ⟨s₁, hok, hfuncs⟩ := @declared_cases _ p.statics checked d
  · have hstep : step checked p (.staticInit d) = .error .aborted := by
      unfold step Proto.staticInit
      simp only
      rw [habort]
      rfl
    rw [hstep]
    refine ⟨fun stop hstop => ?_, nofun⟩
    cases hstop
    rintro (h | h) <;> cases h
  · have hstep : step checked p (.staticInit d) =
        .ok { p with statics := staticInitFuncs d.name d.creator s₁ } := by
      unfold step Proto.staticInit
      simp only
      rw [hok]
      rfl
    refine ⟨by rw [hstep]; exact nofun, fun p' hp' => ?_⟩
    obtain ⟨hs', hgrows⟩ := step_keeps h.typesOk hp'
    rw [hstep] at hp'
    obtain rfl := Except.ok.inj hp'
    have hfind : (staticInitFuncs d.name d.creator s₁).funcs.find =
        Function.update r.funcs d.name (some ((r.funcs d.name).getD d.creator)) := by
      rw [find_staticInitFuncs, hfuncs, h.funcs]
    refine ⟨hs', ?_, hfind, h.mono hs' hgrows.keeps, h.buffers⟩
    change (staticInitFuncs d.name d.creator s₁).funcs.find "" = none
    rw [hfind, Function.update_of_ne d.name_ne.symm, ← h.funcs, h.unnamed]

theorem runFuncs_funcs (funcs : List (String × Creator)) :
    ∀ {s : Statics Creator} {f : ProtoFactory Creator}, runFuncs funcs s f = .ok (s', f') →
      s'.funcs = s.funcs := by
  induction funcs with
  | nil =>
    intro s f h
    cases h
    rfl
  | cons func funcs ih =>
    intro s f h
    obtain ⟨⟨s₁, f₁⟩, hregist, hrest⟩ := bind_eq_ok.mp h
    rw [ih hrest, regist_statics hregist, protoType_funcs]

/-- **One new factory.** -/
theorem Refines.construct (h : Refines p r) (hmeets : Event.construct.Meets p) :
    ∃ p', step checked p .construct = .ok p' ∧ Refines p' (r.step .construct) := by
  obtain ⟨s', f', hinit, hrepresents⟩ := init_represents h.typesOk h.unnamed hmeets
  have hstep : step checked p .construct =
      .ok { p with statics := s', factories := p.factories ++ [f'] } :=
    bind_eq_ok.mpr ⟨(s', f'), hinit, rfl⟩
  obtain ⟨hs', hgrows⟩ := step_keeps h.typesOk hstep
  have hfuncs : s'.funcs = p.statics.funcs := runFuncs_funcs _ hinit
  refine ⟨_, hstep, hs', ?_, ?_, ?_, h.buffers⟩
  · exact (congrArg (·.find "") hfuncs).trans h.unnamed
  · exact (congrArg OrderedMap.find hfuncs).trans h.funcs
  · exact List.rel_append (h.mono hs' hgrows.keeps) (.cons (h.funcs ▸ hrepresents) .nil)

/-- **One type** that is specified. -/
theorem Refines.specifyProtoType (h : Refines p r) (name : String) (type : ℤ) :
    ∃ p', step checked p (.specifyProtoType name type) = .ok p' ∧
      Refines p' (r.step (.specifyProtoType name type)) := by
  have hstep : step checked p (.specifyProtoType name type) =
      .ok { p with statics := (Proto.specifyProtoType name type p.statics).2 } := rfl
  obtain ⟨hs', hgrows⟩ := step_keeps h.typesOk hstep
  have hfuncs := protoType_funcs name type p.statics
  refine ⟨_, hstep, hs', ?_, ?_, h.mono hs' hgrows.keeps, h.buffers⟩
  · exact (congrArg (·.find "") hfuncs).trans h.unnamed
  · exact (congrArg OrderedMap.find hfuncs).trans h.funcs

theorem forall₂_getElem? {α β : Type} {R : α → β → Prop} {as : List α} {bs : List β}
    (h : List.Forall₂ R as bs) : ∀ {i : ℕ} {a : α}, as[i]? = some a →
      ∃ b, bs[i]? = some b ∧ R a b := by
  induction h with
  | nil =>
    intro i a ha
    cases ha
  | cons hab hrest ih =>
    intro i a ha
    cases i with
    | zero =>
      cases ha
      exact ⟨_, rfl, hab⟩
    | succ i => exact ih ha

theorem forall₂_set {α β : Type} {R : α → β → Prop} {as : List α} {bs : List β}
    (h : List.Forall₂ R as bs) {a : α} {b : β} (hab : R a b) :
    ∀ i, List.Forall₂ R (as.set i a) (bs.set i b) := by
  induction h with
  | nil => exact fun _ => .nil
  | cons hfirst hrest ih =>
    intro i
    cases i with
    | zero => exact .cons hab hrest
    | succ i => exact .cons hfirst (ih i)

/-- **One registration.** -/
theorem Refines.regist (h : Refines p r) {index buffer : ℕ}
    (hmeets : (Event.regist index buffer creator).Meets p) :
    ∃ p', step checked p (.regist index buffer creator) = .ok p' ∧
      Refines p' (r.step (.regist index buffer creator)) := by
  unfold step Registered.step
  simp only
  rw [← h.buffers]
  cases hfactory : p.factories[index]? with
  | none =>
    have hle : r.factories.length ≤ index := by
      rw [← h.factories.length_eq]
      exact List.getElem?_eq_none_iff.mp hfactory
    rw [List.modify_eq_self hle, h.buffers]
    exact ⟨p, rfl, h⟩
  | some f =>
    obtain ⟨c, hc, hrepresents⟩ := forall₂_getElem? h.factories hfactory
    obtain ⟨s', f', hregist, hrepresents'⟩ := hrepresents.regist h.typesOk (hmeets f hfactory)
    have hfuncs : s'.funcs = p.statics.funcs :=
      (congrArg Statics.funcs (regist_statics hregist)).trans (protoType_funcs _ _ _)
    obtain ⟨hs', hgrows⟩ : TypesOk s' ∧ Grows NoneSpecified p.statics s' :=
      regist_keeps h.typesOk (fun _ h => h) hregist
    refine ⟨_, bind_eq_ok.mpr ⟨(s', f'), hregist, rfl⟩, hs', ?_, ?_, ?_, rfl⟩
    · exact (congrArg (·.find "") hfuncs).trans h.unnamed
    · exact (congrArg OrderedMap.find hfuncs).trans h.funcs
    · simp only
      rw [List.modify_eq_set_getElem?, hc]
      exact forall₂_set (h.mono hs' hgrows.keeps) hrepresents' index

/-- **One name** that is written. -/
theorem Refines.write (h : Refines p r) {buffer : ℕ}
    (hmeets : (Event.write buffer name : Event Creator).Meets p) :
    ∃ p', step checked p (.write buffer name) = .ok p' ∧
      Refines p' (r.step (.write buffer name)) := by
  have hnot : ¬(buffer ∈ p.keys ∧ name ≠ p.buffers buffer) := fun h => h.2 (hmeets h.1)
  unfold step Registered.step
  simp only
  rw [if_neg hnot]
  exact ⟨_, rfl, h.typesOk, h.unnamed, h.funcs, h.factories,
    congrArg (Function.update · buffer name) h.buffers⟩

/-- **One operation** that meets the condition. -/
theorem Refines.step (h : Refines p r) {event : Event Creator} (hmeets : event.Meets p) :
    (∀ stop, step checked p event = .error stop → ¬stop.IsFault) ∧
      ∀ p', step checked p event = .ok p' → Refines p' (r.step event) := by
  have of_ok : (∃ p', Proto.step checked p event = .ok p' ∧ Refines p' (r.step event)) →
      (∀ stop, Proto.step checked p event = .error stop → ¬stop.IsFault) ∧
        ∀ p', Proto.step checked p event = .ok p' → Refines p' (r.step event) := by
    rintro ⟨p', hstep, hrefines⟩
    rw [hstep]
    refine ⟨nofun, fun p'' hp'' => ?_⟩
    cases hp''
    exact hrefines
  cases event with
  | staticInit d => exact h.staticInit
  | construct => exact of_ok (h.construct hmeets)
  | specifyProtoType name type => exact of_ok (h.specifyProtoType name type)
  | regist index buffer creator => exact of_ok (h.regist hmeets)
  | write buffer name => exact of_ok (h.write hmeets)

theorem Refines.run (events : List (Event Creator)) :
    ∀ {p : Program Creator} {r : Registered Creator}, Refines p r → AllMeet checked p events →
      (∀ stop, run checked p events = .error stop → ¬stop.IsFault) ∧
        ∀ p', run checked p events = .ok p' → Refines p' (events.foldl Registered.step r) := by
  induction events with
  | nil =>
    intro p r h _
    refine ⟨nofun, fun p' hp' => ?_⟩
    cases hp'
    exact h
  | cons event events ih =>
    rintro p r h ⟨hmeets, hrest⟩
    obtain ⟨hne, hok⟩ := @Refines.step _ checked p r h event hmeets
    unfold Proto.run
    cases hstep : Proto.step checked p event with
    | error e =>
      refine ⟨fun stop hstop => ?_, nofun⟩
      cases hstop
      exact hne e hstep
    | ok p₁ => exact ih (hok p₁ hstep) (hrest p₁ hstep)

/-! ## Creating -/

theorem createType_negative (h : type < 0) : createType type f = none := by
  unfold createType
  rw [if_neg, if_neg]
  all_goals omega

/-- Creating by name: a name without a type has no creator. -/
theorem Represents.createName (h : Represents s f c) (n : String) : createName n s f = c n := by
  unfold Proto.createName
  rw [protoType_undeclared]
  simp only
  split_ifs with hn
  · rw [createType_negative (by decide), hn, h.empty]
  · cases hfind : s.protoNameMap.find n with
    | none => rw [Option.getD_none, createType_negative (by decide), h.unnamed n hfind]
    | some t => exact h.named n t hfind

/-- A protocol of a specified type, a factory, and two names that are registered with it, one of
them twice, and the second time from a buffer that is then used for something else. -/
def someRegistrations : List (Event ℕ) :=
  [.staticInit { name := "Login", specifyType := some 7, creator := 0 }, .construct,
    .write 0 "Login", .write 1 "World", .regist 0 0 1, .regist 0 1 2, .regist 0 0 3,
    .write 0 "World"]

end NekoProto.Proto
