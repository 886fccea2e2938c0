import NekoProto.Parsing.ReadRules
import NekoProto.Parsing.Write

/-!
# The tree of a value

The value tree that a value of a type is written as (`Ty.tree`), or none where `parser_write`
reports an error, and that the write is the emission of this tree (`parserWrite_returns`).

1. What a write does below a parent is stated as the emission of a tree (`Below`), and inside an
   open container as that of its elements or members (`InArray`, `InObject`, `InIdObject`), with a
   rule for each construct.
2. The induction over the types goes through these rules.
-/

namespace NekoProto.Parsing

open Binary Outcome

/-! ## Trees of values -/

/-- The tree of a value with a fixed width. -/
def fixedTree : (T : Arithmetic) → T.Value → Tree
  | .integer signed width, value => .fixed signed width value
  | T, value => .value (.arithmetic T value)

/-- The tree of a value of an arithmetic type. -/
def arithmeticTree (T : Arithmetic) (tags : Tags) (value : T.Value) : Option Tree :=
  match tags.fixedLengthOf T with
  | some size => if size ≠ T.size then none else some (fixedTree T value)
  | none => some (.value (.arithmetic T value))

/-- The tree of an enumerator. -/
def enumerationTree (signed : Bool) (width : Width) (names : List (Bytes × BitVec width.bits))
    (tags : Tags) (value : BitVec width.bits) : Option Tree :=
  if enumerationName names value ≠ [] then
    some (.value (.string (enumerationName names value)))
  else arithmeticTree (.integer signed width) tags value

section

variable {α β : Type}

/-- The trees of elements. -/
def elementTrees (tree : α → Option Tree) : List α → Option (List Tree)
  | [] => some []
  | value :: values => do
    let t ← tree value
    let ts ← elementTrees tree values
    pure (t :: ts)

/-- The members of a string-keyed map. -/
def memberTrees (tree : α → Option Tree) : List (Bytes × α) → Option (List (Bytes × Tree))
  | [] => some []
  | (name, value) :: entries => do
    let t ← tree value
    let ms ← memberTrees tree entries
    pure ((name, t) :: ms)

/-- An object of two named members. -/
def pairTree (first second : Bytes) (r q : Option Tree) : Option Tree := do
  let a ← r
  let b ← q
  pure (.object true [(first, a), (second, b)])

/-- The entries of any other map. -/
def entryTrees (keyTree : α → Option Tree) (valueTree : β → Option Tree) :
    List (α × β) → Option (List Tree)
  | [] => some []
  | (key, value) :: entries => do
    let t ← pairTree keyName valueName (keyTree key) (valueTree value)
    let ts ← entryTrees keyTree valueTree entries
    pure (t :: ts)

end

section

variable (nullForEmpty : Bool)

/-- The members that one field stands for, from its members if it is flattened and from its
tree. -/
def fieldMembers (T : Ty) (name : Bytes) (tags : Tags) (value : T.Value)
    (flat : Option (List (Bytes × Tree))) (tree : Option Tree) : Option (List (Bytes × Tree)) :=
  if tags.ignore then some []
  else if tags.flat && T.isObject then flat
  else if shouldSkipEmptyField nullForEmpty T value then some []
  else if T.optionalLike && !T.hasValue value then some [(name, .null)]
  else tree.map fun t => [(tags.fieldName name, t)]

/-- The elements that one field without a name stands for. -/
def fieldElements (tags : Tags) (tree : Option Tree) : Option (List Tree) :=
  if tags.ignore then some [] else tree.map fun t => [t]

mutual

/-- The tree that a value is written as. -/
def Ty.tree : (T : Ty) → Tags → T.Value → Option Tree
  | .arithmetic T, tags, value => arithmeticTree T tags value
  | .string, _, value => some (.value (.string value))
  | .enumeration signed width names, tags, value => enumerationTree signed width names tags value
  | .null _, _, _ => some .null
  | .optional _, _, none => some .null
  | .optional T, tags, some value => T.tree tags value
  | .pointer _ _, _, none => some .null
  | .pointer _ T, tags, some value => T.tree tags value
  | .sequence _ T, _, values => (elementTrees (T.tree {}) values).map .array
  | .array _ T, _, values => (elementTrees (T.tree {}) values.1).map .array
  | .tuple Ts, _, values => (Ts.trees values).map .array
  | .pair T U, _, (first, second) =>
    pairTree firstName secondName (T.tree {} first) (U.tree {} second)
  | .variant Ts, tags, value =>
    if tags.unionEncoding = .untagged then Ts.tree tags.payload value
    else do
      let index := Tree.value (.arithmetic (.integer false .w64) (BitVec.ofNat 64 (Ts.index value)))
      let t ← Ts.tree tags.payload value
      pure (.array [index, t])
  | .stringMap T, _, entries => (memberTrees (T.tree {}) entries.1).map (.object true)
  | .entryMap _ K T, _, entries => (entryTrees (K.tree {}) (T.tree {}) entries).map .array
  | .object _ fields, tags, values =>
    if tags.rawFixedData then none else (fields.members values).map (.object false)
  | .record fields, _, values => (fields.elements values).map .array

/-- The elements of a tuple. -/
def Tys.trees : (Ts : Tys) → Ts.Values → Option (List Tree)
  | .nil, _ => some []
  | .cons T Ts, (value, values) => do
    let t ← T.tree {} value
    let ts ← Ts.trees values
    pure (t :: ts)

/-- The active alternative of a variant. -/
def Alternatives.tree : (Ts : Alternatives) → Tags → Ts.Value → Option Tree
  | .one T, tags, value => T.tree tags value
  | .cons T _, tags, .inl value => T.tree tags value
  | .cons _ Ts, tags, .inr value => Ts.tree tags value

/-- The members of a reflected class, those of its flattened classes included. -/
def Fields.members : (fields : Fields) → fields.Values → Option (List (Bytes × Tree))
  | .nil, _ => some []
  | .cons name tags T rest, (value, values) => do
    let ms ← fieldMembers nullForEmpty T name tags value (T.flatMembers value) (T.tree tags value)
    let rest ← rest.members values
    pure (ms ++ rest)

/-- The members of a flattened class. -/
def Ty.flatMembers : (T : Ty) → T.Value → Option (List (Bytes × Tree))
  | .object _ fields, values => fields.members values
  | _, _ => some []

/-- The elements of a reflected class without names. -/
def Fields.elements : (fields : Fields) → fields.Values → Option (List Tree)
  | .nil, _ => some []
  | .cons _ tags T rest, (value, values) => do
    let ts ← fieldElements tags (T.tree tags value)
    let rest ← rest.elements values
    pure (ts ++ rest)

end

end

/-! ## Emission below a parent -/

/-- Below such parents, the write returns exactly where there is a tree, and emits it. -/
def Below (P : Parent → Prop) (x : WriteM Unit) (r : Option Tree) : Prop :=
  ∀ parent w u, P parent →
    (Returns x (parent, w) () u ↔ ∃ t, r = some t ∧ u = t.emit parent w)

@[simp] theorem writeContext_returns {text : String} {x : WriteM Unit} {s u : Parent × Writer} :
    Returns (writeContext text x) s () u ↔ Returns x s () u := by
  simp only [writeContext, Returns]
  cases x s with
  | ok b u => rfl
  | error e u => simp

theorem mapState_eq_ok {f : Parent → Writer → Parent × Writer}
    {r : EStateM.Result Error (Parent × Writer) Unit} {u : Parent × Writer} :
    mapState f r = .ok () u ↔ ∃ parent w, r = .ok () (parent, w) ∧ u = f parent w := by
  cases r with
  | ok a t =>
    obtain ⟨parent, w⟩ := t
    simp only [mapState, EStateM.Result.ok.injEq, true_and, Prod.mk.injEq]
    constructor
    · rintro rfl
      exact ⟨parent, w, ⟨rfl, rfl⟩, rfl⟩
    · rintro ⟨_, _, ⟨rfl, rfl⟩, rfl⟩
      rfl
  | error e t => simp [mapState]

theorem addFixedValue_emit (T : Arithmetic) (v : T.Value) (parent : Parent) (w : Writer) :
    parent.addFixedValue T v T.size w = (fixedTree T v).emit parent w := by
  cases T with
  | integer signed width => rfl
  | bool => cases parent <;> rfl
  | float => cases parent <;> rfl
  | double => cases parent <;> rfl

namespace Below

variable {P Q : Parent → Prop} {x : WriteM Unit} {r : Option Tree}

theorem mono (h : Below P x r) (hQ : ∀ parent, Q parent → P parent) : Below Q x r :=
  fun parent w u hparent => h parent w u (hQ parent hparent)

theorem context (h : Below P x r) (text : String) : Below P (writeContext text x) r :=
  fun parent w u hparent => writeContext_returns.trans (h parent w u hparent)

theorem fails {e : Error} : Below P (throw e) none := by
  intro parent w u _
  simp

theorem null : Below P writeNull (some .null) := by
  intro parent w u _
  simp [writeNull, Tree.emit]

theorem value (v : BasicValue) : Below P (writeValue v) (some (.value v)) := by
  intro parent w u _
  simp [writeValue, Tree.emit]

theorem arithmetic (T : Arithmetic) (tags : Tags) (v : T.Value) :
    Below P (writeArithmetic T tags v) (arithmeticTree T tags v) := by
  unfold writeArithmetic arithmeticTree
  cases tags.fixedLengthOf T with
  | none => exact value _
  | some size =>
    by_cases hsize : size ≠ T.size
    · simp only [if_pos hsize]
      exact fails
    · simp only [if_neg hsize]
      obtain rfl := not_not.mp hsize
      intro parent w u _
      simp [addFixedValue_emit]

theorem enumeration (signed : Bool) (width : Width) (names : List (Bytes × BitVec width.bits))
    (tags : Tags) (v : BitVec width.bits) :
    Below P (writeEnumeration signed width names tags v)
      (enumerationTree signed width names tags v) := by
  unfold writeEnumeration enumerationTree
  split_ifs with hname
  · exact value _
  · exact arithmetic (.integer signed width) tags v

end Below

/-! ## Emission inside a container -/

section

variable {P : Parent → Prop} {σ ι : Type} {opened : σ → Parent}
  {emitAll : List ι → σ → Writer → σ × Writer} {x y : WriteM Unit} {q q' : Option (List ι)}

/-- In an open container, the write returns exactly where there are items, and emits these. -/
def Inside (opened : σ → Parent) (emitAll : List ι → σ → Writer → σ × Writer) (x : WriteM Unit)
    (q : Option (List ι)) : Prop :=
  ∀ scope w u, Returns x (opened scope, w) () u ↔ ∃ items, q = some items ∧
    u = (opened (emitAll items scope w).1, (emitAll items scope w).2)

namespace Inside

theorem nil (h : ∀ scope w, emitAll [] scope w = (scope, w)) :
    Inside opened emitAll (pure ()) (some []) := by
  intro scope w u
  simp [h]

theorem context (h : Inside opened emitAll x q) (text : String) :
    Inside opened emitAll (writeContext text x) q :=
  fun scope w u => writeContext_returns.trans (h scope w u)

/-- One write after the other emits the items of both. -/
theorem append (h : ∀ as bs scope w, emitAll (as ++ bs) scope w =
      emitAll bs (emitAll as scope w).1 (emitAll as scope w).2)
    (hx : Inside opened emitAll x q) (hy : Inside opened emitAll y q') :
    Inside opened emitAll (do x; y) (do
      let as ← q
      let bs ← q'
      pure (as ++ bs)) := by
  intro scope w u
  simp only [returns_bind, hx scope w, Option.bind_eq_bind, Option.bind_eq_some_iff]
  constructor
  · rintro ⟨_, _, ⟨as, hr, rfl⟩, hu⟩
    obtain ⟨bs, hq, rfl⟩ := (hy _ _ u).mp hu
    exact ⟨as ++ bs, ⟨as, hr, bs, hq, rfl⟩, by rw [h]⟩
  · rintro ⟨_, ⟨as, hr, bs, hq, heq⟩, rfl⟩
    obtain rfl := Option.some.inj heq
    exact ⟨(), _, ⟨as, hr, rfl⟩, (hy _ _ _).mpr ⟨bs, hq, by rw [h]⟩⟩

/-- A container that is opened, filled and closed emits the tree of its items. -/
theorem container (add : Parent → Writer → σ × Parent × Writer) {build : List ι → Tree}
    (h : Inside opened emitAll x q)
    (hbuild : ∀ items parent w, q = some items → (build items).emit parent w =
      ((add parent w).2.1, (opened (emitAll items (add parent w).1 (add parent w).2.2).1).finish
        (emitAll items (add parent w).1 (add parent w).2.2).2)) :
    Below P (fun s => close (add s.1 s.2).2.1 (x (opened (add s.1 s.2).1, (add s.1 s.2).2.2)))
      (q.map build) := by
  intro parent w u _
  simp only [close, Returns]
  rw [mapState_eq_ok]
  simp only [Option.map_eq_some_iff, exists_exists_and_eq_and]
  constructor
  · rintro ⟨inner, w', hx, rfl⟩
    obtain ⟨items, hq, heq⟩ := (h _ _ _).mp hx
    obtain ⟨rfl, rfl⟩ := Prod.mk.inj heq
    exact ⟨items, hq, (hbuild items parent w hq).symm⟩
  · rintro ⟨items, hq, rfl⟩
    exact ⟨_, _, (h _ _ _).mpr ⟨items, hq, rfl⟩, hbuild items parent w hq⟩

end Inside

end

/-! ## Arrays -/

/-- The write emits elements of an open array. -/
def InArray (x : WriteM Unit) (q : Option (List Tree)) : Prop :=
  Inside Parent.array Tree.emitElements x q

theorem emit_array (t : Tree) (scope : Scope .array) (w : Writer) :
    ∃ scope', t.emit (.array scope) w = (.array scope', (t.emit (.array scope) w).2) := by
  rcases t with _ | _ | _ | _ | ⟨_ | _, _⟩ <;> exact ⟨_, rfl⟩

theorem emitElements_append (as bs : List Tree) (scope : Scope .array) (w : Writer) :
    Tree.emitElements (as ++ bs) scope w =
      Tree.emitElements bs (Tree.emitElements as scope w).1 (Tree.emitElements as scope w).2 := by
  induction as generalizing scope w with
  | nil => rfl
  | cons t ts ih =>
    obtain ⟨scope', ht⟩ := emit_array t scope w
    rw [List.cons_append, Tree.emitElements, Tree.emitElements, ht]
    exact ih scope' _

namespace InArray

variable {P : Parent → Prop} {x y : WriteM Unit} {r : Option Tree} {q q' : Option (List Tree)}

theorem nil : InArray (pure ()) (some []) := Inside.nil fun _ _ => rfl

theorem append (hx : InArray x q) (hy : InArray y q') : InArray (do x; y) (do
    let as ← q
    let bs ← q'
    pure (as ++ bs)) := Inside.append emitElements_append hx hy

theorem single (h : Below P x r) (hP : ∀ scope, P (.array scope)) :
    InArray x (r.map fun t => [t]) := by
  intro scope w u
  rw [h (.array scope) w u (hP scope)]
  simp only [Option.map_eq_some_iff, exists_exists_and_eq_and]
  refine exists_congr fun t => and_congr_right fun _ => ?_
  obtain ⟨scope', ht⟩ := emit_array t scope w
  have hsingle : Tree.emitElements [t] scope w = (scope', (t.emit (.array scope) w).2) := by
    rw [Tree.emitElements, ht]
    rfl
  rw [hsingle, ← ht]

theorem cons (h : Below P x r) (hP : ∀ scope, P (.array scope)) (hy : InArray y q) :
    InArray (do x; y) (do
      let t ← r
      let ts ← q
      pure (t :: ts)) := by
  have happend := (single h hP).append hy
  cases r <;> cases q <;> exact happend

/-- The whole array. -/
theorem below {size : ℕ} (h : InArray x q) (hsize : ∀ ts, q = some ts → ts.length = size) :
    Below P (inArray size x) (q.map .array) := by
  refine Inside.container (fun parent w => parent.addArray size w) h fun ts parent w hq => ?_
  rw [Tree.emit, hsize ts hq]
  rfl

end InArray

/-! ## Objects -/

section

variable {P : Parent → Prop} {kind : ContainerKind} {opened : Bytes → Scope kind → Parent}
  {emitAll : List (Bytes × Tree) → Scope kind → Writer → Scope kind × Writer}

/-- How the parents of an open object look, and how its members are emitted. -/
structure Opens (opened : Bytes → Scope kind → Parent)
    (emitAll : List (Bytes × Tree) → Scope kind → Writer → Scope kind × Writer) : Prop where
  field : ∀ name n scope, (opened n scope).field name = opened name scope
  emit : ∀ (t : Tree) name scope w, ∃ scope', t.emit (opened name scope) w =
    (opened name scope', (t.emit (opened name scope) w).2)
  nil : ∀ scope w, emitAll [] scope w = (scope, w)
  cons : ∀ {name t ms scope scope' w w'}, Tree.emit t (opened name scope) w =
    (opened name scope', w') → emitAll ((name, t) :: ms) scope w = emitAll ms scope' w'

theorem opens_object : Opens Parent.object Tree.emitMembers where
  field _ _ _ := rfl
  emit t name scope w := by rcases t with _ | _ | _ | _ | ⟨_ | _, _⟩ <;> exact ⟨_, rfl⟩
  nil _ _ := rfl
  cons h := by rw [Tree.emitMembers, h]

theorem opens_idObject : Opens Parent.idObject Tree.emitIdMembers where
  field _ _ _ := rfl
  emit t name scope w := by rcases t with _ | _ | _ | _ | ⟨_ | _, _⟩ <;> exact ⟨_, rfl⟩
  nil _ _ := rfl
  cons h := by rw [Tree.emitIdMembers, h]

namespace Opens

variable (hopens : Opens opened emitAll)

include hopens

theorem emitAll_append (as bs : List (Bytes × Tree)) (scope : Scope kind) (w : Writer) :
    emitAll (as ++ bs) scope w = emitAll bs (emitAll as scope w).1 (emitAll as scope w).2 := by
  induction as generalizing scope w with
  | nil => rw [hopens.nil, List.nil_append]
  | cons m ms ih =>
    obtain ⟨scope', ht⟩ := hopens.emit m.2 m.1 scope w
    rw [List.cons_append, hopens.cons ht, hopens.cons ht, ih]

/-- A write under a name of the open object emits one member. -/
theorem single {x : WriteM Unit} {r : Option Tree} (h : Below P x r)
    (hP : ∀ name scope, P (opened name scope)) (name : Bytes) :
    Inside (opened []) emitAll (named name x) (r.map fun t => [(name, t)]) := by
  intro scope w u
  have hx := fun u => h (opened name scope) w u (hP name scope)
  simp only [named, Returns, hopens.field]
  rw [mapState_eq_ok]
  simp only [Option.map_eq_some_iff, exists_exists_and_eq_and]
  constructor
  · rintro ⟨inner, w', hinner, rfl⟩
    obtain ⟨t, ht, heq⟩ := (hx _).mp hinner
    obtain ⟨scope', hscope⟩ := hopens.emit t name scope w
    rw [hscope] at heq
    obtain ⟨rfl, rfl⟩ := Prod.mk.inj heq
    exact ⟨t, ht, by rw [hopens.cons hscope, hopens.nil, hopens.field]⟩
  · rintro ⟨t, ht, rfl⟩
    obtain ⟨scope', hscope⟩ := hopens.emit t name scope w
    refine ⟨_, _, (hx _).mpr ⟨t, ht, hscope.symm⟩, ?_⟩
    rw [hopens.cons hscope, hopens.nil, hopens.field]

/-- The write of one member, and then those of the others. -/
theorem member {x y : WriteM Unit} {r : Option Tree} {q : Option (List (Bytes × Tree))}
    {name : Bytes} (hx : Inside (opened []) emitAll x (r.map fun t => [(name, t)]))
    (hy : Inside (opened []) emitAll y q) :
    Inside (opened []) emitAll (do x; y) (do
      let t ← r
      let ms ← q
      pure ((name, t) :: ms)) := by
  have happend := hx.append hopens.emitAll_append hy
  cases r <;> cases q <;> exact happend

end Opens

/-- The write emits members of an open `NamedObject`. -/
def InObject (x : WriteM Unit) (q : Option (List (Bytes × Tree))) : Prop :=
  Inside (Parent.object []) Tree.emitMembers x q

/-- The write emits members of an open `IdObject`. -/
def InIdObject (x : WriteM Unit) (q : Option (List (Bytes × Tree))) : Prop :=
  Inside (Parent.idObject []) Tree.emitIdMembers x q

variable {x : WriteM Unit} {q : Option (List (Bytes × Tree))} {size : ℕ}

/-- The whole `NamedObject`. -/
theorem InObject.below (h : InObject x q) (hsize : ∀ ms, q = some ms → ms.length = size) :
    Below P (inObject size x) (q.map (.object true)) := by
  refine Inside.container (fun parent w => parent.addObject size w) h
    fun ms parent w hq => ?_
  rw [Tree.emit, hsize ms hq]
  rfl

/-- The whole `IdObject`. -/
theorem InIdObject.below (h : InIdObject x q) (hsize : ∀ ms, q = some ms → ms.length = size) :
    Below P (inIdObject size x) (q.map (.object false)) := by
  refine Inside.container (fun parent w => parent.addIdObject size w) h
    fun ms parent w hq => ?_
  rw [Tree.emit, hsize ms hq]
  rfl

end

/-! ## Numbers of items -/

section

variable {α β : Type} {nullForEmpty : Bool}

theorem length_elementTrees {tree : α → Option Tree} {values : List α} {ts : List Tree}
    (h : elementTrees tree values = some ts) : ts.length = values.length := by
  induction values generalizing ts with
  | nil =>
    obtain rfl := Option.some.inj h
    rfl
  | cons value values ih =>
    obtain ⟨t, -, h⟩ := Option.bind_eq_some_iff.mp h
    obtain ⟨ts', hts, h⟩ := Option.bind_eq_some_iff.mp h
    obtain rfl := Option.some.inj h
    rw [List.length_cons, List.length_cons, ih hts]

theorem length_memberTrees {tree : α → Option Tree} {entries : List (Bytes × α)}
    {ms : List (Bytes × Tree)} (h : memberTrees tree entries = some ms) :
    ms.length = entries.length := by
  induction entries generalizing ms with
  | nil =>
    obtain rfl := Option.some.inj h
    rfl
  | cons entry entries ih =>
    obtain ⟨t, -, h⟩ := Option.bind_eq_some_iff.mp h
    obtain ⟨ms', hms, h⟩ := Option.bind_eq_some_iff.mp h
    obtain rfl := Option.some.inj h
    rw [List.length_cons, List.length_cons, ih hms]

theorem length_entryTrees {keyTree : α → Option Tree} {valueTree : β → Option Tree}
    {entries : List (α × β)} {ts : List Tree} (h : entryTrees keyTree valueTree entries = some ts) :
    ts.length = entries.length := by
  induction entries generalizing ts with
  | nil =>
    obtain rfl := Option.some.inj h
    rfl
  | cons entry entries ih =>
    obtain ⟨t, -, h⟩ := Option.bind_eq_some_iff.mp h
    obtain ⟨ts', hts, h⟩ := Option.bind_eq_some_iff.mp h
    obtain rfl := Option.some.inj h
    rw [List.length_cons, List.length_cons, ih hts]

theorem length_trees : (Ts : Tys) → (values : Ts.Values) → {ts : List Tree} →
    Ts.trees nullForEmpty values = some ts → ts.length = Ts.length
  | .nil, _, _, h => by
    obtain rfl := Option.some.inj h
    rfl
  | .cons T Ts, (value, values), _, h => by
    obtain ⟨t, -, h⟩ := Option.bind_eq_some_iff.mp h
    obtain ⟨ts, hts, h⟩ := Option.bind_eq_some_iff.mp h
    obtain rfl := Option.some.inj h
    rw [List.length_cons, length_trees Ts values hts]
    rfl

theorem emittedFieldCountOne_eq {T : Ty} (h : T.isObject = false) (tags : Tags)
    (value : T.Value) : emittedFieldCountOne nullForEmpty T tags value =
      if tags.ignore || shouldSkipEmptyField nullForEmpty T value then 0 else 1 := by
  cases T with
  | object unframed fields => cases h
  | _ => rfl

/-- One field stands for as many members as its count says. -/
theorem length_fieldMembers {T : Ty} {name : Bytes} {tags : Tags} {value : T.Value}
    {flat : Option (List (Bytes × Tree))} {tree : Option Tree} {ms : List (Bytes × Tree)}
    (count : ℕ) (hcount : emittedFieldCountOne nullForEmpty T tags value =
      if tags.ignore || shouldSkipEmptyField nullForEmpty T value then 0
      else if tags.flat && T.isObject then count else 1)
    (hskip : T.isObject = true → shouldSkipEmptyField nullForEmpty T value = false)
    (hflat : T.isObject = true → ∀ as, flat = some as → as.length = count)
    (h : fieldMembers nullForEmpty T name tags value flat tree = some ms) :
    ms.length = emittedFieldCountOne nullForEmpty T tags value := by
  rw [hcount]
  unfold fieldMembers at h
  split_ifs at h with hignore hobject hempty hnull
  · obtain rfl := Option.some.inj h
    simp [hignore]
  · have hT := (Bool.and_eq_true_iff.mp hobject).2
    simp [hignore, hskip hT, hobject, hflat hT ms h]
  · obtain rfl := Option.some.inj h
    simp [hempty]
  · obtain rfl := Option.some.inj h
    simp [hignore, hempty, hobject]
  · obtain ⟨t, -, rfl⟩ := Option.map_eq_some_iff.mp h
    simp [hignore, hempty, hobject]

mutual

/-- The declared count of an object is the number of members emitted. -/
theorem length_members : (fields : Fields) → (values : fields.Values) →
    {ms : List (Bytes × Tree)} → fields.members nullForEmpty values = some ms →
    ms.length = emittedFieldCount nullForEmpty fields values
  | .nil, _, _, h => by
    obtain rfl := Option.some.inj h
    rfl
  | .cons name tags T rest, (value, values), ms, h => by
    obtain ⟨as, has, h⟩ := Option.bind_eq_some_iff.mp h
    obtain ⟨bs, hbs, h⟩ := Option.bind_eq_some_iff.mp h
    obtain rfl := Option.some.inj h
    rw [List.length_append, length_members rest values hbs, length_member T name tags value has]
    rfl

theorem length_member : (T : Ty) → (name : Bytes) → (tags : Tags) → (value : T.Value) →
    {ms : List (Bytes × Tree)} →
    fieldMembers nullForEmpty T name tags value (T.flatMembers nullForEmpty value)
      (T.tree nullForEmpty tags value) = some ms →
    ms.length = emittedFieldCountOne nullForEmpty T tags value
  | T, name, tags, value, ms, h => by
    cases T with
    | object unframed fields =>
      exact length_fieldMembers (emittedFieldCount nullForEmpty fields value)
        (by simp [emittedFieldCountOne, Ty.isObject]) (fun _ => rfl)
        (fun _ as has => length_members fields value has) h
    | _ =>
      refine length_fieldMembers 0 ?_ (fun h => by cases h) (fun h => by cases h) h
      rw [emittedFieldCountOne_eq rfl]
      simp [Ty.isObject]

end

theorem length_elements : (fields : Fields) → (values : fields.Values) → {ts : List Tree} →
    fields.elements nullForEmpty values = some ts → ts.length = fields.count
  | .nil, _, _, h => by
    obtain rfl := Option.some.inj h
    rfl
  | .cons name tags T rest, (value, values), ts, h => by
    obtain ⟨as, has, h⟩ := Option.bind_eq_some_iff.mp h
    obtain ⟨bs, hbs, h⟩ := Option.bind_eq_some_iff.mp h
    obtain rfl := Option.some.inj h
    rw [List.length_append, length_elements rest values hbs, Fields.count]
    unfold fieldElements at has
    split_ifs at has with hignore
    · obtain rfl := Option.some.inj has
      simp [hignore]
    · obtain ⟨t, -, rfl⟩ := Option.map_eq_some_iff.mp has
      simp [hignore]

end

/-! ## The emission of a value -/

section

variable {α β : Type} {write : α → WriteM Unit} {tree : α → Option Tree} {P : Parent → Prop}

theorem writeElements_inArray (kind : String) (h : ∀ value, Below P (write value) (tree value))
    (hP : ∀ scope, P (.array scope)) : (values : List α) → (index : ℕ) →
    InArray (writeElements kind write index values) (elementTrees tree values)
  | [], _ => InArray.nil
  | value :: values, index =>
    InArray.cons ((h value).context _) hP (writeElements_inArray kind h hP values (index + 1))

theorem writeMembers_inObject (h : ∀ value, Below P (write value) (tree value))
    (hP : ∀ name scope, P (.object name scope)) : (entries : List (Bytes × α)) →
    InObject (writeMembers write entries) (memberTrees tree entries)
  | [] => Inside.nil fun _ _ => rfl
  | (name, value) :: entries =>
    opens_object.member ((opens_object.single (h value) hP name).context _)
      (writeMembers_inObject h hP entries)

/-- Two members with fixed names, as in a pair. -/
theorem writePair_below {x y : WriteM Unit} {r q : Option Tree} (hx : Below P x r)
    (hy : Below P y q) (hP : ∀ name scope, P (.object name scope)) (first second : Bytes)
    (text text' : String) :
    Below P (inObject 2 (do
      writeContext text (named first x)
      writeContext text' (named second y))) (pairTree first second r q) := by
  have happend : InObject _ _ := Inside.append opens_object.emitAll_append
    ((opens_object.single hx hP first).context text)
    ((opens_object.single hy hP second).context text')
  have hbelow : Below P (inObject 2 _) _ := happend.below ?_
  · cases r <;> cases q <;> exact hbelow
  · cases r <;> cases q <;> simp

end

theorem writeEntries_inArray {α β : Type} {writeKey : α → WriteM Unit} {keyTree : α → Option Tree}
    {writeValue : β → WriteM Unit} {valueTree : β → Option Tree} {P : Parent → Prop}
    (hkey : ∀ key, Below P (writeKey key) (keyTree key))
    (hvalue : ∀ value, Below P (writeValue value) (valueTree value))
    (hP : ∀ name scope, P (.object name scope)) (hP' : ∀ scope, P (.array scope)) :
    (entries : List (α × β)) → (index : ℕ) →
    InArray (writeEntries writeKey writeValue index entries) (entryTrees keyTree valueTree entries)
  | [], _ => InArray.nil
  | (key, value) :: entries, index =>
    InArray.cons (writePair_below (hkey key) (hvalue value) hP keyName valueName _ _) hP'
      (writeEntries_inArray hkey hvalue hP hP' entries (index + 1))

/-- A parent below which a value with these tags is framed. -/
def Framed (tags : Tags) (parent : Parent) : Prop := parent ≠ .root ∨ tags.rawFixedData = false

theorem framed_plain (parent : Parent) : Framed {} parent := .inr rfl

section

variable {nullForEmpty : Bool}

theorem writeReflectField_inside {T : Ty} {name : Bytes} {tags : Tags} {value : T.Value}
    {flat write : WriteM Unit} {as : Option (List (Bytes × Tree))} {tree : Option Tree}
    (hflat : T.isObject = true → InIdObject flat as) (hwrite : Below (Framed tags) write tree) :
    InIdObject (writeReflectField nullForEmpty T name tags value flat write)
      (fieldMembers nullForEmpty T name tags value as tree) := by
  have hP : ∀ name scope, Framed tags (.idObject name scope) := fun _ _ => .inl (by simp)
  unfold writeReflectField fieldMembers
  split_ifs with hignore hobject hskip hnull
  · exact Inside.nil fun _ _ => rfl
  · exact hflat (Bool.and_eq_true_iff.mp hobject).2
  · exact Inside.nil fun _ _ => rfl
  · exact opens_idObject.single (r := some .null) Below.null hP name
  · exact (opens_idObject.single hwrite hP _).context _

theorem writeRecordElement_inArray {tags : Tags} {write : WriteM Unit} {tree : Option Tree}
    (hwrite : Below (Framed tags) write tree) (index : ℕ) :
    InArray (writeRecordElement tags index write) (fieldElements tags tree) := by
  unfold writeRecordElement fieldElements
  split_ifs with hignore
  · exact InArray.nil
  · exact InArray.single (hwrite.context _) fun _ => .inl (by simp)

mutual

/-- **A value is written as its tree**, or not at all where it has none. -/
theorem parserWrite_below : (T : Ty) → (tags : Tags) → (value : T.Value) →
    Below (Framed tags) (parserWrite nullForEmpty T tags value) (T.tree nullForEmpty tags value)
  | .arithmetic T, tags, value => Below.arithmetic T tags value
  | .string, _, value => Below.value (.string value)
  | .enumeration signed width names, tags, value => Below.enumeration signed width names tags value
  | .null _, _, _ => Below.null
  | .optional _, _, none => Below.null
  | .optional T, tags, some value => parserWrite_below T tags value
  | .pointer _ _, _, none => Below.null
  | .pointer _ T, tags, some value => parserWrite_below T tags value
  | .sequence _ T, _, values =>
    (writeElements_inArray _ (parserWrite_below T {}) (fun _ => framed_plain _) values 0).below
      fun _ => length_elementTrees
  | .array size T, _, values =>
    (writeElements_inArray _ (parserWrite_below T {}) (fun _ => framed_plain _) values.1 0).below
      fun _ h => (length_elementTrees h).trans values.2
  | .tuple Ts, _, values =>
    (writeTuple_inArray Ts 0 values).below fun _ => length_trees Ts values
  | .pair T U, _, (first, second) =>
    (writePair_below (parserWrite_below T {} first) (parserWrite_below U {} second)
      (fun _ _ => framed_plain _) firstName secondName _ _).mono fun _ _ => framed_plain _
  | .variant Ts, tags, value => by
    unfold parserWrite Ty.tree
    split_ifs with huntagged
    · exact writeActive_below Ts tags.payload value
    · have hindex := (Below.arithmetic (P := fun _ => True) (.integer false .w64) {}
        (BitVec.ofNat 64 (Ts.index value))).context "Failed to write variant index: "
      have hactive := InArray.single (writeActive_below Ts tags.payload value) fun _ =>
        .inl (by simp)
      have hbelow : Below (Framed tags) (inArray 2 _) _ :=
        (InArray.cons hindex (fun _ => trivial) hactive).below ?_
      · revert hbelow
        cases Ts.tree nullForEmpty tags.payload value <;> exact id
      · cases Ts.tree nullForEmpty tags.payload value with
        | none =>
          intro ts h
          cases h
        | some t =>
          intro ts h
          obtain rfl := Option.some.inj h
          rfl
  | .stringMap T, _, entries =>
    (writeMembers_inObject (parserWrite_below T {}) (fun _ _ => framed_plain _) entries.1).below
      fun _ => length_memberTrees
  | .entryMap _ K T, _, entries =>
    (writeEntries_inArray (parserWrite_below K {}) (parserWrite_below T {})
      (fun _ _ => framed_plain _) (fun _ => framed_plain _) entries 0).below
      fun _ => length_entryTrees
  | .object _ fields, tags, values => by
    unfold parserWrite Ty.tree
    split_ifs with hraw
    · intro parent w u hparent
      have hroot : parent ≠ .root := hparent.resolve_right (by simp [hraw])
      simp [writeRaw, hroot]
    · exact (writeFields_inside fields values).below fun _ => length_members fields values
  | .record fields, _, values =>
    (writeRecord_inArray fields 0 values).below fun _ => length_elements fields values

theorem writeTuple_inArray : (Ts : Tys) → (index : ℕ) → (values : Ts.Values) →
    InArray (writeTuple nullForEmpty Ts index values) (Ts.trees nullForEmpty values)
  | .nil, _, _ => InArray.nil
  | .cons T Ts, index, (value, values) =>
    InArray.cons ((parserWrite_below T {} value).context _) (fun _ => framed_plain _)
      (writeTuple_inArray Ts (index + 1) values)

theorem writeActive_below : (Ts : Alternatives) → (tags : Tags) → (value : Ts.Value) →
    Below (Framed tags) (writeActive nullForEmpty Ts tags value) (Ts.tree nullForEmpty tags value)
  | .one T, tags, value => parserWrite_below T tags value
  | .cons T _, tags, .inl value => parserWrite_below T tags value
  | .cons _ Ts, tags, .inr value => writeActive_below Ts tags value

theorem writeFields_inside : (fields : Fields) → (values : fields.Values) →
    InIdObject (writeFields nullForEmpty fields values) (fields.members nullForEmpty values)
  | .nil, _ => Inside.nil fun _ _ => rfl
  | .cons _ tags T rest, (value, values) =>
    Inside.append opens_idObject.emitAll_append
      (writeReflectField_inside (writeFlat_inside T value) (parserWrite_below T tags value))
      (writeFields_inside rest values)

theorem writeFlat_inside : (T : Ty) → (value : T.Value) → T.isObject = true →
    InIdObject (writeFlat nullForEmpty T value) (T.flatMembers nullForEmpty value)
  | .object _ fields, values, _ => writeFields_inside fields values

theorem writeRecord_inArray : (fields : Fields) → (index : ℕ) → (values : fields.Values) →
    InArray (writeRecord nullForEmpty fields index values) (fields.elements nullForEmpty values)
  | .nil, _, _ => InArray.nil
  | .cons _ tags T rest, index, (value, values) =>
    InArray.append (writeRecordElement_inArray (parserWrite_below T tags value) index)
      (writeRecord_inArray rest (index + 1) values)

end

end

end NekoProto.Parsing
