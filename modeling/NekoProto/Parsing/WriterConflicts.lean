import NekoProto.Binary.PrefixFree
import NekoProto.Parsing.Document

/-!
# Conflicts between member names

When the Reader takes what the Writer wrote without an error. The Writer looks for hashes that
repeat in an open object, the Reader for all keys; what only the Reader finds are the same literal
name twice, and the empty name before a name with the hash 0 (`LiteralConflict`).

1. The keys of a tree agree for the Reader exactly when its hashes agree for the Writer, its
   reflected objects have no such conflict, and its other objects have distinct names
   (`keysOk_iff`).
2. The last is so in the tree of every value (`Ty.tree_namedOk`).
3. So the document of a value that was written without error is accepted exactly when there is no
   such conflict (`written_accepted_iff`).
-/

namespace NekoProto.Binary

/-! ## The conflicts that the Writer does not look for -/

/-- Two names of one reflected object, the first of which is written as a literal. -/
def LiteralConflict (n m : Bytes) : Prop :=
  useHashedFieldId n = false ∧ n ≠ [] ∧ n = m ∨
    n = [] ∧ useHashedFieldId m = true ∧ fieldId m = 0

namespace Tree

mutual

/-- No reflected object of the tree has such a conflict. -/
def LiteralsOk : Tree → Prop
  | array elements => LiteralsOkList elements
  | object named members =>
    (named = false → (members.map Prod.fst).Pairwise fun n m => ¬LiteralConflict n m) ∧
      LiteralsOkMembers members
  | _ => True

/-- No element has one. -/
def LiteralsOkList : List Tree → Prop
  | [] => True
  | t :: ts => LiteralsOk t ∧ LiteralsOkList ts

/-- No value of a member has one. -/
def LiteralsOkMembers : List (Bytes × Tree) → Prop
  | [] => True
  | (_, t) :: ms => LiteralsOk t ∧ LiteralsOkMembers ms

end

mutual

/-- The names are distinct in each object that keeps its names. -/
def NamedOk : Tree → Prop
  | array elements => NamedOkList elements
  | object named members => (named = true → (members.map Prod.fst).Nodup) ∧ NamedOkMembers members
  | _ => True

/-- The names are distinct in each element. -/
def NamedOkList : List Tree → Prop
  | [] => True
  | t :: ts => NamedOk t ∧ NamedOkList ts

/-- The names are distinct in the value of each member. -/
def NamedOkMembers : List (Bytes × Tree) → Prop
  | [] => True
  | (_, t) :: ms => NamedOk t ∧ NamedOkMembers ms

end

theorem useHashedFieldId_nil : useHashedFieldId [] = false := by decide +kernel

/-- The keys of two names of a reflected object clash as the same hash or in a literal
conflict. -/
theorem clashes_idKey {n m : Bytes} : Key.Clashes false (idKey n) (idKey m) ↔
    Key.SameHash (idKey n) (idKey m) ∨ LiteralConflict n m := by
  have hnil : useHashedFieldId n = true → n ≠ [] := by
    rintro h rfl
    cases useHashedFieldId_nil.symm.trans h
  unfold idKey LiteralConflict
  split_ifs with hn hm hm
  · simp [Key.Clashes, Key.SameHash, hn, hnil hn]
  · simp [Key.Clashes, Key.SameHash, hn, hnil hn]
  · have hne : n ≠ m := fun h => hn (h ▸ hm)
    simp [Key.Clashes, Key.SameHash, hm, hne]
  · simp [Key.Clashes, Key.SameHash, hn, hm, and_comm]

mutual

/-- The Reader's check of the keys is the Writer's, with what only the Reader finds. -/
theorem keysOk_iff : (t : Tree) → (t.wire.KeysOk ↔ t.wire.HashesOk ∧ t.LiteralsOk ∧ t.NamedOk)
  | null => by simp [wire, Wire.KeysOk, Wire.HashesOk, LiteralsOk, NamedOk]
  | value (.string _) => by
    simp [wire, BasicValue.wire, Wire.KeysOk, Wire.HashesOk, LiteralsOk, NamedOk]
  | value (.arithmetic T _) => by
    cases T <;> simp [wire, BasicValue.wire, Wire.KeysOk, Wire.HashesOk, LiteralsOk, NamedOk]
  | fixed _ _ _ => by
    simp [wire, Arithmetic.fixedWire, Wire.KeysOk, Wire.HashesOk, LiteralsOk, NamedOk]
  | array ts => by
    simp only [wire, Wire.KeysOk, Wire.HashesOk, LiteralsOk, NamedOk, keysOkList_iff ts]
  | object true ms => by
    have hkeys : KeysFit true ((wireMembers true ms).map Prod.fst) ↔
        (ms.map Prod.fst).Nodup := by
      rw [keys_wireMembers, KeysFit, List.pairwise_map]
      simp [memberKey, Key.Clashes, List.Nodup]
    have hhashes : ((wireMembers true ms).map Prod.fst).Pairwise fun k l => ¬Key.SameHash k l := by
      rw [keys_wireMembers, List.pairwise_map]
      exact List.pairwise_of_forall_mem_list fun _ _ _ _ h => h
    simp only [wire, Wire.KeysOk, Wire.HashesOk, LiteralsOk, NamedOk, keysOkMembers_iff true ms,
      hkeys, hhashes, true_and, forall_const, Bool.true_eq_false, false_implies]
    tauto
  | object false ms => by
    have hkeys : KeysFit false ((wireMembers false ms).map Prod.fst) ↔
        ((wireMembers false ms).map Prod.fst).Pairwise (fun k l => ¬Key.SameHash k l) ∧
          (ms.map Prod.fst).Pairwise fun n m => ¬LiteralConflict n m := by
      rw [keys_wireMembers]
      generalize ms.map Prod.fst = names
      unfold KeysFit
      rw [List.pairwise_map, List.pairwise_map, ← List.pairwise_and_iff]
      simp only [memberKey, Bool.false_eq_true, if_false, clashes_idKey, not_or]
    simp only [wire, Wire.KeysOk, Wire.HashesOk, LiteralsOk, NamedOk, keysOkMembers_iff false ms,
      hkeys, forall_const, Bool.false_eq_true, false_implies, true_and]
    tauto

theorem keysOkList_iff : (ts : List Tree) → (Wire.KeysOkList (wireList ts) ↔
    Wire.HashesOkList (wireList ts) ∧ LiteralsOkList ts ∧ NamedOkList ts)
  | [] => by simp [wireList, Wire.KeysOkList, Wire.HashesOkList, LiteralsOkList, NamedOkList]
  | t :: ts => by
    simp only [wireList, Wire.KeysOkList, Wire.HashesOkList, LiteralsOkList, NamedOkList,
      keysOk_iff t, keysOkList_iff ts]
    tauto

theorem keysOkMembers_iff (named : Bool) : (ms : List (Bytes × Tree)) →
    (Wire.KeysOkMembers (wireMembers named ms) ↔
      Wire.HashesOkMembers (wireMembers named ms) ∧ LiteralsOkMembers ms ∧ NamedOkMembers ms)
  | [] => by
    simp [wireMembers, Wire.KeysOkMembers, Wire.HashesOkMembers, LiteralsOkMembers, NamedOkMembers]
  | (name, t) :: ms => by
    simp only [wireMembers, Wire.KeysOkMembers, Wire.HashesOkMembers, LiteralsOkMembers,
      NamedOkMembers, keysOk_iff t, keysOkMembers_iff named ms]
    tauto

end

end Tree

end NekoProto.Binary

namespace NekoProto.Parsing

open Binary Binary.Reader Outcome

/-! ## The objects of a value that keep their names -/

section

variable {α β : Type}

theorem elementTrees_namedOk {tree : α → Option Tree}
    (h : ∀ value t, tree value = some t → t.NamedOk) : (values : List α) → {ts : List Tree} →
    elementTrees tree values = some ts → Tree.NamedOkList ts
  | [], _, heq => by
    obtain rfl := Option.some.inj heq
    trivial
  | value :: values, _, heq => by
    obtain ⟨t, ht, heq⟩ := Option.bind_eq_some_iff.mp heq
    obtain ⟨ts, hts, heq⟩ := Option.bind_eq_some_iff.mp heq
    obtain rfl := Option.some.inj heq
    exact ⟨h value t ht, elementTrees_namedOk h values hts⟩

theorem memberTrees_namedOk {tree : α → Option Tree}
    (h : ∀ value t, tree value = some t → t.NamedOk) : (entries : List (Bytes × α)) →
    {ms : List (Bytes × Tree)} → memberTrees tree entries = some ms →
    ms.map Prod.fst = entries.map Prod.fst ∧ Tree.NamedOkMembers ms
  | [], _, heq => by
    obtain rfl := Option.some.inj heq
    exact ⟨rfl, trivial⟩
  | (name, value) :: entries, _, heq => by
    obtain ⟨t, ht, heq⟩ := Option.bind_eq_some_iff.mp heq
    obtain ⟨ms, hms, heq⟩ := Option.bind_eq_some_iff.mp heq
    obtain rfl := Option.some.inj heq
    obtain ⟨hnames, hrest⟩ := memberTrees_namedOk h entries hms
    exact ⟨congrArg (name :: ·) hnames, h value t ht, hrest⟩

theorem pairTree_namedOk {first second : Bytes} {r q : Option Tree} {t : Tree}
    (hne : first ≠ second) (hr : ∀ t, r = some t → t.NamedOk)
    (hq : ∀ t, q = some t → t.NamedOk) (h : pairTree first second r q = some t) : t.NamedOk := by
  obtain ⟨a, ha, h⟩ := Option.bind_eq_some_iff.mp h
  obtain ⟨b, hb, h⟩ := Option.bind_eq_some_iff.mp h
  obtain rfl := Option.some.inj h
  exact ⟨fun _ => by simp [hne], hr a ha, hq b hb, trivial⟩

theorem entryTrees_namedOk {keyTree : α → Option Tree} {valueTree : β → Option Tree}
    (hkey : ∀ key t, keyTree key = some t → t.NamedOk)
    (hvalue : ∀ value t, valueTree value = some t → t.NamedOk) : (entries : List (α × β)) →
    {ts : List Tree} → entryTrees keyTree valueTree entries = some ts → Tree.NamedOkList ts
  | [], _, heq => by
    obtain rfl := Option.some.inj heq
    trivial
  | (key, value) :: entries, _, heq => by
    obtain ⟨t, ht, heq⟩ := Option.bind_eq_some_iff.mp heq
    obtain ⟨ts, hts, heq⟩ := Option.bind_eq_some_iff.mp heq
    obtain rfl := Option.some.inj heq
    exact ⟨pairTree_namedOk (by decide) (hkey key) (hvalue value) ht,
      entryTrees_namedOk hkey hvalue entries hts⟩

end

theorem namedOkMembers_append {as bs : List (Bytes × Tree)} (ha : Tree.NamedOkMembers as)
    (hb : Tree.NamedOkMembers bs) : Tree.NamedOkMembers (as ++ bs) := by
  induction as with
  | nil => exact hb
  | cons a as ih => exact ⟨ha.1, ih ha.2⟩

theorem namedOkList_append {as bs : List Tree} (ha : Tree.NamedOkList as)
    (hb : Tree.NamedOkList bs) : Tree.NamedOkList (as ++ bs) := by
  induction as with
  | nil => exact hb
  | cons a as ih => exact ⟨ha.1, ih ha.2⟩

theorem arithmeticTree_namedOk {T : Arithmetic} {tags : Tags} {value : T.Value} {t : Tree}
    (h : arithmeticTree T tags value = some t) : t.NamedOk := by
  unfold arithmeticTree at h
  split at h
  · split_ifs at h
    obtain rfl := Option.some.inj h
    cases T <;> trivial
  · obtain rfl := Option.some.inj h
    trivial

section

variable {nullForEmpty : Bool}

theorem fieldMembers_namedOk {T : Ty} {name : Bytes} {tags : Tags} {value : T.Value}
    {flat : Option (List (Bytes × Tree))} {tree : Option Tree} {ms : List (Bytes × Tree)}
    (hflat : ∀ as, flat = some as → Tree.NamedOkMembers as)
    (htree : ∀ t, tree = some t → t.NamedOk)
    (h : fieldMembers nullForEmpty T name tags value flat tree = some ms) :
    Tree.NamedOkMembers ms := by
  unfold fieldMembers at h
  split_ifs at h
  · obtain rfl := Option.some.inj h
    trivial
  · exact hflat ms h
  · obtain rfl := Option.some.inj h
    trivial
  · obtain rfl := Option.some.inj h
    exact ⟨trivial, trivial⟩
  · obtain ⟨t, ht, rfl⟩ := Option.map_eq_some_iff.mp h
    exact ⟨htree t ht, trivial⟩

mutual

/-- The names are distinct in each object of a value that keeps its names. -/
theorem tree_namedOk : (T : Ty) → (tags : Tags) → (value : T.Value) → (t : Tree) →
    T.tree nullForEmpty tags value = some t → t.NamedOk
  | .arithmetic T, tags, value, t, h => arithmeticTree_namedOk h
  | .string, _, value, t, h => by
    obtain rfl := Option.some.inj h
    trivial
  | .enumeration signed width names, tags, value, t, h => by
    unfold Ty.tree enumerationTree at h
    split_ifs at h
    · obtain rfl := Option.some.inj h
      trivial
    · exact arithmeticTree_namedOk h
  | .null _, _, _, _, h => by
    obtain rfl := Option.some.inj h
    trivial
  | .optional _, _, none, _, h => by
    obtain rfl := Option.some.inj h
    trivial
  | .optional T, tags, some value, t, h => tree_namedOk T tags value t h
  | .pointer _ _, _, none, _, h => by
    obtain rfl := Option.some.inj h
    trivial
  | .pointer _ T, tags, some value, t, h => tree_namedOk T tags value t h
  | .sequence _ T, _, values, _, h => by
    obtain ⟨ts, hts, rfl⟩ := Option.map_eq_some_iff.mp h
    exact elementTrees_namedOk (tree_namedOk T {}) values hts
  | .array _ T, _, values, _, h => by
    obtain ⟨ts, hts, rfl⟩ := Option.map_eq_some_iff.mp h
    exact elementTrees_namedOk (tree_namedOk T {}) values.1 hts
  | .tuple Ts, _, values, _, h => by
    obtain ⟨ts, hts, rfl⟩ := Option.map_eq_some_iff.mp h
    exact trees_namedOk Ts values ts hts
  | .pair T U, _, (first, second), _, h =>
    pairTree_namedOk (by decide) (tree_namedOk T {} first) (tree_namedOk U {} second) h
  | .variant Ts, tags, value, t, h => by
    unfold Ty.tree at h
    split_ifs at h
    · exact activeTree_namedOk Ts tags.payload value t h
    · obtain ⟨t', ht, h⟩ := Option.bind_eq_some_iff.mp h
      obtain rfl := Option.some.inj h
      exact ⟨trivial, activeTree_namedOk Ts tags.payload value t' ht, trivial⟩
  | .stringMap T, _, entries, _, h => by
    obtain ⟨ms, hms, rfl⟩ := Option.map_eq_some_iff.mp h
    obtain ⟨hnames, hmembers⟩ := memberTrees_namedOk (tree_namedOk T {}) entries.1 hms
    exact ⟨fun _ => hnames ▸ entries.2, hmembers⟩
  | .entryMap _ K T, _, entries, _, h => by
    obtain ⟨ts, hts, rfl⟩ := Option.map_eq_some_iff.mp h
    exact entryTrees_namedOk (tree_namedOk K {}) (tree_namedOk T {}) entries hts
  | .object _ fields, tags, values, _, h => by
    unfold Ty.tree at h
    split_ifs at h
    obtain ⟨ms, hms, rfl⟩ := Option.map_eq_some_iff.mp h
    exact ⟨nofun, members_namedOk fields values ms hms⟩
  | .record fields, _, values, _, h => by
    obtain ⟨ts, hts, rfl⟩ := Option.map_eq_some_iff.mp h
    exact elements_namedOk fields values ts hts

theorem trees_namedOk : (Ts : Tys) → (values : Ts.Values) → (ts : List Tree) →
    Ts.trees nullForEmpty values = some ts → Tree.NamedOkList ts
  | .nil, _, _, h => by
    obtain rfl := Option.some.inj h
    trivial
  | .cons T Ts, (value, values), _, h => by
    obtain ⟨t, ht, h⟩ := Option.bind_eq_some_iff.mp h
    obtain ⟨ts, hts, h⟩ := Option.bind_eq_some_iff.mp h
    obtain rfl := Option.some.inj h
    exact ⟨tree_namedOk T {} value t ht, trees_namedOk Ts values ts hts⟩

theorem activeTree_namedOk : (Ts : Alternatives) → (tags : Tags) → (value : Ts.Value) →
    (t : Tree) → Ts.tree nullForEmpty tags value = some t → t.NamedOk
  | .one T, tags, value, t, h => tree_namedOk T tags value t h
  | .cons T _, tags, .inl value, t, h => tree_namedOk T tags value t h
  | .cons _ Ts, tags, .inr value, t, h => activeTree_namedOk Ts tags value t h

theorem members_namedOk : (fields : Fields) → (values : fields.Values) →
    (ms : List (Bytes × Tree)) → fields.members nullForEmpty values = some ms →
    Tree.NamedOkMembers ms
  | .nil, _, _, h => by
    obtain rfl := Option.some.inj h
    trivial
  | .cons name tags T rest, (value, values), ms, h => by
    obtain ⟨as, has, h⟩ := Option.bind_eq_some_iff.mp h
    obtain ⟨bs, hbs, h⟩ := Option.bind_eq_some_iff.mp h
    obtain rfl := Option.some.inj h
    exact namedOkMembers_append
      (fieldMembers_namedOk (flatMembers_namedOk T value) (tree_namedOk T tags value) has)
      (members_namedOk rest values bs hbs)

theorem flatMembers_namedOk : (T : Ty) → (value : T.Value) → (ms : List (Bytes × Tree)) →
    T.flatMembers nullForEmpty value = some ms → Tree.NamedOkMembers ms
  | T, value, ms, h => by
    cases T with
    | object unframed fields => exact members_namedOk fields value ms h
    | _ =>
      obtain rfl := Option.some.inj h
      trivial

theorem elements_namedOk : (fields : Fields) → (values : fields.Values) → (ts : List Tree) →
    fields.elements nullForEmpty values = some ts → Tree.NamedOkList ts
  | .nil, _, _, h => by
    obtain rfl := Option.some.inj h
    trivial
  | .cons name tags T rest, (value, values), ts, h => by
    obtain ⟨as, has, h⟩ := Option.bind_eq_some_iff.mp h
    obtain ⟨bs, hbs, h⟩ := Option.bind_eq_some_iff.mp h
    obtain rfl := Option.some.inj h
    refine namedOkList_append ?_ (elements_namedOk rest values bs hbs)
    unfold fieldElements at has
    split_ifs at has
    · obtain rfl := Option.some.inj has
      trivial
    · obtain ⟨t, ht, rfl⟩ := Option.map_eq_some_iff.mp has
      exact ⟨tree_namedOk T tags value t ht, trivial⟩

end

end

/-! ## Documents of values -/

/-- The document of a tree is within the limits of a Reader. -/
structure WithinLimits (inp : Input) (t : Tree) : Prop where
  notNull : inp.isNull = false
  size_le : inp.size ≤ inp.limits.maxInputBytes
  within : t.wire.Within inp.limits 0
  charge_le : t.wire.charge inp.abi ≤ inp.limits.maxTotalAllocatedBytes

section

variable {nullForEmpty : Bool} {T : Ty} {tags : Tags} {value : T.Value}

/-- What is written for a value outside `raw_fixed_data` is the document of its tree. -/
theorem write_eq (hframed : tags.rawFixedData = false) {t : Tree}
    (ht : T.tree nullForEmpty tags value = some t) :
    write nullForEmpty T tags value = (t.document.result, t.document.buffer) := by
  have hwrite := (parserWrite_below T tags value .root {} _ (.inr hframed)).mpr ⟨t, ht, rfl⟩
  rw [write, hframed, Bool.false_and, if_neg Bool.false_ne_true, hwrite]
  rfl

theorem result_eq_ok {w : Writer} : w.result = .ok () ↔ w.error = none := by
  unfold Writer.result
  cases w.error <;> simp

/-- The write succeeds exactly where there is a tree that the Writer has no error for. -/
theorem write_ok_iff (hframed : tags.rawFixedData = false) :
    (write nullForEmpty T tags value).1 = .ok () ↔
      ∃ t, T.tree nullForEmpty tags value = some t ∧ t.document.error = none := by
  constructor
  · intro h
    cases ht : T.tree nullForEmpty tags value with
    | some t =>
      rw [write_eq hframed ht] at h
      exact ⟨t, rfl, result_eq_ok.mp h⟩
    | none =>
      have hnone := @parserWrite_below nullForEmpty T tags value .root {}
      rw [write, hframed, Bool.false_and, if_neg Bool.false_ne_true] at h
      cases hwrite : parserWrite nullForEmpty T tags value (.root, {}) with
      | ok a u =>
        obtain ⟨t, ht', -⟩ := (hnone u (.inr hframed)).mp hwrite
        cases ht.symm.trans ht'
      | error e u =>
        rw [hwrite] at h
        cases h
  · rintro ⟨t, ht, herror⟩
    rw [write_eq hframed ht]
    exact result_eq_ok.mpr herror

end

/-- **When the Reader accepts what the Writer wrote.** For a value within the limits, the write
reports success exactly if the value has a tree in which no hash repeats in a reflected object,
and then `root` succeeds exactly if no reflected object has a literal conflict. -/
theorem written_accepted_iff (nullForEmpty : Bool) (T : Ty) (tags : Tags) (value : T.Value)
    (inp : Input) (hframed : tags.rawFixedData = false)
    (hdata : inp.data = (write nullForEmpty T tags value).2)
    (hlimits : ∀ t, T.tree nullForEmpty tags value = some t → WithinLimits inp t) :
    ((write nullForEmpty T tags value).1 = .ok () ↔
      ∃ t, T.tree nullForEmpty tags value = some t ∧ t.wire.HashesOk) ∧
    ((write nullForEmpty T tags value).1 = .ok () →
      ((∃ k n s, Returns (root inp) (init inp) (.node k n) s) ↔
        ∀ t, T.tree nullForEmpty tags value = some t → t.LiteralsOk)) := by
  have hwrite : (write nullForEmpty T tags value).1 = .ok () ↔
      ∃ t, T.tree nullForEmpty tags value = some t ∧ t.wire.HashesOk := by
    rw [write_ok_iff hframed]
    refine exists_congr fun t => and_congr_right fun ht => ?_
    exact (Tree.document_grown inp.limits_lt (hlimits t ht).within).2
  refine ⟨hwrite, fun hok => ?_⟩
  obtain ⟨t, ht, hhashes⟩ := hwrite.mp hok
  have hlimit := hlimits t ht
  have hbuffer := (Tree.document_grown inp.limits_lt hlimit.within).1
  rw [write_eq hframed ht] at hdata
  have hdocument := hdata.trans hbuffer
  have hkeys := (Tree.keysOk_iff t).trans (and_iff_right hhashes)
  constructor
  · rintro ⟨k, n, s, hroot⟩ t' ht'
    obtain rfl := Option.some.inj (ht.symm.trans ht')
    have hfits := (holds_of_root hlimit.within hdocument hroot).fits
    exact (hkeys.mp ((Wire.fits_iff _ _).mp hfits).2).1
  · intro hliterals
    have hfits := (Wire.fits_iff _ _).mpr
      ⟨hlimit.within, hkeys.mpr ⟨hliterals t ht, tree_namedOk T tags value t ht⟩⟩
    exact ⟨_, _, _, (root_node_iff.mpr ⟨_, ⟨hlimit.notNull, hlimit.size_le, hdocument, hfits,
      hlimit.charge_le⟩, rfl, rfl, rfl⟩).1⟩

/-- A class with two fields, the second of which is renamed to the name of the first. -/
def renamed : Ty :=
  .object false (.cons [0x61] {} (.arithmetic (.integer false .w8))
    (.cons [0x62] { name := some [0x61] } (.arithmetic (.integer false .w8)) .nil))

/-- A value of the class. -/
def renamedValue : renamed.Value := ((1 : BitVec 8), (2 : BitVec 8), ())

/-- The tree of the value. -/
def renamedTree : Tree :=
  .object false [([0x61], .value (.arithmetic (.integer false .w8) (1 : BitVec 8))),
    ([0x61], .value (.arithmetic (.integer false .w8) (2 : BitVec 8)))]

/-- What is written for the value. -/
def renamedInput : Input where
  data := (write false renamed {} renamedValue).2
  size_lt := by decide +kernel
  limits_lt := ParseLimits.sized_default

theorem withinLimits_renamed : WithinLimits renamedInput renamedTree := by
  have hliteral : useHashedFieldId [0x61] = false := by decide +kernel
  refine ⟨rfl, by decide +kernel, ?_, by decide +kernel⟩
  simp [renamedTree, Tree.wire, Tree.wireMembers, memberKey, idKey, hliteral, Wire.Within,
    Wire.WithinMembers, Key.Fits, BasicValue.wire]
  decide

/-- The Writer takes a value whose two fields have the same literal name, the Reader does not. -/
theorem written_accepted_fails :
    (write false renamed {} renamedValue).1 = .ok () ∧ WithinLimits renamedInput renamedTree ∧
      ¬∃ k n s, Returns (root renamedInput) (init renamedInput) (.node k n) s := by
  refine ⟨by rfl, withinLimits_renamed, ?_⟩
  rintro ⟨k, n, s, h⟩
  have hholds := holds_of_root (w := renamedTree.wire) withinLimits_renamed.within
    (by decide +kernel) h
  have hkeys := ((Wire.fits_iff _ _).mp hholds.fits).2.1
  have hkey : memberKey false [0x61] = .literal [0x61] := by decide +kernel
  refine (List.pairwise_cons.mp hkeys).1 _ List.mem_cons_self ?_
  rw [hkey]
  exact ⟨rfl, .inr (by decide)⟩

/-- The class without the renaming. -/
def distinct : Ty :=
  .object false (.cons [0x61] {} (.arithmetic (.integer false .w8))
    (.cons [0x62] {} (.arithmetic (.integer false .w8)) .nil))

/-- A value of the class. -/
def distinctValue : distinct.Value := ((1 : BitVec 8), (2 : BitVec 8), ())

/-- The tree of the value. -/
def distinctTree : Tree :=
  .object false [([0x61], .value (.arithmetic (.integer false .w8) (1 : BitVec 8))),
    ([0x62], .value (.arithmetic (.integer false .w8) (2 : BitVec 8)))]

/-- What is written for the value. -/
def distinctInput : Input where
  data := (write false distinct {} distinctValue).2
  size_lt := by decide +kernel
  limits_lt := ParseLimits.sized_default

theorem withinLimits_distinct : WithinLimits distinctInput distinctTree := by
  have hfirst : useHashedFieldId [0x61] = false := by decide +kernel
  have hsecond : useHashedFieldId [0x62] = false := by decide +kernel
  refine ⟨rfl, by decide +kernel, ?_, by decide +kernel⟩
  simp [distinctTree, Tree.wire, Tree.wireMembers, memberKey, idKey, hfirst, hsecond, Wire.Within,
    Wire.WithinMembers, Key.Fits, BasicValue.wire]
  decide

/-- The Reader takes the value whose fields have their own names. -/
theorem written_accepted_distinct :
    (write false distinct {} distinctValue).1 = .ok () ∧
      ∃ k n s, Returns (root distinctInput) (init distinctInput) (.node k n) s := by
  have hok : (write false distinct {} distinctValue).1 = .ok () := by rfl
  have haccepted := (written_accepted_iff false distinct {} distinctValue distinctInput rfl rfl
    fun t ht => (Option.some.inj ht) ▸ withinLimits_distinct).2 hok
  refine ⟨hok, haccepted.mpr fun t ht => ?_⟩
  obtain rfl : distinctTree = t := Option.some.inj ht
  refine ⟨fun _ => List.pairwise_pair.mpr ?_, trivial, trivial, trivial⟩
  rintro (⟨-, -, h⟩ | ⟨h, -⟩)
  · exact absurd h (by decide)
  · exact absurd h (by decide)

end NekoProto.Parsing
