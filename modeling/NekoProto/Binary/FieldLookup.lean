import NekoProto.Binary.Canonical

/-!
# Looking up the fields of an `IdObject`

The names of the fields of an `IdObject` are looked up by the keys that stand for them in the
buffer, and the keys are distinct, unless one of them is the literal empty name.

1. A node of an accepted value was made for a tree that stands where the node begins
   (`Accepted.made`).
2. In an object without the literal empty name, the key of a name leads to its member or is
   nowhere (`objectField_member`, `objectField_missing`), and the keys are distinct.
3. With the literal empty name in it, the name is missing (`idObject_lookup_iff`).
-/

namespace NekoProto.Binary

open Outcome Segment

namespace Reader

variable {inp : Input} {s : State} {k : ℕ} {n : Node}

/-! ## Accepted nodes -/

/-- A node of an accepted value: one that `_parseNode` returns, or a child of one. -/
inductive Accepted (inp : Input) : Node → Prop
  | parsed {cursor depth budget next rest : ℕ} {n : Node} (hdepth : depth ≤ cursor)
      (hbudget : budget ≤ inp.limits.maxTotalAllocatedBytes)
      (h : Returns (parseNode inp (nodeFuel inp.limits depth) cursor inp.size depth) budget
        (n, next) rest) : Accepted inp n
  | element {n e : Node} (h : Accepted inp n) (he : e ∈ n.elements) : Accepted inp e
  | member {n : Node} {m : Member Node} (h : Accepted inp n) (hm : m ∈ n.members) :
      Accepted inp m.value

/-- The tree that stands where a node begins, and for which the node was made. -/
structure MadeFor (inp : Input) (n : Node) (w : Wire) : Prop where
  fits : w.Fits inp.limits n.depth
  stands : At inp.data n.begin w.encode
  node_eq : n = w.layout n.begin n.depth

theorem madeFor_layout {w : Wire} {pos depth : ℕ} (hfits : w.Fits inp.limits depth)
    (hstands : At inp.data pos w.encode) : MadeFor inp (w.layout pos depth) w := by
  refine ⟨?_, ?_, ?_⟩
  · rw [layout_depth]
    exact hfits
  · rw [layout_begin]
    exact hstands
  · rw [layout_depth, layout_begin]

theorem madeFor_of_mem_layoutList {depth : ℕ} {e : Node} : ∀ {ws : List Wire} {pos : ℕ},
    Wire.FitsList inp.limits depth ws → At inp.data pos (Wire.encodeList ws) →
    e ∈ Wire.layoutList pos depth ws → ∃ w, MadeFor inp e w
  | w :: ws, pos, hfits, hstands, he => by
    obtain ⟨hfirst, hrest⟩ := at_append.mp hstands
    rcases List.mem_cons.mp he with rfl | he
    · exact ⟨w, madeFor_layout hfits.1 hfirst⟩
    · exact madeFor_of_mem_layoutList hfits.2 hrest he

theorem madeFor_of_mem_layoutMembers {named : Bool} {depth : ℕ} {m : Member Node} :
    ∀ {ms : List (Key × Wire)} {pos : ℕ}, Wire.FitsMembers inp.limits named depth ms →
    At inp.data pos (Wire.encodeMembers named ms) →
    m ∈ Wire.layoutMembers named pos depth ms → ∃ w, MadeFor inp m.value w
  | (key, w) :: ms, pos, hfits, hstands, hm => by
    obtain ⟨-, hvalue⟩ := at_append.mp hstands
    obtain ⟨hfirst, hrest⟩ := at_append.mp hvalue
    rcases List.mem_cons.mp hm with rfl | hm
    · exact ⟨w, madeFor_layout hfits.2.1 hfirst⟩
    · exact madeFor_of_mem_layoutMembers hfits.2.2 hrest hm

/-- **Every accepted node** was made for a tree of its buffer. -/
theorem Accepted.made (h : Accepted inp n) : ∃ w, MadeFor inp n w := by
  induction h with
  | @parsed cursor depth budget next rest n hdepth hbudget h =>
    have hfuel : inp.limits.maxDepth + 2 ≤ nodeFuel inp.limits depth + depth := by
      unfold nodeFuel
      omega
    have hspec : ChildSpec inp (parseNode inp (nodeFuel inp.limits depth)) inp.size depth :=
      parseNode_returns (le_refl _) _ depth hfuel
    obtain ⟨w, cost, hw, -⟩ := (hspec cursor budget n next rest hdepth
      (lt_of_le_of_lt hbudget inp.limits_lt.budget)).mp h
    rw [hw.node_eq]
    exact ⟨w, madeFor_layout hw.fits hw.stands⟩
  | @element n e h he ih =>
    obtain ⟨w, hw⟩ := ih
    rw [hw.node_eq] at he
    have hfits := hw.fits
    have hstands := hw.stands
    cases w with
    | array ws =>
      obtain ⟨-, hcount⟩ := at_cons.mp hstands
      obtain ⟨-, hlist⟩ := at_append.mp hcount
      exact madeFor_of_mem_layoutList hfits.2.2 hlist he
    | _ => cases he
  | @member n m h hm ih =>
    obtain ⟨w, hw⟩ := ih
    rw [hw.node_eq] at hm
    have hfits := hw.fits
    have hstands := hw.stands
    cases w with
    | object named ms =>
      obtain ⟨-, hcount⟩ := at_cons.mp hstands
      obtain ⟨-, hmembers⟩ := at_append.mp hcount
      exact madeFor_of_mem_layoutMembers hfits.2.2.2 hmembers hm
    | _ => cases hm

/-! ## Lookups -/

/-- The keys that stand in the buffer for the members of an `IdObject`, in their order. -/
def WireKeys (inp : Input) (n : Node) (keys : List Key) : Prop :=
  ∃ ms, keys = ms.map Prod.fst ∧ MadeFor inp n (.object false ms)

/-- **The law of lookups**: a name leads to the member under the key that the Writer has for it,
is missing where no member has that key, and no two members have the same. -/
structure LookupLaw (inp : Input) (s : State) (k : ℕ) (n : Node) (keys : List Key) : Prop where
  found : ∀ name v, objectField inp s (.node k n) name = .ok v ↔
    ∃ (i : ℕ) (m : Member Node), keys[i]? = some (idKey name) ∧ n.members[i]? = some m ∧
      v = .node k m.value
  missing : ∀ name, objectField inp s (.node k n) name = .error (missingField name) ↔
    idKey name ∉ keys
  distinct : keys.Nodup

theorem Accepted.wireKeys (h : Accepted inp n) (htag : n.tag = .idObject) :
    ∃ keys, WireKeys inp n keys := by
  obtain ⟨w, hw⟩ := h.made
  have htag' : w.tag = .idObject := by rw [← htag, hw.node_eq, layout_tag]
  cases w with
  | object named ms =>
    cases named with
    | true => cases htag'
    | false => exact ⟨_, ms, rfl, hw⟩
  | bool value => cases value <;> cases htag'
  | integer signed value => cases signed <;> cases htag'
  | fixed tag payload =>
    obtain rfl : tag = .idObject := htag'
    exact absurd rfl hw.fits.2.1
  | null => cases htag'
  | string bytes => cases htag'
  | array elements => cases htag'

theorem useHashedFieldId_nil : useHashedFieldId [] = false := by decide

theorem idKey_nil : idKey [] = .literal [] := by
  unfold idKey
  rw [useHashedFieldId_nil]
  rfl

/-- Without the literal empty name, keys that do not clash are distinct. -/
theorem nodup_of_keysFit {keys : List Key} (hkeys : KeysFit false keys)
    (hempty : Key.literal [] ∉ keys) : keys.Nodup := by
  refine hkeys.imp_of_mem fun {earlier later} hearlier _ hclash heq => hclash ?_
  subst heq
  cases earlier with
  | literal n => exact ⟨rfl, .inr fun hn => hempty (hn ▸ hearlier)⟩
  | hash i => rfl

/-- The lookup in an `IdObject`. -/
theorem objectField_idObject (hlive : Live inp s) (htag : n.tag = .idObject) (name : Bytes) :
    objectField inp s (.node k n) name = fieldOr name
      (if useHashedFieldId name then findId (.node k n) (fieldId name)
      else findName (.node k n) name) := by
  unfold objectField
  rw [validateHandle_node hlive]
  have htag' : (InputValue.node k n).tag = .idObject := htag
  simp only [htag', reduceCtorEq, if_false, if_true]
  split_ifs <;> rfl

theorem mem_layoutMembers_key {named : Bool} {depth : ℕ} {m : Member Node} :
    ∀ {ms : List (Key × Wire)} {pos : ℕ}, m ∈ Wire.layoutMembers named pos depth ms →
    ∃ key ∈ ms.map Prod.fst, m.name = key.name ∧ m.id = key.id
  | (key, w) :: ms, pos, hm => by
    rcases List.mem_cons.mp hm with rfl | hm
    · exact ⟨key, List.mem_cons_self, rfl, rfl⟩
    · obtain ⟨key', hkey', hname⟩ := mem_layoutMembers_key hm
      exact ⟨key', List.mem_cons_of_mem _ hkey', hname⟩

theorem getElem?_layoutMembers (named : Bool) (depth : ℕ) (as bs : List (Key × Wire)) (key : Key)
    (w : Wire) (pos : ℕ) :
    (Wire.layoutMembers named pos depth (as ++ (key, w) :: bs))[as.length]? =
      some ⟨key.name, key.id, w.layout
        (pos + (Wire.encodeMembers named as).length + (key.encode named).length) depth⟩ := by
  induction as generalizing pos with
  | nil => rfl
  | cons a as ih =>
    obtain ⟨key', w'⟩ := a
    rw [List.cons_append, Wire.layoutMembers, List.length_cons, List.getElem?_cons_succ, ih,
      Wire.encodeMembers]
    simp only [List.length_append, Nat.add_assoc]

theorem MadeFor.members {ms : List (Key × Wire)} (h : MadeFor inp n (.object false ms)) :
    n.members = Wire.layoutMembers false (n.begin + 1 + (Leb128.encode ms.length).length)
      (n.depth + 1) ms := by
  conv_lhs => rw [h.node_eq]
  rfl

/-- **A name whose key is there** leads to the member under it. -/
theorem objectField_member (hlive : Live inp s) {ms : List (Key × Wire)}
    (hmade : MadeFor inp n (.object false ms)) (hempty : Key.literal [] ∉ ms.map Prod.fst)
    {name : Bytes} (hname : idKey name ∈ ms.map Prod.fst) :
    ∃ (i : ℕ) (m : Member Node), (ms.map Prod.fst)[i]? = some (idKey name) ∧
      n.members[i]? = some m ∧ objectField inp s (.node k n) name = .ok (.node k m.value) := by
  obtain ⟨⟨key, w⟩, hmem, hkey⟩ := List.mem_map.mp hname
  obtain ⟨as, bs, hms⟩ := List.append_of_mem hmem
  obtain rfl : key = idKey name := hkey
  have hne : name ≠ [] := by
    rintro rfl
    exact hempty (idKey_nil ▸ hname)
  have hget := getElem?_layoutMembers false (n.depth + 1) as bs (idKey name) w
    (n.begin + 1 + (Leb128.encode ms.length).length)
  rw [← hms] at hget
  refine ⟨as.length, ⟨(idKey name).name, (idKey name).id, w.layout
    (memberPos false n.begin as (idKey name) ms.length) (n.depth + 1)⟩, ?_, ?_, ?_⟩
  · rw [hms, List.map_append, List.map_cons, List.getElem?_append_right (by simp)]
    simp
  · rw [hmade.members]
    exact hget
  · have hfield : objectField inp s
        (.node k ((Wire.object false ms).layout n.begin n.depth)) name = _ :=
      objectField_layout hlive hms hmade.fits.2.2.1 (fun h => absurd h (by decide)) fun _ => hne
    rw [← hmade.node_eq] at hfield
    exact hfield

/-- A name whose key is nowhere in the layout of an object is missing. -/
theorem objectField_absent (hlive : Live inp s) {ms : List (Key × Wire)} {pos depth : ℕ}
    (hempty : Key.literal [] ∉ ms.map Prod.fst) {name : Bytes}
    (hname : idKey name ∉ ms.map Prod.fst) :
    objectField inp s (.node k ((Wire.object false ms).layout pos depth)) name =
      .error (missingField name) := by
  have htag : ((Wire.object false ms).layout pos depth).tag = .idObject := rfl
  have hmembers : ((Wire.object false ms).layout pos depth).members =
      Wire.layoutMembers false (pos + 1 + (Leb128.encode ms.length).length) (depth + 1) ms := rfl
  rw [objectField_idObject hlive htag]
  by_cases hhash : useHashedFieldId name = true
  · have hid : idKey name = .hash (fieldId name) := if_pos hhash
    have hnone : findId (.node k ((Wire.object false ms).layout pos depth)) (fieldId name) =
        none := by
      rw [findId_node, htag, hmembers]
      simp only [Option.map_eq_none_iff, List.find?_eq_none, decide_eq_true_eq]
      rintro m hm ⟨hliteral, hmid⟩
      obtain ⟨key, hkey, hn, hi⟩ := mem_layoutMembers_key hm
      cases key with
      | literal n' =>
        have hn' : n' = [] := by
          rw [hn] at hliteral
          exact not_not.mp (not_or.mp hliteral).2
        exact hempty (hn' ▸ hkey)
      | hash i =>
        have hi' : i = fieldId name := hi.symm.trans hmid
        exact hname (hid ▸ hi' ▸ hkey)
    rw [if_pos hhash, hnone]
    rfl
  · have hid : idKey name = .literal name := if_neg hhash
    have hnone : findName (.node k ((Wire.object false ms).layout pos depth)) name = none := by
      rw [findName_node, htag, hmembers]
      simp only [Option.map_eq_none_iff, List.find?_eq_none, decide_eq_true_eq]
      rintro m hm ⟨hliteral, hmname⟩
      obtain ⟨key, hkey, hn, -⟩ := mem_layoutMembers_key hm
      cases key with
      | literal n' =>
        have hn' : n' = name := hn.symm.trans hmname
        exact hname (hid ▸ hn' ▸ hkey)
      | hash i => exact (hliteral.resolve_left (by decide)) hn
    rw [if_neg hhash, hnone]
    rfl

/-- **A name whose key is nowhere** is missing. -/
theorem objectField_missing (hlive : Live inp s) {ms : List (Key × Wire)}
    (hmade : MadeFor inp n (.object false ms)) (hempty : Key.literal [] ∉ ms.map Prod.fst)
    {name : Bytes} (hname : idKey name ∉ ms.map Prod.fst) :
    objectField inp s (.node k n) name = .error (missingField name) := by
  rw [hmade.node_eq]
  exact objectField_absent hlive hempty hname

/-- The empty name is never found. -/
theorem objectField_nil (hlive : Live inp s) (htag : n.tag = .idObject) :
    objectField inp s (.node k n) [] = .error (missingField []) := by
  have hnone : findName (.node k n) [] = none := by
    rw [findName_node, htag]
    simp
  rw [objectField_idObject hlive htag, useHashedFieldId_nil, if_neg (by decide), hnone]
  rfl

/-- **The law of lookups holds** in an accepted `IdObject` exactly where no member is under the
literal empty name. -/
theorem idObject_lookup_iff (inp : Input) (s : State) (k : ℕ) (n : Node) (hlive : Live inp s)
    (haccepted : Accepted inp n) (htag : n.tag = .idObject) :
    (∃ keys, WireKeys inp n keys) ∧
      ∀ keys, WireKeys inp n keys → (LookupLaw inp s k n keys ↔ Key.literal [] ∉ keys) := by
  refine ⟨haccepted.wireKeys htag, ?_⟩
  rintro keys ⟨ms, rfl, hmade⟩
  constructor
  · intro hlaw hempty
    exact (hlaw.missing []).mp (objectField_nil hlive htag) (idKey_nil ▸ hempty)
  · intro hempty
    have hdistinct := nodup_of_keysFit hmade.fits.2.2.1 hempty
    refine ⟨fun name v => ?_, fun name => ?_, hdistinct⟩
    · by_cases hname : idKey name ∈ ms.map Prod.fst
      · obtain ⟨i, m, hkey, hm, hfield⟩ := objectField_member (k := k) hlive hmade hempty hname
        rw [hfield]
        constructor
        · intro h
          exact ⟨i, m, hkey, hm, (Except.ok.inj h).symm⟩
        · rintro ⟨j, m', hkey', hm', rfl⟩
          -- the key stands at one place only
          obtain ⟨hi, hkey⟩ := List.getElem?_eq_some_iff.mp hkey
          obtain ⟨hj, hkey'⟩ := List.getElem?_eq_some_iff.mp hkey'
          obtain rfl : i = j := (hdistinct.getElem_inj_iff).mp (hkey.trans hkey'.symm)
          rw [Option.some.inj (hm.symm.trans hm')]
      · rw [objectField_missing hlive hmade hempty hname]
        constructor
        · intro h
          cases h
        · rintro ⟨i, m, hkey, -⟩
          exact absurd (List.mem_of_getElem? hkey) hname
    · by_cases hname : idKey name ∈ ms.map Prod.fst
      · obtain ⟨i, m, -, -, hfield⟩ := objectField_member (k := k) hlive hmade hempty hname
        rw [hfield]
        exact iff_of_false (by simp) (not_not.mpr hname)
      · exact iff_of_true (objectField_missing hlive hmade hempty hname) hname

/-- The root of an accepted document is accepted. -/
theorem Holds.accepted {w : Wire} (h : Holds inp w) :
    Accepted inp (w.layout binaryMagic.length 0) := by
  have hfuel : inp.limits.maxDepth + 2 ≤ nodeFuel inp.limits 0 + 0 := by
    unfold nodeFuel
    omega
  have hspec : ChildSpec inp (parseNode inp (nodeFuel inp.limits 0)) inp.size 0 :=
    parseNode_returns (le_refl _) _ 0 hfuel
  refine Accepted.parsed (Nat.zero_le _) (le_refl _) ((hspec binaryMagic.length _ _ inp.size
    (inp.limits.maxTotalAllocatedBytes - w.charge inp.abi) (Nat.zero_le _)
    inp.limits_lt.budget).mpr ⟨w, _, ⟨h.fits, h.stands, h.size_eq, le_refl _, rfl, rfl⟩, ?_⟩)
  exact (Nat.sub_add_cancel h.charge_le).symm

theorem Holds.live {w : Wire} (h : Holds inp w) : Live inp (opened inp w) := ⟨h.notNull, rfl⟩

theorem Holds.madeFor {w : Wire} (h : Holds inp w) :
    MadeFor inp (w.layout binaryMagic.length 0) w := madeFor_layout h.fits h.stands

/-- An `IdObject` with one field under the hash 1. -/
theorem idObject_lookup_hashZero : ∃ n keys, WireKeys (oneField 1) n keys ∧
    LookupLaw (oneField 1) (opened (oneField 1) (.object false [(.hash 0, .null)])) 0 n keys := by
  have h := oneField_holds encode_hashZero rfl
  refine ⟨_, _, ⟨_, rfl, h.madeFor⟩, ?_⟩
  exact ((idObject_lookup_iff (oneField 1) _ 0 _ h.live h.accepted rfl).2 _
    ⟨_, rfl, h.madeFor⟩).mpr (by decide)

/-- The member under the literal empty name is there, and its name is missing. -/
theorem emptyName_missing : ∃ n keys s, Accepted (oneField 0) n ∧ n.tag = .idObject ∧
    Live (oneField 0) s ∧ WireKeys (oneField 0) n keys ∧ idKey [] ∈ keys ∧
      objectField (oneField 0) s (.node 0 n) [] = .error (missingField []) := by
  have h := oneField_holds encode_emptyName ⟨Nat.zero_le _, fun _ => by decide⟩
  refine ⟨_, _, _, h.accepted, rfl, h.live, ⟨_, rfl, h.madeFor⟩, ?_, objectField_nil h.live rfl⟩
  rw [idKey_nil]
  exact List.mem_cons_self

end Reader

end NekoProto.Binary
