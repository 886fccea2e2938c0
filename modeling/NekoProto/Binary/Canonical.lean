import NekoProto.Binary.RoundTrip

/-!
# Encoding an accepted document again

The tree that the nodes of an accepted document stand for (`Node.denoted`), and its encoding by
the rules of the Writer (`Reader.reencode`). The result is the accepted document exactly when no
field of an `IdObject` is the literal empty name, because the Reader keeps such a field as the
hash 0 (`reencode_iff`).
-/

namespace NekoProto.Binary

open Outcome Segment

/-! ## The tree of a node -/

/-- The key of a member, by the index that holds it. -/
def memberKeyOf (tag : ValueTag) (name : Bytes) (id : UInt32) : Key :=
  if tag = .namedObject ∨ name ≠ [] then .literal name else .hash id

/-- A value from its tag, its payload and its children. -/
def Wire.ofParts (tag : ValueTag) (payload : Bytes) (elements : List Wire)
    (members : List (Key × Wire)) : Wire :=
  match tag with
  | .null => .null
  | .false => .bool false
  | .true => .bool true
  | .signedInteger => .integer true (Leb128.value payload)
  | .unsignedInteger => .integer false (Leb128.value payload)
  | .string => .string payload
  | .array => .array elements
  | .namedObject => .object true members
  | .idObject => .object false members
  | tag => .fixed tag payload

namespace Node

mutual

/-- The value a node stands for in its buffer. -/
def denoted (data : Bytes) : Node → Wire
  | mk tag _ dataBegin dataEnd _ _ elements members =>
    .ofParts tag ((data.drop dataBegin).take (dataEnd - dataBegin)) (denotedList data elements)
      (denotedMembers data tag members)

/-- The values of elements. -/
def denotedList (data : Bytes) : List Node → List Wire
  | [] => []
  | n :: ns => denoted data n :: denotedList data ns

/-- The keys and the values of members. -/
def denotedMembers (data : Bytes) (tag : ValueTag) : List (Member Node) → List (Key × Wire)
  | [] => []
  | ⟨name, id, n⟩ :: ms => (memberKeyOf tag name id, denoted data n) :: denotedMembers data tag ms

end

end Node

/-- The document that the Writer's rules give for a parsed one. -/
def Reader.reencode (inp : Input) (n : Node) : Bytes := binaryMagic ++ (n.denoted inp.data).encode

/-! ## The stored tree -/

/-- The key as the Reader stores it: the empty name of an `IdObject` becomes the hash 0. -/
def Key.stored (named : Bool) (key : Key) : Key := memberKeyOf (objectTag named) key.name key.id

namespace Wire

mutual

/-- The tree with the keys as the Reader stores them. -/
def stored : Wire → Wire
  | array elements => .array (storedList elements)
  | object named members => .object named (storedMembers named members)
  | w => w

/-- The elements with stored keys. -/
def storedList : List Wire → List Wire
  | [] => []
  | w :: ws => stored w :: storedList ws

/-- The members with stored keys. -/
def storedMembers (named : Bool) : List (Key × Wire) → List (Key × Wire)
  | [] => []
  | (key, w) :: ms => (key.stored named, stored w) :: storedMembers named ms

end

mutual

/-- No field of an `IdObject` is the literal empty name. -/
def NoEmptyKey : Wire → Prop
  | array elements => NoEmptyKeyList elements
  | object named members => NoEmptyKeyMembers named members
  | _ => True

/-- No element has such a field. -/
def NoEmptyKeyList : List Wire → Prop
  | [] => True
  | w :: ws => NoEmptyKey w ∧ NoEmptyKeyList ws

/-- No member is such a field or has one. -/
def NoEmptyKeyMembers (named : Bool) : List (Key × Wire) → Prop
  | [] => True
  | (key, w) :: ms =>
    (named = false → key ≠ .literal []) ∧ NoEmptyKey w ∧ NoEmptyKeyMembers named ms

end

theorem length_storedList (ws : List Wire) : (storedList ws).length = ws.length := by
  induction ws with
  | nil => rfl
  | cons w ws ih => simp only [storedList, List.length_cons, ih]

theorem length_storedMembers (named : Bool) (ms : List (Key × Wire)) :
    (storedMembers named ms).length = ms.length := by
  induction ms with
  | nil => rfl
  | cons m ms ih => simp only [storedMembers, List.length_cons, ih]

end Wire

namespace Key

variable {limits : ParseLimits} {named : Bool} {key : Key}

/-- Storing a key changes its encoding exactly for the empty name, from the byte 0 to 1. -/
theorem encode_stored (h : key.Fits limits named) :
    ((key.stored named).encode named).length = (key.encode named).length ∧
      ((key.stored named).encode named = key.encode named ↔
        (named = false → key ≠ .literal [])) := by
  cases key with
  | literal n =>
    by_cases hn : named = true ∨ n ≠ []
    · have hstored : (literal n).stored named = literal n := by
        cases named
        · exact if_pos (Or.inr (hn.resolve_left (by decide)))
        · rfl
      rw [hstored]
      refine ⟨rfl, iff_of_true rfl ?_⟩
      rintro rfl heq
      exact hn.resolve_left (by decide) (literal.inj heq)
    · obtain ⟨hnamed, hempty⟩ := not_or.mp hn
      obtain rfl := not_not.mp hempty
      obtain rfl := Bool.eq_false_of_not_eq_true hnamed
      have hliteral : (literal []).encode false = [0] := by
        simp [encode, Leb128.encode_of_lt]
      have hhash : ((literal []).stored false).encode false = [1] := by
        simp [stored, memberKeyOf, objectTag, name, id, encode, Leb128.encode_of_lt]
      rw [hliteral, hhash]
      exact ⟨rfl, iff_of_false (by decide) (by simp)⟩
  | hash i =>
    obtain rfl : named = false := h
    exact ⟨rfl, iff_of_true rfl (fun _ => by simp)⟩

end Key

namespace Wire

variable {limits : ParseLimits}

theorem append_eq_iff {as as' bs bs' : Bytes} (h : as'.length = as.length) :
    as' ++ bs' = as ++ bs ↔ as' = as ∧ bs' = bs :=
  ⟨fun heq => List.append_inj heq h, fun ⟨h₁, h₂⟩ => h₁ ▸ h₂ ▸ rfl⟩

mutual

/-- The stored tree has the same encoding exactly when there is no empty name. -/
theorem encode_stored : (w : Wire) → {depth : ℕ} → w.Fits limits depth →
    w.stored.encode.length = w.encode.length ∧ (w.stored.encode = w.encode ↔ w.NoEmptyKey)
  | null, _, _ => ⟨rfl, iff_of_true rfl trivial⟩
  | bool _, _, _ => ⟨rfl, iff_of_true rfl trivial⟩
  | integer _ _, _, _ => ⟨rfl, iff_of_true rfl trivial⟩
  | fixed _ _, _, _ => ⟨rfl, iff_of_true rfl trivial⟩
  | string _, _, _ => ⟨rfl, iff_of_true rfl trivial⟩
  | array ws, _, ⟨_, _, h⟩ => by
    obtain ⟨hlen, hiff⟩ := encodeList_stored ws h
    simp only [stored, encode, NoEmptyKey, length_storedList, List.length_cons,
      List.length_append, hlen, List.cons.injEq, true_and, List.append_cancel_left_eq, hiff]
  | object named ms, _, ⟨_, _, _, h⟩ => by
    obtain ⟨hlen, hiff⟩ := encodeMembers_stored named ms h
    simp only [stored, encode, NoEmptyKey, length_storedMembers, List.length_cons,
      List.length_append, hlen, List.cons.injEq, true_and, List.append_cancel_left_eq, hiff]

theorem encodeList_stored : (ws : List Wire) → {depth : ℕ} → FitsList limits depth ws →
    (encodeList (storedList ws)).length = (encodeList ws).length ∧
      (encodeList (storedList ws) = encodeList ws ↔ NoEmptyKeyList ws)
  | [], _, _ => ⟨rfl, iff_of_true rfl trivial⟩
  | w :: ws, _, ⟨hw, hws⟩ => by
    obtain ⟨hlen, hiff⟩ := encode_stored w hw
    obtain ⟨hlen', hiff'⟩ := encodeList_stored ws hws
    simp only [storedList, encodeList, NoEmptyKeyList, List.length_append, hlen, hlen',
      append_eq_iff hlen, hiff, hiff', true_and]

theorem encodeMembers_stored (named : Bool) : (ms : List (Key × Wire)) → {depth : ℕ} →
    FitsMembers limits named depth ms →
    (encodeMembers named (storedMembers named ms)).length = (encodeMembers named ms).length ∧
      (encodeMembers named (storedMembers named ms) = encodeMembers named ms ↔
        NoEmptyKeyMembers named ms)
  | [], _, _ => ⟨rfl, iff_of_true rfl trivial⟩
  | (key, w) :: ms, _, ⟨hkey, hw, hms⟩ => by
    obtain ⟨hlen, hiff⟩ := Key.encode_stored hkey
    obtain ⟨hlen', hiff'⟩ := encode_stored w hw
    obtain ⟨hlen'', hiff''⟩ := encodeMembers_stored named ms hms
    simp only [storedMembers, encodeMembers, NoEmptyKeyMembers, List.length_append, hlen, hlen',
      hlen'', append_eq_iff hlen, append_eq_iff hlen', hiff, hiff', hiff'', true_and]

end

/-! ## The denoted tree is the stored one -/

variable {data : Bytes}

theorem ofParts_fixed {tag : ValueTag} (h : tag.fixedWidth ≠ 0) (payload : Bytes)
    (elements : List Wire) (members : List (Key × Wire)) :
    ofParts tag payload elements members = .fixed tag payload := by
  cases tag <;> first | rfl | exact absurd rfl h

mutual

/-- The node of a tree that stands in the buffer denotes the stored tree. -/
theorem denoted_layout : (w : Wire) → (pos depth : ℕ) → w.Fits limits depth →
    At data pos w.encode → (w.layout pos depth).denoted data = w.stored
  | null, _, _, _, _ => rfl
  | bool value, _, _, _, _ => by cases value <;> rfl
  | integer signed value, pos, _, _, hat => by
    have hdigits := (at_cons.mp hat).2.eq_take
    have hvalue := Leb128.value_encode value
    cases signed <;>
      simp only [layout, Node.denoted, Nat.add_sub_cancel_left, ← hdigits, ofParts, integerTag,
        hvalue, stored, if_true, Bool.false_eq_true, if_false]
  | fixed tag payload, pos, _, ⟨_, hwidth, _⟩, hat => by
    simp only [layout, Node.denoted, Nat.add_sub_cancel_left, ← (at_cons.mp hat).2.eq_take,
      ofParts_fixed hwidth, stored]
  | string bytes, pos, _, _, hat => by
    have hbytes := (at_append.mp (at_cons.mp hat).2).2.eq_take
    simp only [layout, Node.denoted, Nat.add_sub_cancel_left, ← hbytes, ofParts, stored]
  | array ws, pos, _, ⟨_, _, h⟩, hat => by
    have hcontent := (at_append.mp (at_cons.mp hat).2).2
    simp only [layout, Node.denoted, denotedList_layout ws _ _ h hcontent, ofParts, stored]
  | object named ms, pos, _, ⟨_, _, _, h⟩, hat => by
    have hcontent := (at_append.mp (at_cons.mp hat).2).2
    simp only [layout, Node.denoted, denotedMembers_layout named ms _ _ h hcontent, stored]
    cases named <;> rfl

theorem denotedList_layout : (ws : List Wire) → (pos depth : ℕ) → FitsList limits depth ws →
    At data pos (encodeList ws) →
    Node.denotedList data (layoutList pos depth ws) = storedList ws
  | [], _, _, _, _ => rfl
  | w :: ws, pos, depth, ⟨hw, hws⟩, hat => by
    obtain ⟨hat₁, hat₂⟩ := at_append.mp hat
    simp only [layoutList, Node.denotedList, denoted_layout w pos depth hw hat₁,
      denotedList_layout ws _ depth hws hat₂, storedList]

theorem denotedMembers_layout (named : Bool) : (ms : List (Key × Wire)) → (pos depth : ℕ) →
    FitsMembers limits named depth ms → At data pos (encodeMembers named ms) →
    Node.denotedMembers data (objectTag named) (layoutMembers named pos depth ms) =
      storedMembers named ms
  | [], _, _, _, _ => rfl
  | (key, w) :: ms, pos, depth, ⟨_, hw, hms⟩, hat => by
    obtain ⟨-, hat⟩ := at_append.mp hat
    obtain ⟨hat₁, hat₂⟩ := at_append.mp hat
    simp only [layoutMembers, Node.denotedMembers, denoted_layout w _ depth hw hat₁,
      denotedMembers_layout named ms _ depth hms hat₂, storedMembers, Key.stored]

end

end Wire

/-! ## Accepted documents -/

namespace Reader

variable {inp : Input}

/-- The Reader accepts the document in full, with this root. -/
def Accepts (inp : Input) (n : Node) : Prop :=
  ∃ s, Returns (root inp) (init inp) (.node 0 n) s ∧ finish inp s = .ok ()

theorem accepts_iff {n : Node} :
    Accepts inp n ↔ ∃ w, Holds inp w ∧ n = w.layout binaryMagic.length 0 := by
  unfold Accepts
  simp only [root_node_iff]
  constructor
  · rintro ⟨s, w, hw, -, hn, -⟩
    exact ⟨w, hw, hn⟩
  · rintro ⟨w, hw, hn⟩
    exact ⟨_, w, hw, trivial, hn, rfl⟩

/-- No field of an `IdObject` of the document is the literal empty name. -/
def NoEmptyKey (inp : Input) : Prop := ∃ w, Holds inp w ∧ w.NoEmptyKey

theorem Holds.reencode {w : Wire} (h : Holds inp w) :
    reencode inp (w.layout binaryMagic.length 0) = binaryMagic ++ w.stored.encode := by
  rw [Reader.reencode, Wire.denoted_layout w _ 0 h.fits h.stands]

theorem Holds.encode_eq_iff {w : Wire} (h : Holds inp w) :
    Reader.reencode inp (w.layout binaryMagic.length 0) = inp.data ↔ w.NoEmptyKey := by
  rw [h.reencode, h.data_eq, List.append_cancel_left_eq]
  exact (Wire.encode_stored w h.fits).2

theorem Accepts.unique {n n' : Node} (h : Accepts inp n) (h' : Accepts inp n') : n' = n := by
  obtain ⟨s, hs, -⟩ := h
  obtain ⟨s', hs', -⟩ := h'
  exact (InputValue.node.inj (Returns.unique hs hs').1).2

/-- **Encoding an accepted document again** gives the same bytes exactly when it has no empty
name as a literal key. So two such documents with the same tree are the same, and every varint
read is the minimal one. -/
theorem reencode_iff (inp : Input) (n : Node) (haccepts : Accepts inp n) :
    (reencode inp n = inp.data ↔ NoEmptyKey inp) ∧
    (∀ inp' n', Accepts inp' n' → NoEmptyKey inp → NoEmptyKey inp' →
      n.denoted inp.data = n'.denoted inp'.data → inp.data = inp'.data) ∧
    (∀ cursor value next (s t : ℕ), Returns (readUleb inp 64 cursor inp.size) s (value, next) t →
      (inp.data.drop cursor).take (next - cursor) = Leb128.encode value) := by
  have hiff {inp : Input} {n : Node} (h : Accepts inp n) :
      Reader.reencode inp n = inp.data ↔ NoEmptyKey inp := by
    constructor
    · obtain ⟨w, hw, rfl⟩ := accepts_iff.mp h
      exact fun heq => ⟨w, hw, hw.encode_eq_iff.mp heq⟩
    · rintro ⟨w, hw, hkey⟩
      obtain rfl := h.unique (accepts_iff.mpr ⟨w, hw, rfl⟩)
      exact hw.encode_eq_iff.mpr hkey
  refine ⟨hiff haccepts, fun inp' n' haccepts' hkey hkey' hdenoted => ?_, ?_⟩
  · rw [← (hiff haccepts).mpr hkey, ← (hiff haccepts').mpr hkey', Reader.reencode, hdenoted]
    rfl
  · intro cursor value next s t hread
    obtain ⟨-, -, hat, rfl, -⟩ := (readUleb_returns (by decide) (le_refl _)).mp hread
    rw [Nat.add_sub_cancel_left, ← hat.eq_take]

/-- A document with one field, whose value is null. -/
def oneField (key : UInt8) : Input where
  data := [0x4E, 0x50, 0x02, 0x0A, 0x01, key, 0x00]
  size_lt := show (7 : ℕ) < 2 ^ 64 by decide
  limits_lt := ParseLimits.sized_default

theorem oneField_holds {byte : UInt8} {key : Key} (hkey : key.encode false = [byte])
    (hfits : key.Fits {} false) : Holds (oneField byte) (.object false [(key, .null)]) where
  notNull := rfl
  size_le := show (7 : ℕ) ≤ 16 * 1024 * 1024 by decide
  data_eq := by
    simp only [Wire.encode, Wire.encodeMembers, hkey, List.length_singleton,
      Leb128.encode_of_lt (show 1 < 128 by decide)]
    rfl
  fits := ⟨Nat.zero_le _, show 1 ≤ 64 * 1024 by decide, List.pairwise_singleton _ _, hfits,
    show 1 ≤ 64 by decide, trivial⟩
  charge_le := show 264 + (1 * 48 + (264 + 0)) ≤ 32 * 1024 * 1024 by decide

theorem encode_emptyName : (Key.literal []).encode false = [0] := by
  simp [Key.encode, Leb128.encode_of_lt]

theorem encode_hashZero : (Key.hash 0).encode false = [1] := by
  simp [Key.encode, Leb128.encode_of_lt]

/-- The empty name and the hash 0 give two documents with one tree. -/
theorem reencode_fails :
    ∃ n, Accepts (oneField 0) n ∧ Accepts (oneField 1) n ∧
      n.denoted (oneField 0).data = n.denoted (oneField 1).data ∧
      reencode (oneField 0) n ≠ (oneField 0).data ∧ (oneField 0).data ≠ (oneField 1).data := by
  have hliteral := oneField_holds encode_emptyName ⟨Nat.zero_le _, fun _ => by decide⟩
  have hhash := oneField_holds encode_hashZero rfl
  have hlayout : (Wire.object false [(.literal [], .null)]).layout binaryMagic.length 0 =
      (Wire.object false [(.hash 0, .null)]).layout binaryMagic.length 0 := by
    simp only [Wire.layout, Wire.layoutMembers, encode_emptyName, encode_hashZero,
      Wire.encodeMembers]
    rfl
  refine ⟨_, accepts_iff.mpr ⟨_, hliteral, rfl⟩, accepts_iff.mpr ⟨_, hhash, hlayout⟩, ?_, ?_,
    by decide⟩
  · rw [Wire.denoted_layout _ _ 0 hliteral.fits hliteral.stands, hlayout,
      Wire.denoted_layout _ _ 0 hhash.fits hhash.stands]
    rfl
  · rw [ne_eq, hliteral.encode_eq_iff]
    rintro ⟨h, -⟩
    exact h rfl rfl

/-- The document with the hash 0 is encoded again unchanged. -/
theorem reencode_hashZero : ∃ n, reencode (oneField 1) n = (oneField 1).data := by
  have h := oneField_holds encode_hashZero rfl
  exact ⟨_, (reencode_iff (oneField 1) _ (accepts_iff.mpr ⟨_, h, rfl⟩)).1.mpr
    ⟨_, h, fun _ => by decide, trivial, trivial⟩⟩

end Reader

end NekoProto.Binary
