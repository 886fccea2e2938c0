import NekoProto.Binary.ParseBounds
import NekoProto.Binary.WriteExact
import NekoProto.Binary.Zigzag

/-!
# What the accessors return

The accessors of the Reader on the node of a tree (`Wire.layout`): a lookup finds the member of
its key (`objectField_layout`), and a scalar is read back from the bytes that stand in the buffer.
-/

namespace NekoProto.Binary

open Outcome Segment

namespace Reader

variable {inp : Input} {s t : State} {k pos depth : ℕ}

/-! ## Handles -/

/-- Handles into the document are valid in this state. -/
structure Live (inp : Input) (s : State) : Prop where
  data : inp.isNull = false
  error : s.error = none

/-- The node that begins at this offset has not been consumed. -/
def Unread (s : State) (k pos : ℕ) : Prop := (⟨k, pos⟩ : NodeId) ∉ s.consumed

theorem validateHandle_node (hlive : Live inp s) (n : Node) :
    validateHandle inp s (.node k n) = none := by
  unfold validateHandle
  rw [hlive.data, hlive.error]
  rfl

theorem validate_node (hlive : Live inp s) {n : Node} (hunread : Unread s k n.begin) :
    validate inp s (.node k n) = none := by
  unfold validate isConsumed InputValue.id
  rw [validateHandle_node hlive]
  simp only [decide_eq_true_eq]
  rw [if_neg hunread]

@[simp] theorem requireValid_returns {v : InputValue} {u : Unit} :
    Returns (requireValid inp v) s u t ↔ validate inp s v = none ∧ t = s := by
  unfold requireValid
  rw [returns_get_bind]
  cases validate inp s v with
  | none => simp
  | some e => simp

/-- The state after a node is consumed. -/
def consumed (s : State) (k pos : ℕ) : State := { s with consumed := ⟨k, pos⟩ :: s.consumed }

@[simp] theorem consume_returns {n : Node} {u : Unit} :
    Returns (consume (.node k n)) s u t ↔ t = consumed s k n.begin := by
  unfold consume
  rw [returns_get_bind]
  exact returns_set

@[simp] theorem typeError_returns {α : Type} {kind : String} {a : α} :
    ¬Returns (typeError kind) s a t := returns_fail

theorem onBudget_returns {α : Type} {x : ParseM α} {a : α} :
    Returns (onBudget x) s a t ↔
      ∃ r, Returns x s.remainingAllocation a r ∧ t = { s with remainingAllocation := r } := by
  unfold onBudget Returns
  cases h : x s.remainingAllocation with
  | ok a' r => simp [h, eq_comm]
  | error e r => simp [h]

/-! ## Scalars -/

theorem isEmpty_returns (hlive : Live inp s) {n : Node} (hunread : Unread s k n.begin) {b : Bool} :
    Returns (isEmpty inp (.node k n)) s b t ↔
      b = decide (n.tag = .null) ∧ t = if n.tag = .null then consumed s k n.begin else s := by
  unfold isEmpty
  rw [returns_get_bind]
  simp only [validate_node hlive hunread, isRaw, InputValue.tag, Option.isSome_none,
    Bool.false_eq_true, false_or, returns_ite, returns_pure, returns_bind, consume_returns,
    ne_eq, not_not]
  by_cases htag : n.tag = .null
  · simp [htag]
  · simp [htag]

theorem bitsAt_eq {n offset : ℕ} {payload : Bytes} (hat : At inp.data offset payload)
    (hend : offset + payload.length ≤ inp.size) :
    bitsAt inp n offset payload.length = pure (BitVec.ofNat n (BigEndian.ofBytes payload)) := by
  unfold bitsAt
  rw [bytesAt_eq hend, pure_bind, ← hat.eq_take]

theorem ofNat_ofBytes_toBytes {bytes : ℕ} (value : BitVec (8 * bytes)) :
    BitVec.ofNat (8 * bytes) (BigEndian.ofBytes (BigEndian.toBytes bytes value.toNat)) = value := by
  rw [BigEndian.ofBytes_toBytes_of_lt, BitVec.ofNat_toNat, BitVec.setWidth_eq]
  have := value.isLt
  rwa [Nat.pow_mul] at this

/-- A floating-point value, from its payload. -/
theorem readFloating_layout (bytes : ℕ) {tag : ValueTag} {kind : String}
    {value : BitVec (8 * bytes)} (hwidth : tag.fixedWidth = bytes)
    (hat : At inp.data pos (Wire.fixed tag (BigEndian.toBytes bytes value.toNat)).encode)
    (hend : pos + 1 + bytes ≤ inp.size) :
    Returns (readFloating inp tag kind (8 * bytes)
        (.node k ((Wire.fixed tag (BigEndian.toBytes bytes value.toNat)).layout pos depth))
        ((Wire.fixed tag (BigEndian.toBytes bytes value.toNat)).layout pos depth)) s value
      (consumed s k pos) := by
  have hpayload := (at_cons.mp hat).2
  have hbits := bitsAt_eq (n := 8 * bytes) hpayload (by rw [BigEndian.length_toBytes]; exact hend)
  rw [BigEndian.length_toBytes, ofNat_ofBytes_toBytes] at hbits
  simp only [readFloating, Wire.layout, Node.tag, Node.dataBegin, ne_eq, not_true_eq_false,
    if_false, hwidth, hbits, pure_bind, returns_bind, consume_returns, returns_pure, Node.begin]
  exact ⟨(), _, rfl, trivial, rfl⟩

theorem toBasicNode_layout {T : Arithmetic} {value : T.Value}
    (hat : At inp.data pos (BasicValue.arithmetic T value).wire.encode)
    (hend : pos + (BasicValue.arithmetic T value).wire.encode.length ≤ inp.size) :
    Returns (toBasicNode inp (.node k ((BasicValue.arithmetic T value).wire.layout pos depth))
        ((BasicValue.arithmetic T value).wire.layout pos depth) T) s value
      (consumed s k pos) := by
  match T, value with
  | .bool, value =>
    cases value
    all_goals
      simp only [toBasicNode, BasicValue.wire, Wire.layout, boolTag, Node.tag, returns_ite,
        typeError_returns, returns_bind, consume_returns, returns_pure, Node.begin]
      exact .inr ⟨by decide, (), _, rfl, by decide, rfl⟩
  | .integer signed width, value =>
    simp only [BasicValue.wire, Wire.encode, at_cons, List.length_cons] at hat hend
    set code := if signed = true then (zigzag value).toNat else value.toNat with hcode
    have hlt : code < 2 ^ width.bits := by
      rw [hcode]
      split_ifs <;> exact BitVec.isLt _
    have hdecode : (decodeInteger signed (BitVec.ofNat width.bits code) :
        ReadM (BitVec width.bits)) = pure value := by
      have hbits : 0 < width.bits := by cases width <;> decide
      cases signed with
      | true =>
        rw [hcode, if_pos rfl, BitVec.ofNat_toNat, BitVec.setWidth_eq]
        exact decodeInteger_zigzag hbits value
      | false =>
        rw [hcode, if_neg (by decide), BitVec.ofNat_toNat, BitVec.setWidth_eq]
        rfl
    have htag : integerTag signed = if signed then .signedInteger else .unsignedInteger := rfl
    simp only [toBasicNode, BasicValue.wire, Wire.layout, Node.tag, ← hcode, htag, ne_eq,
      not_true_eq_false, if_false, Node.dataBegin, Node.dataEnd, Node.begin, returns_bind,
      Prod.exists, consume_returns]
    refine ⟨code, _, s, (readUleb_returns (by cases width <;> decide) ?_).mpr
      ⟨rfl, hlt, hat.2, rfl, le_refl _⟩, (), _, rfl, ?_⟩
    · omega
    · rw [hdecode]
      exact returns_pure.mpr ⟨rfl, rfl⟩
  | .float, value =>
    exact readFloating_layout 4 rfl hat (by
      simpa [BasicValue.wire, Wire.encode, Arithmetic.bytes, Nat.add_assoc, Nat.add_comm]
        using hend)
  | .double, value =>
    exact readFloating_layout 8 rfl hat (by
      simpa [BasicValue.wire, Wire.encode, Arithmetic.bytes, Nat.add_assoc, Nat.add_comm]
        using hend)

theorem toBasicType_layout (hlive : Live inp s) (hunread : Unread s k pos) {T : Arithmetic}
    {value : T.Value} (hat : At inp.data pos (BasicValue.arithmetic T value).wire.encode)
    (hend : pos + (BasicValue.arithmetic T value).wire.encode.length ≤ inp.size) :
    Returns (toBasicType inp T (.node k ((BasicValue.arithmetic T value).wire.layout pos depth)))
      s value (consumed s k pos) := by
  unfold toBasicType
  simp only [returns_bind, requireValid_returns]
  refine ⟨(), s, ⟨validate_node hlive ?_, rfl⟩, toBasicNode_layout hat hend⟩
  rw [layout_begin]
  exact hunread

theorem toBasicString_layout (hlive : Live inp s) (hunread : Unread s k pos) {bytes : Bytes}
    (hat : At inp.data pos (Wire.string bytes).encode)
    (hend : pos + (Wire.string bytes).encode.length ≤ inp.size)
    (hcharge : bytes.length ≤ s.remainingAllocation) :
    Returns (toBasicString inp (.node k ((Wire.string bytes).layout pos depth))) s bytes
      { consumed s k pos with
        remainingAllocation := s.remainingAllocation - bytes.length } := by
  simp only [Wire.encode, at_cons, at_append, List.length_cons, List.length_append] at hat hend
  have hbytes : (bytesAt inp (pos + 1 + (Leb128.encode bytes.length).length) bytes.length :
      ReadM Bytes) = pure bytes := by
    rw [bytesAt_eq (by omega), ← hat.2.2.eq_take]
  unfold toBasicString
  simp only [returns_bind, requireValid_returns]
  refine ⟨(), s, ⟨validate_node hlive hunread, rfl⟩, ?_⟩
  simp only [Wire.layout, Node.tag, Node.dataBegin, Node.dataEnd, Node.begin, ne_eq,
    not_true_eq_false, if_false, subSize_eq (Nat.le_add_right _ _), Nat.add_sub_cancel_left,
    pure_bind, hbytes, returns_bind, onBudget_returns, charge_returns, consume_returns,
    returns_pure]
  refine ⟨(), { s with remainingAllocation := s.remainingAllocation - bytes.length },
    ⟨_, ?_, rfl⟩, (), _, rfl, trivial, rfl⟩
  omega

theorem readFixed_layout (hlive : Live inp s) (hunread : Unread s k pos) {signed : Bool}
    {width : Width} {value : BitVec width.bits}
    (hat : At inp.data pos ((Arithmetic.integer signed width).fixedWire value).encode)
    (hend : pos + ((Arithmetic.integer signed width).fixedWire value).encode.length ≤ inp.size) :
    Returns (readFixed inp (.integer signed width)
        (.node k (((Arithmetic.integer signed width).fixedWire value).layout pos depth))
        width.bytes) s value (consumed s k pos) := by
  simp only [Arithmetic.fixedWire, Arithmetic.bytes, Wire.encode, at_cons, List.length_cons]
    at hat hend
  have hbits := bitsAt_eq (n := width.bits) hat.2 (by omega)
  rw [BigEndian.length_toBytes, ofNat_ofBytes_toBytes] at hbits
  unfold readFixed
  simp only [returns_bind, requireValid_returns]
  refine ⟨(), s, ⟨validate_node hlive hunread, rfl⟩, ?_⟩
  simp only [readFixedNode, Arithmetic.fixedWire, Arithmetic.bytes, Wire.layout, Node.tag,
    Node.dataBegin, Node.begin, ne_eq, not_true_eq_false, or_self, if_false, hbits, pure_bind,
    returns_bind, consume_returns, returns_pure]
  exact ⟨(), _, rfl, trivial, rfl⟩

theorem toArray_returns (hlive : Live inp s) {n : Node} (hunread : Unread s k n.begin)
    (htag : n.tag = .array) :
    Returns (toArray inp (.node k n)) s (.node k n) s := by
  unfold toArray
  simp only [returns_bind, requireValid_returns]
  exact ⟨(), s, ⟨validate_node hlive hunread, rfl⟩, by simp [isRaw, InputValue.tag, htag]⟩

theorem toObject_returns (hlive : Live inp s) {n : Node} (hunread : Unread s k n.begin)
    (htag : n.tag = .namedObject ∨ n.tag = .idObject) :
    Returns (toObject inp (.node k n)) s (.node k n) s := by
  unfold toObject
  simp only [returns_bind, requireValid_returns]
  exact ⟨(), s, ⟨validate_node hlive hunread, rfl⟩, by simp [isFramedObject, htag]⟩

/-! ## Lookups -/

/-- A search that no earlier key satisfies finds the member after them. -/
theorem find_layoutMembers (named : Bool) (depth : ℕ) {as : List (Key × Wire)}
    (bs : List (Key × Wire)) {key : Key} (w : Wire) {p : Bytes → UInt32 → Bool}
    (hkey : p key.name key.id = true)
    (has : ∀ a ∈ as, p a.1.name a.1.id = false) (pos : ℕ) :
    ((Wire.layoutMembers named pos depth (as ++ (key, w) :: bs)).find? fun m =>
        p m.name m.id).map Member.value =
      some (w.layout (pos + (Wire.encodeMembers named as).length + (key.encode named).length)
        depth) := by
  induction as generalizing pos with
  | nil =>
    simp only [List.nil_append, Wire.layoutMembers, List.find?_cons, hkey, Option.map_some,
      Wire.encodeMembers, List.length_nil, Nat.add_zero]
  | cons a as ih =>
    obtain ⟨key', w'⟩ := a
    have hfirst : p key'.name key'.id = false := has (key', w') List.mem_cons_self
    simp only [List.cons_append, Wire.layoutMembers, List.find?_cons, hfirst,
      ih (fun a ha => has a (List.mem_cons_of_mem _ ha)), Wire.encodeMembers, List.length_append,
      Nat.add_assoc]

theorem members_node (n : Node) (p : Bytes → UInt32 → Bool) :
    ((InputValue.node k n).members.find? fun m => p m.name m.id).map Member.value =
      ((n.members.find? fun m => p m.name m.id).map Member.value).map (InputValue.node k) := by
  simp only [InputValue.members, List.find?_map, Option.map_map]
  rfl

theorem findName_node (n : Node) (name : Bytes) :
    findName (.node k n) name =
      ((n.members.find? fun m =>
        (n.tag = .namedObject ∨ m.name ≠ []) ∧ m.name = name).map Member.value).map
          (InputValue.node k) :=
  members_node n fun m _ => (n.tag = .namedObject ∨ m ≠ []) ∧ m = name

theorem findId_node (n : Node) (id : UInt32) :
    findId (.node k n) id =
      ((n.members.find? fun m =>
        ¬(n.tag = .namedObject ∨ m.name ≠ []) ∧ m.id = id).map Member.value).map
          (InputValue.node k) :=
  members_node n fun m i => ¬(n.tag = .namedObject ∨ m ≠ []) ∧ i = id

/-- Where the value of a member stands in an object. -/
def memberPos (named : Bool) (pos : ℕ) (as : List (Key × Wire)) (key : Key) (count : ℕ) : ℕ :=
  pos + 1 + (Leb128.encode count).length + (Wire.encodeMembers named as).length +
    (key.encode named).length

theorem findName_layout (named : Bool) {as bs ms : List (Key × Wire)} {key : Key} {w : Wire}
    {name : Bytes} (hms : ms = as ++ (key, w) :: bs)
    (hkey : (objectTag named = .namedObject ∨ key.name ≠ []) ∧ key.name = name)
    (has : ∀ a ∈ as, ¬((objectTag named = .namedObject ∨ a.1.name ≠ []) ∧ a.1.name = name)) :
    findName (.node k ((Wire.object named ms).layout pos depth)) name =
      some (.node k (w.layout (memberPos named pos as key ms.length) (depth + 1))) := by
  have hfind := find_layoutMembers named (depth + 1) bs w
    (p := fun n _ => decide ((objectTag named = .namedObject ∨ n ≠ []) ∧ n = name))
    (decide_eq_true hkey) (fun a ha => decide_eq_false (has a ha))
    (pos + 1 + (Leb128.encode ms.length).length)
  rw [← hms] at hfind
  rw [findName_node]
  exact congrArg (Option.map (InputValue.node k)) hfind

theorem findId_layout (named : Bool) {as bs ms : List (Key × Wire)} {key : Key} {w : Wire}
    {id : UInt32} (hms : ms = as ++ (key, w) :: bs)
    (hkey : ¬(objectTag named = .namedObject ∨ key.name ≠ []) ∧ key.id = id)
    (has : ∀ a ∈ as, ¬(¬(objectTag named = .namedObject ∨ a.1.name ≠ []) ∧ a.1.id = id)) :
    findId (.node k ((Wire.object named ms).layout pos depth)) id =
      some (.node k (w.layout (memberPos named pos as key ms.length) (depth + 1))) := by
  have hfind := find_layoutMembers named (depth + 1) bs w
    (p := fun n i => decide (¬(objectTag named = .namedObject ∨ n ≠ []) ∧ i = id))
    (decide_eq_true hkey) (fun a ha => decide_eq_false (has a ha))
    (pos + 1 + (Leb128.encode ms.length).length)
  rw [← hms] at hfind
  rw [findId_node]
  exact congrArg (Option.map (InputValue.node k)) hfind

/-- **A lookup finds its member.** In an object whose keys do not clash, the name of a member
leads to its node. -/
theorem objectField_layout (hlive : Live inp s) {named : Bool} {as bs ms : List (Key × Wire)}
    {w : Wire} {name : Bytes} (hms : ms = as ++ (memberKey named name, w) :: bs)
    (hkeys : KeysFit named (ms.map Prod.fst))
    (hnamed : named = true → ∀ a ∈ as, ∃ n, a.1 = .literal n)
    (hname : named = false → name ≠ []) :
    objectField inp s (.node k ((Wire.object named ms).layout pos depth)) name =
      .ok (.node k (w.layout (memberPos named pos as (memberKey named name) ms.length)
        (depth + 1))) := by
  have hclash : ∀ a ∈ as, ¬Key.Clashes named a.1 (memberKey named name) := by
    intro a ha
    rw [hms, List.map_append, List.map_cons] at hkeys
    exact (List.pairwise_append.mp hkeys).2.2 a.1 (List.mem_map_of_mem ha) _ List.mem_cons_self
  unfold objectField
  rw [validateHandle_node hlive]
  cases named with
  | true =>
    refine congrArg (fieldOr name) (findName_layout true hms ⟨.inl rfl, rfl⟩ fun a ha h => ?_)
    obtain ⟨n, hn⟩ := hnamed rfl a ha
    refine hclash a ha ?_
    rw [hn] at h ⊢
    exact ⟨h.2, .inl rfl⟩
  | false =>
    by_cases hhash : useHashedFieldId name = true
    · have hkey : memberKey false name = .hash (fieldId name) := if_pos hhash
      rw [hkey] at hms hclash ⊢
      have hfirst : ∀ a ∈ as, ¬(¬(objectTag false = .namedObject ∨ a.1.name ≠ []) ∧
          a.1.id = fieldId name) := by
        rintro a ha ⟨hempty, hid⟩
        refine hclash a ha ?_
        have hempty := not_not.mp (not_or.mp hempty).2
        cases ha' : a.1 with
        | literal n =>
          rw [ha'] at hempty hid
          exact ⟨hempty, hid.symm⟩
        | hash i =>
          rw [ha'] at hid
          exact hid
      simp only [InputValue.tag, layout_tag, Wire.tag, objectTag, Bool.false_eq_true, if_false,
        reduceCtorEq, if_pos hhash, if_true]
      exact congrArg (fieldOr name)
        (findId_layout false hms ⟨by simp [objectTag, Key.name], rfl⟩ hfirst)
    · have hkey : memberKey false name = .literal name := if_neg hhash
      rw [hkey] at hms hclash ⊢
      have hfirst : ∀ a ∈ as, ¬((objectTag false = .namedObject ∨ a.1.name ≠ []) ∧
          a.1.name = name) := by
        rintro a ha ⟨-, hn⟩
        refine hclash a ha ?_
        cases ha' : a.1 with
        | literal n =>
          rw [ha'] at hn
          exact ⟨hn, .inr (by rw [show n = name from hn]; exact hname rfl)⟩
        | hash i =>
          rw [ha'] at hn
          exact absurd hn.symm (hname rfl)
      simp only [InputValue.tag, layout_tag, Wire.tag, objectTag, Bool.false_eq_true, if_false,
        reduceCtorEq, if_neg hhash, if_true]
      exact congrArg (fieldOr name) (findName_layout false hms ⟨.inr (hname rfl), rfl⟩ hfirst)

end Reader

end NekoProto.Binary
