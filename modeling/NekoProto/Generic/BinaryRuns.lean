import NekoProto.Binary.Handles
import NekoProto.Generic.BinaryReader
import NekoProto.Generic.Coupling

/-!
# Two runs of the Binary Reader

Of two runs of the Binary Reader that read the same handle, the second one has made some more
parses before, whose nodes nobody asks for any more. The parses of the runs are numbered apart from
then on (`Shift`), and otherwise the runs go the same way (`shiftCoupling`).

1. A handle and its nodes under another number, and the relation of the states (`Shifted`).
2. The operations of the Reader, one by one. They have no fault, since the nodes are those of a tree
   that was accepted (`Parsed`).
-/

namespace NekoProto.Binary.Reader

open Outcome TwoRuns Segment

/-! ## Shifted parses -/

/-- The number of parses both runs begin with, and how many more the second run has made. -/
structure Shift where
  base : ℕ
  gap : ℕ

namespace Shift

variable (σ : Shift)

/-- The number of a parse in the second run. -/
def parse (k : ℕ) : ℕ := if k < σ.base then k else k + σ.gap

/-- The node in the second run. -/
def id (id : NodeId) : NodeId := ⟨σ.parse id.parse, id.begin⟩

/-- The handle in the second run. -/
def handle : InputValue → InputValue
  | .node k n => .node (σ.parse k) n
  | .raw k e => .raw (σ.parse k) e
  | .error e => .error e

variable {σ} {v : InputValue}

theorem parse_of_lt {k : ℕ} (h : k < σ.base) : σ.parse k = k := if_pos h

theorem parse_of_le {k : ℕ} (h : σ.base ≤ k) : σ.parse k = k + σ.gap := if_neg (Nat.not_lt.mpr h)

theorem parse_injective : Function.Injective σ.parse := by
  intro k l h
  unfold parse at h
  split_ifs at h <;> omega

theorem id_injective : Function.Injective σ.id := by
  intro i j h
  obtain ⟨k, b⟩ := i
  obtain ⟨l, c⟩ := j
  have hparse : σ.parse k = σ.parse l := congrArg NodeId.parse h
  have hbegin : b = c := congrArg NodeId.begin h
  rw [parse_injective hparse, hbegin]

theorem id_handle : (σ.handle v).id = v.id.map σ.id := by
  cases v <;> rfl

theorem tag_handle : (σ.handle v).tag = v.tag := by
  cases v <;> rfl

theorem isRaw_handle : isRaw (σ.handle v) = isRaw v := by
  cases v <;> rfl

theorem isFramedObject_handle : isFramedObject (σ.handle v) = isFramedObject v := by
  cases v <;> rfl

theorem elements_handle : (σ.handle v).elements = v.elements.map σ.handle := by
  cases v with
  | node k n =>
    show n.elements.map _ = (n.elements.map _).map σ.handle
    rw [List.map_map]
    rfl
  | raw k e => rfl
  | error e => rfl

theorem members_handle :
    (σ.handle v).members = v.members.map fun m => { m with value := σ.handle m.value } := by
  cases v with
  | node k n =>
    show n.members.map _ = (n.members.map _).map _
    rw [List.map_map]
    rfl
  | raw k e => rfl
  | error e => rfl

theorem nodes_handle : nodes (σ.handle v) = (nodes v).map σ.id := by
  cases v with
  | node k n =>
    show n.all.map _ = (n.all.map _).map σ.id
    rw [List.map_map]
    rfl
  | raw k e => rfl
  | error e => rfl

/-- A handle of the parses both runs begin with is the same in both. -/
theorem handle_of_lt (h : ∀ i ∈ nodes v, i.parse < σ.base) : σ.handle v = v := by
  cases v with
  | node k n =>
    have hk : k < σ.base := h ⟨k, n.begin⟩ (List.mem_map_of_mem self_mem_all)
    exact congrArg (InputValue.node · n) (parse_of_lt hk)
  | raw k e =>
    have hk : k < σ.base := h ⟨k, 0⟩ List.mem_cons_self
    exact congrArg (InputValue.raw · e) (parse_of_lt hk)
  | error e => rfl

end Shift

/-! ## Handles -/

variable {inp : Input} {v w c : InputValue}

/-- The node of a framed handle is one of a tree that the parser accepts. -/
def Sound (inp : Input) : InputValue → Prop
  | .node _ n => Parsed inp n
  | _ => True

/-- A handle below another one. -/
structure Below (inp : Input) (c v : InputValue) : Prop where
  sound : Sound inp v → Sound inp c
  nodes : ∀ i ∈ nodes c, i ∈ nodes v

theorem below_child {k : ℕ} {n m : Node} (h : m ∈ n.children) :
    Below inp (.node k m) (.node k n) := by
  refine ⟨fun hn => hn.child h, ?_⟩
  intro i hi
  obtain ⟨m', hm', rfl⟩ := List.mem_map.mp hi
  exact List.mem_map_of_mem (all_subset h m' hm')

theorem below_element (h : c ∈ v.elements) : Below inp c v := by
  cases v with
  | node k n =>
    obtain ⟨m, hm, rfl⟩ := List.mem_map.mp h
    exact below_child (List.mem_append_left _ hm)
  | raw k e => cases h
  | error e => cases h

theorem below_member {m : Member InputValue} (h : m ∈ v.members) : Below inp m.value v := by
  cases v with
  | node k n =>
    obtain ⟨m', hm', rfl⟩ := List.mem_map.mp h
    exact below_child (List.mem_append_right _ (List.mem_map_of_mem hm'))
  | raw k e => cases h
  | error e => cases h

theorem id_mem_nodes {i : NodeId} (h : v.id = some i) : i ∈ nodes v := by
  cases v with
  | node k n =>
    cases h
    exact List.mem_map_of_mem self_mem_all
  | raw k e =>
    cases h
    exact List.mem_cons_self
  | error e => cases h

/-! ## States -/

/-- Two states of runs that go on from a read of `held` in the state `start`. The second run has
made `gap` parses more. -/
structure Shifted (inp : Input) (start : State) (held : InputValue) (gap : ℕ) (s t : State) :
    Prop where
  offset : t.offset = s.offset
  budget : t.remainingAllocation = s.remainingAllocation
  framed : t.framed = s.framed
  error : t.error = s.error
  parses : t.parses = s.parses + gap
  consumed : ∀ i, Shift.id ⟨start.parses, gap⟩ i ∈ t.consumed ↔ i ∈ s.consumed
  begun : start.parses ≤ s.parses
  fresh : ∀ i ∈ s.consumed, i.parse < s.parses
  budget_lt : s.remainingAllocation < 2 ^ 64
  offset_le : s.offset ≤ inp.size
  framed_eq : s.framed = start.framed
  error_eq : s.error = start.error
  kept : ∀ i, i.parse < start.parses → i ∉ nodes held → (i ∈ s.consumed ↔ i ∈ start.consumed)

/-- A handle in both runs: one below `held`, or one of a parse that was made since. -/
structure ShiftedHandle (inp : Input) (start : State) (held : InputValue) (gap n : ℕ)
    (v w : InputValue) : Prop where
  shifted : w = Shift.handle ⟨start.parses, gap⟩ v
  sound : Sound inp v
  nodes : ∀ i ∈ nodes v, i.parse < n ∧ (i ∈ Reader.nodes held ∨ start.parses ≤ i.parse)

section

variable {start s t : State} {held : InputValue} {gap n : ℕ}

namespace ShiftedHandle

theorem mono {m : ℕ} (h : n ≤ m) (hv : ShiftedHandle inp start held gap n v w) :
    ShiftedHandle inp start held gap m v w :=
  ⟨hv.shifted, hv.sound, fun i hi => ⟨(hv.nodes i hi).1.trans_le h, (hv.nodes i hi).2⟩⟩

theorem below (hv : ShiftedHandle inp start held gap n v w) (hc : Below inp c v) :
    ShiftedHandle inp start held gap n c (Shift.handle ⟨start.parses, gap⟩ c) :=
  ⟨rfl, hc.sound hv.sound, fun i hi => hv.nodes i (hc.nodes i hi)⟩

theorem error {e : Error} : ShiftedHandle inp start held gap n (.error e) (.error e) :=
  ⟨rfl, trivial, nofun⟩

end ShiftedHandle

namespace Shifted

/-- A node is consumed in both runs. -/
theorem consume (h : Shifted inp start held gap s t) {i : NodeId} (hi : i.parse < s.parses)
    (hheld : i ∈ nodes held ∨ start.parses ≤ i.parse) :
    Shifted inp start held gap { s with consumed := i :: s.consumed }
      { t with consumed := Shift.id ⟨start.parses, gap⟩ i :: t.consumed } where
  offset := h.offset
  budget := h.budget
  framed := h.framed
  error := h.error
  parses := h.parses
  consumed := fun j => by
    rw [List.mem_cons, List.mem_cons, h.consumed, Shift.id_injective.eq_iff]
  begun := h.begun
  fresh := fun j hj => by
    obtain rfl | hj := List.mem_cons.mp hj
    · exact hi
    · exact h.fresh j hj
  budget_lt := h.budget_lt
  offset_le := h.offset_le
  framed_eq := h.framed_eq
  error_eq := h.error_eq
  kept := fun j hj hjheld => by
    rw [List.mem_cons, ← h.kept j hj hjheld, or_iff_right]
    rintro rfl
    obtain hi | hi := hheld
    · exact hjheld hi
    · omega

theorem setOffset (h : Shifted inp start held gap s t) {offset : ℕ} (hoffset : offset ≤ inp.size) :
    Shifted inp start held gap { s with offset := offset } { t with offset := offset } :=
  { h with offset := rfl, offset_le := hoffset }

theorem setBudget (h : Shifted inp start held gap s t) {budget : ℕ} (hbudget : budget < 2 ^ 64) :
    Shifted inp start held gap { s with remainingAllocation := budget }
      { t with remainingAllocation := budget } :=
  { h with budget := rfl, budget_lt := hbudget }

theorem nextParse (h : Shifted inp start held gap s t) :
    Shifted inp start held gap { s with parses := s.parses + 1 }
      { t with parses := t.parses + 1 } :=
  { h with
    parses := by
      show t.parses + 1 = s.parses + 1 + gap
      rw [h.parses]
      omega
    begun := h.begun.trans (Nat.le_succ _)
    fresh := fun i hi => (h.fresh i hi).trans (Nat.lt_succ_self _) }

/-- The number of the next parse. -/
theorem parse_parses (h : Shifted inp start held gap s t) :
    Shift.parse ⟨start.parses, gap⟩ s.parses = t.parses := by
  rw [Shift.parse_of_le h.begun, h.parses]

theorem validateHandle (h : Shifted inp start held gap s t)
    (hv : ShiftedHandle inp start held gap n v w) :
    validateHandle inp t w = validateHandle inp s v := by
  rw [hv.shifted]
  unfold Reader.validateHandle
  rw [h.error]
  cases v <;> rfl

theorem isConsumed (h : Shifted inp start held gap s t)
    (hv : ShiftedHandle inp start held gap n v w) : isConsumed t w = isConsumed s v := by
  rw [hv.shifted]
  unfold Reader.isConsumed
  rw [Shift.id_handle]
  cases v.id with
  | none => rfl
  | some i => exact decide_eq_decide.mpr (h.consumed i)

theorem validate (h : Shifted inp start held gap s t)
    (hv : ShiftedHandle inp start held gap n v w) : validate inp t w = validate inp s v := by
  unfold Reader.validate
  rw [h.validateHandle hv, h.isConsumed hv]

end Shifted

/-! ## Operations -/

/-- Two runs of an operation of the Reader, which has no fault. -/
abbrev Together {α β : Type} (inp : Input) (start : State) (held : InputValue) (gap : ℕ)
    (A : ℕ → α → β → Prop) (n : ℕ) (x : ReadM α) (y : ReadM β) : Prop :=
  Lockstep (Shifted inp start held gap) State.parses IsError A n x y

theorem fail_together {α : Type} {A : ℕ → α → α → Prop} {code : ErrorCode} {msg : String} :
    Together inp start held gap A n (fail code msg) (fail code msg) := .throw trivial

theorem requireValid_together (hv : ShiftedHandle inp start held gap n v w) :
    Together inp start held gap (fun _ => Eq) n (requireValid inp v) (requireValid inp w) := by
  refine .get_bind fun s t hst _ => ?_
  rw [hst.validate hv]
  cases validate inp s v with
  | none => exact .same
  | some e => exact .throw trivial

theorem consume_together (hv : ShiftedHandle inp start held gap n v w) :
    Together inp start held gap (fun _ => Eq) n (consume v) (consume w) := by
  refine .get_bind_agree fun s t hst hn => ?_
  rw [hv.shifted, Shift.id_handle]
  cases hid : v.id with
  | none => exact .ok le_rfl rfl hst
  | some i =>
    obtain ⟨hlt, hheld⟩ := hv.nodes i (id_mem_nodes hid)
    exact .ok le_rfl rfl (hst.consume (hlt.trans_le hn) hheld)

theorem consumeRaw_together (hv : ShiftedHandle inp start held gap n v w) {stop : ℕ}
    (hstop : stop ≤ inp.size) :
    Together inp start held gap (fun _ => Eq) n (consumeRaw v stop) (consumeRaw w stop) := by
  refine (consume_together hv).bind_same fun m _ hm => ?_
  refine .get_bind_agree fun s t hst _ => ?_
  exact .ok le_rfl rfl (hst.setOffset hstop)

theorem charge_together {size : ℕ} :
    Together inp start held gap (fun _ => Eq) n (onBudget (charge size))
      (onBudget (charge size)) := by
  intro s t hst hn
  have hcharge : ∀ u : State, onBudget (charge size) u =
      if u.remainingAllocation < size then
        .error (.error ⟨.invalidLength, "Binary parse allocation budget exceeded"⟩) u
      else .ok () { u with remainingAllocation := u.remainingAllocation - size } := by
    intro u
    unfold onBudget charge
    rw [get_bind_apply]
    by_cases hlt : u.remainingAllocation < size
    · rw [if_pos hlt, if_pos hlt]
      rfl
    · rw [if_neg hlt, if_neg hlt, subSize_eq (Nat.not_lt.mp hlt)]
      rfl
  rw [hcharge, hcharge, hst.budget]
  by_cases hlt : s.remainingAllocation < size
  · rw [if_pos hlt, if_pos hlt]
    exact .error le_rfl trivial hst
  · rw [if_neg hlt, if_neg hlt]
    exact .ok le_rfl rfl (hst.setBudget ((Nat.sub_le _ _).trans_lt hst.budget_lt))

/-- A varint is read up to a limit inside the buffer. -/
theorem readUleb_together {bits cursor limit : ℕ} (hbits : 0 < bits) (hlimit : limit ≤ inp.size) :
    Together inp start held gap (fun _ a b => a = b ∧ a.2 ≤ limit) n
      (readUleb inp bits cursor limit) (readUleb inp bits cursor limit) := by
  have hsafe : Together inp start held gap (fun _ => Eq) n (readUleb inp bits cursor limit)
      (readUleb inp bits cursor limit) :=
    readUleb_computes.failsOnly fun s => readUleb_failsOnly hlimit
  exact hsafe.and_returns fun s a s' h => ((readUleb_returns hbits hlimit).mp h).2.2.2.2

theorem bitsAt_together {k offset size : ℕ} (h : offset + size ≤ inp.size) :
    Together inp start held gap (fun _ => Eq) n (bitsAt inp k offset size)
      (bitsAt inp k offset size) := by
  unfold bitsAt
  rw [bytesAt_eq h, pure_bind]
  exact .same

theorem decodeInteger_together {k : ℕ} {signed : Bool} {encoded : BitVec k} :
    Together inp start held gap (fun _ => Eq) n (decodeInteger signed encoded)
      (decodeInteger signed encoded) := by
  refine .ite (fun _ => ?_) fun _ => .same
  refine .ite (fun _ => ?_) fun _ => .ite (fun _ => fail_together) fun _ => .same
  exact .ite (fun _ => fail_together) fun _ => .ite (fun _ => .same) fun _ => .same

/-! ## Handles from handles -/

theorem toArray_together (hv : ShiftedHandle inp start held gap n v w) :
    Together inp start held gap (ShiftedHandle inp start held gap) n (toArray inp v)
      (toArray inp w) := by
  refine (requireValid_together hv).bind_same fun m _ hm => ?_
  rw [hv.shifted, Shift.isRaw_handle, Shift.tag_handle, ← hv.shifted]
  exact .ite (fun _ => fail_together) fun _ => .pure fun k hk => hv.mono (hm.trans hk)

theorem toObject_together (hv : ShiftedHandle inp start held gap n v w) :
    Together inp start held gap (ShiftedHandle inp start held gap) n (toObject inp v)
      (toObject inp w) := by
  refine (requireValid_together hv).bind_same fun m _ hm => ?_
  rw [hv.shifted, Shift.isFramedObject_handle, ← hv.shifted]
  exact .ite (fun _ => .pure fun k hk => hv.mono (hm.trans hk)) fun _ => fail_together

theorem arrayElement_shifted (hst : Shifted inp start held gap s t)
    (hv : ShiftedHandle inp start held gap n v w) (index : ℕ) :
    ShiftedHandle inp start held gap n (arrayElement inp s v index)
      (arrayElement inp t w index) := by
  unfold arrayElement
  rw [hst.validateHandle hv, hv.shifted, Shift.elements_handle, Shift.tag_handle,
    List.getElem?_map]
  cases validateHandle inp s v with
  | some e => exact .error
  | none =>
    cases hc : v.elements[index]? with
    | none => exact .error
    | some c =>
      dsimp only [Option.map_some]
      by_cases htag : v.tag = .array
      · rw [if_pos htag, if_pos htag]
        exact hv.below (below_element (List.mem_of_getElem? hc))
      · rw [if_neg htag, if_neg htag]
        exact .error

/-- A member that is looked up by what the runs have in common. -/
theorem find_shifted (hv : ShiftedHandle inp start held gap n v w) (name : Bytes)
    {p : Member InputValue → Bool}
    (hp : ∀ m, p { m with value := Shift.handle ⟨start.parses, gap⟩ m.value } = p m) :
    Generic.Found (ShiftedHandle inp start held gap n)
      (fieldOr name ((v.members.find? p).map Member.value))
      (fieldOr name ((w.members.find? p).map Member.value)) := by
  rw [hv.shifted, Shift.members_handle, List.find?_map,
    show p ∘ (fun m => { m with value := Shift.handle ⟨start.parses, gap⟩ m.value }) = p from
      funext hp]
  cases hm : v.members.find? p with
  | none => exact .missing _
  | some m => exact .found (hv.below (below_member (List.mem_of_find?_eq_some hm)))

theorem objectField_shifted (hst : Shifted inp start held gap s t)
    (hv : ShiftedHandle inp start held gap n v w) (name : Bytes) :
    Generic.Found (ShiftedHandle inp start held gap n) (objectField inp s v name)
      (objectField inp t w name) := by
  have htag : w.tag = v.tag := by rw [hv.shifted, Shift.tag_handle]
  unfold objectField findName findId
  rw [hst.validateHandle hv, htag]
  cases validateHandle inp s v with
  | some e => exact .missing e
  | none =>
    dsimp only
    split_ifs
    · exact find_shifted hv name fun m => rfl
    · exact find_shifted hv name fun m => rfl
    · exact find_shifted hv name fun m => rfl
    · exact .missing _

theorem forEachMember_together {β : Type}
    {fn fn' : Bytes → InputValue → β → ReadM (Bool × β)}
    (h : ∀ m name v w acc, n ≤ m → ShiftedHandle inp start held gap m v w →
      Together inp start held gap (fun _ => Eq) m (fn name v acc) (fn' name w acc))
    (ms : List (Member InputValue)) :
    ∀ {m : ℕ} {acc : β}, n ≤ m →
    (∀ member ∈ ms, ShiftedHandle inp start held gap m member.value
      (Shift.handle ⟨start.parses, gap⟩ member.value)) →
    Together inp start held gap (fun _ => Eq) m (forEachMember fn ms acc)
      (forEachMember fn'
        (ms.map fun m => { m with value := Shift.handle ⟨start.parses, gap⟩ m.value }) acc) := by
  induction ms with
  | nil => exact fun _ _ => .same
  | cons member ms ih =>
    intro m acc hm hms
    refine (h m _ _ _ acc hm (hms member List.mem_cons_self)).bind_same fun k r hk => ?_
    refine .ite (fun _ => ih (hm.trans hk) fun member' hmember' => ?_) fun _ => .same
    exact (hms member' (List.mem_cons_of_mem _ hmember')).mono hk

theorem forEachObjectMember_together {β : Type}
    {fn fn' : Bytes → InputValue → β → ReadM (Bool × β)} (acc : β)
    (hv : ShiftedHandle inp start held gap n v w)
    (h : ∀ m name v w acc, n ≤ m → ShiftedHandle inp start held gap m v w →
      Together inp start held gap (fun _ => Eq) m (fn name v acc) (fn' name w acc)) :
    Together inp start held gap (fun _ => Eq) n (forEachObjectMember inp v fn acc)
      (forEachObjectMember inp w fn' acc) := by
  refine .get_bind fun s t hst hn => ?_
  have htag : w.tag = v.tag := by rw [hv.shifted, Shift.tag_handle]
  have hmembers : w.members =
      v.members.map fun m => { m with value := Shift.handle ⟨start.parses, gap⟩ m.value } := by
    rw [hv.shifted, Shift.members_handle]
  rw [hst.validateHandle hv, htag, hmembers]
  cases validateHandle inp s v with
  | some e => exact .same
  | none =>
    refine .ite (fun _ => .same) fun _ => ?_
    exact forEachMember_together h v.members hn fun member hmember =>
      (hv.below (below_member hmember)).mono hn

/-! ## Scalars -/

theorem isEmpty_together (hv : ShiftedHandle inp start held gap n v w) :
    Together inp start held gap (fun _ => Eq) n (isEmpty inp v) (isEmpty inp w) := by
  refine .get_bind fun s t hst hn => ?_
  rw [hst.validate hv, show isRaw w = isRaw v by rw [hv.shifted, Shift.isRaw_handle],
    show w.tag = v.tag by rw [hv.shifted, Shift.tag_handle]]
  refine .ite (fun _ => .same) fun _ => ?_
  exact (consume_together (hv.mono hn)).bind_same fun _ _ _ => .same

theorem fixedWidth_le {node : Node} (h : Parsed inp node) (hwidth : node.tag.fixedWidth ≠ 0) :
    node.dataBegin + node.tag.fixedWidth ≤ inp.size := by
  have hbounded := h.bounded
  have hpayload : node.tag.hasPayload := by
    revert hwidth
    generalize node.tag = tag
    cases tag <;> simp [ValueTag.fixedWidth, ValueTag.hasPayload]
  obtain ⟨-, hle, hend⟩ := hbounded.payload hpayload
  have hwidth := hbounded.width hwidth
  have hsize := hbounded.end_le
  omega

theorem payload_le {node : Node} (h : Parsed inp node) (hpayload : node.tag.hasPayload) :
    node.dataBegin ≤ node.dataEnd ∧ node.dataEnd ≤ inp.size := by
  obtain ⟨-, hle, hend⟩ := h.bounded.payload hpayload
  exact ⟨hle, hend.trans h.bounded.end_le⟩

section

variable {k : ℕ} {node : Node}

theorem readFloating_together (hv : ShiftedHandle inp start held gap n (.node k node) w)
    {tag : ValueTag} {kind : String} {m : ℕ} (hwidth : tag.fixedWidth ≠ 0) :
    Together inp start held gap (fun _ => Eq) n (readFloating inp tag kind m (.node k node) node)
      (readFloating inp tag kind m w node) := by
  refine .ite (fun _ => fail_together) fun htag => ?_
  rw [not_not] at htag
  subst htag
  refine (bitsAt_together (fixedWidth_le hv.sound hwidth)).bind_same fun i bits hi => ?_
  exact (consume_together (hv.mono hi)).bind_same fun _ _ _ => .same

theorem toBasicNode_together (hv : ShiftedHandle inp start held gap n (.node k node) w)
    (T : Arithmetic) :
    Together inp start held gap (fun _ => Eq) n (toBasicNode inp (.node k node) node T)
      (toBasicNode inp w node T) := by
  cases T with
  | bool =>
    refine .ite (fun _ => fail_together) fun _ => ?_
    exact (consume_together hv).bind_same fun _ _ _ => .same
  | integer signed width =>
    refine .ite (fun _ => fail_together) fun htag => ?_
    rw [not_not] at htag
    have hpayload : node.tag.hasPayload := by
      rw [htag]
      cases signed <;> simp [ValueTag.hasPayload]
    have hbits : 0 < width.bits := by cases width <;> decide
    refine (readUleb_together hbits (payload_le hv.sound hpayload).2).bind fun i a b hi hab => ?_
    obtain ⟨rfl, -⟩ := hab
    exact (consume_together (hv.mono hi)).bind_same fun _ _ _ => decodeInteger_together
  | float => exact readFloating_together hv (by decide)
  | double => exact readFloating_together hv (by decide)

end

theorem readRawString_together (hv : ShiftedHandle inp start held gap n v w) :
    Together inp start held gap (fun _ => Eq) n (readRawString inp v) (readRawString inp w) := by
  refine .get_bind fun s t hst hn => ?_
  rw [hst.offset]
  refine (readUleb_together (by decide) (le_refl _)).bind fun i a b hi hab => ?_
  obtain ⟨rfl, hle⟩ := hab
  obtain ⟨size, cursor⟩ := a
  dsimp only at hle ⊢
  rw [subSize_eq hle, pure_bind]
  refine .ite (fun _ => fail_together) fun hlimit => ?_
  have hend : cursor + size ≤ inp.size := by omega
  have hlt : cursor + size < 2 ^ 64 := hend.trans_lt inp.size_lt
  refine charge_together.bind_same fun j _ hj => ?_
  rw [bytesAt_eq hend, pure_bind, addSize_eq hlt, pure_bind]
  exact (consumeRaw_together (hv.mono (hn.trans (hi.trans hj))) hend).bind_same fun _ _ _ => .same

theorem toBasicString_together (hv : ShiftedHandle inp start held gap n v w) :
    Together inp start held gap (fun _ => Eq) n (toBasicString inp v) (toBasicString inp w) := by
  refine (requireValid_together hv).bind_same fun m _ hm => ?_
  have hv := hv.mono hm
  cases v with
  | node k node =>
    obtain rfl := hv.shifted
    refine .ite (fun _ => fail_together) fun htag => ?_
    rw [not_not] at htag
    obtain ⟨hle, hend⟩ := payload_le hv.sound (by rw [htag]; simp [ValueTag.hasPayload])
    rw [subSize_eq hle, pure_bind]
    refine charge_together.bind_same fun i _ hi => ?_
    refine (consume_together (hv.mono hi)).bind_same fun j _ _ => ?_
    rw [bytesAt_eq (by omega)]
    exact .same
  | raw k e =>
    obtain rfl := hv.shifted
    exact readRawString_together hv
  | error e =>
    obtain rfl := hv.shifted
    exact .throw trivial

/-- Behind the length check there are the bytes of the value. -/
theorem requireRaw_together {α : Type} {A : ℕ → α → α → Prop} {T : Arithmetic} {size : ℕ}
    {f g : Unit → ReadM α}
    (h : ∀ s t, Shifted inp start held gap s t → n ≤ s.parses → size = T.size →
      s.offset + size ≤ inp.size →
      Agree (Shifted inp start held gap) State.parses IsError A s.parses (f () s) (g () t)) :
    Together inp start held gap A n (requireRaw inp T size >>= f)
      (requireRaw inp T size >>= g) := by
  intro s t hst hn
  have hrun : ∀ (u : State) (f : Unit → ReadM α), u.offset ≤ inp.size →
      (requireRaw inp T size >>= f) u =
        if size ≠ T.size ∨ inp.size - u.offset < size then
          .error (.error ⟨.parseError, "Unexpected end of raw fixed binary data"⟩) u
        else f () u := by
    intro u f hu
    unfold requireRaw
    rw [bind_assoc, get_bind_apply, subSize_eq hu, pure_bind]
    split_ifs <;> rfl
  have hle := hst.offset_le
  rw [hrun s f hle, hrun t g (hst.offset.symm ▸ hle), hst.offset]
  by_cases hshort : size ≠ T.size ∨ inp.size - s.offset < size
  · rw [if_pos hshort, if_pos hshort]
    exact .error le_rfl trivial hst
  · rw [if_neg hshort, if_neg hshort]
    rw [not_or, not_not] at hshort
    exact h s t hst hn hshort.1 (by omega)

theorem readRawFixed_together (hv : ShiftedHandle inp start held gap n v w) {size : ℕ}
    (T : Arithmetic) :
    Together inp start held gap (fun _ => Eq) n (readRawFixed inp v size T)
      (readRawFixed inp w size T) := by
  have hbits : ∀ k s t, Shifted inp start held gap s t → n ≤ s.parses → size = T.size →
      s.offset + size ≤ inp.size →
      Agree (Shifted inp start held gap) State.parses IsError (fun _ => Eq) s.parses
        (readRawBits inp k v size s) (readRawBits inp k w size t) := by
    intro k s t hst hn _ hle
    have hlt : s.offset + size < 2 ^ 64 := hle.trans_lt inp.size_lt
    unfold readRawBits
    rw [get_bind_apply, get_bind_apply, hst.offset, addSize_eq hlt]
    refine (bitsAt_together hle).bind_same (fun i bits hi => ?_) s t hst hn
    rw [pure_bind, pure_bind]
    exact (consumeRaw_together (hv.mono hi) hle).bind_same fun _ _ _ => .same
  cases T with
  | bool =>
    refine requireRaw_together fun s t hst hn hsize hle => ?_
    subst hsize
    have hlt : s.offset + 1 < 2 ^ 64 := hle.trans_lt inp.size_lt
    have hbyte : ∃ byte, inp.data[s.offset]? = some byte := exists_byte hle (le_refl _)
    obtain ⟨byte, hbyte⟩ := hbyte
    unfold readRawBool
    rw [get_bind_apply, get_bind_apply, hst.offset, byteAt_eq hbyte, addSize_eq hlt]
    simp only [pure_bind]
    refine (consumeRaw_together hv hle).bind_same (fun i _ _ => ?_) s t hst hn
    exact .ite (fun _ => fail_together) fun _ => .same
  | integer signed width => exact requireRaw_together (hbits _)
  | float => exact requireRaw_together (hbits _)
  | double => exact requireRaw_together (hbits _)

theorem toBasicType_together (hv : ShiftedHandle inp start held gap n v w) (T : Arithmetic) :
    Together inp start held gap (fun _ => Eq) n (toBasicType inp T v) (toBasicType inp T w) := by
  refine (requireValid_together hv).bind_same fun m _ hm => ?_
  have hv := hv.mono hm
  obtain rfl := hv.shifted
  cases v with
  | node k node => exact toBasicNode_together hv T
  | raw k e => exact readRawFixed_together hv T
  | error e => exact .throw trivial

theorem readFixedNode_together {k : ℕ} {node : Node}
    (hv : ShiftedHandle inp start held gap n (.node k node) w) {size : ℕ} (T : Arithmetic) :
    Together inp start held gap (fun _ => Eq) n (readFixedNode inp (.node k node) node size T)
      (readFixedNode inp w node size T) := by
  cases T with
  | bool => exact toBasicType_together hv .bool
  | integer signed width =>
    refine .ite (fun _ => fail_together) fun htag => ?_
    rw [not_or, not_not, not_not] at htag
    have hwidth : node.tag.fixedWidth = width.bytes := by
      rw [htag.2]
      cases signed <;> cases width <;> rfl
    have hpos : node.tag.fixedWidth ≠ 0 := by
      rw [hwidth]
      cases width <;> decide
    have hle := fixedWidth_le hv.sound hpos
    rw [hwidth] at hle
    refine (bitsAt_together hle).bind_same fun i bits hi => ?_
    exact (consume_together (hv.mono hi)).bind_same fun _ _ _ => .same
  | float => exact .ite (fun _ => fail_together) fun _ => readFloating_together hv (by decide)
  | double => exact .ite (fun _ => fail_together) fun _ => readFloating_together hv (by decide)

theorem readFixed_together (hv : ShiftedHandle inp start held gap n v w) {size : ℕ}
    (T : Arithmetic) :
    Together inp start held gap (fun _ => Eq) n (readFixed inp T v size)
      (readFixed inp T w size) := by
  refine (requireValid_together hv).bind_same fun m _ hm => ?_
  have hv := hv.mono hm
  obtain rfl := hv.shifted
  cases v with
  | node k node => exact readFixedNode_together hv T
  | raw k e => exact readRawFixed_together hv T
  | error e => exact .throw trivial

/-! ## Parses -/

/-- A parse from inside the buffer gives a handle of a new number in both runs. -/
theorem parseAt_together {cursor depth : ℕ} (hdepth : depth ≤ cursor)
    (hmax : depth ≤ inp.limits.maxDepth + 1) :
    Together inp start held gap (ShiftedHandle inp start held gap) n (parseAt inp cursor depth)
      (parseAt inp cursor depth) := by
  intro s t hst hn
  have hnode := @parseAt_node inp cursor depth s
  have hsafe := parseAt_safe hst.budget_lt hdepth hmax
  have hle := @parseNode_le inp (nodeFuel inp.limits depth) cursor inp.size depth
    s.remainingAllocation
  unfold parseAt onBudget at hnode hsafe ⊢
  rw [hst.budget]
  cases hparse : parseNode inp (nodeFuel inp.limits depth) cursor inp.size depth
    s.remainingAllocation with
  | ok r budget =>
    obtain ⟨node, stop⟩ := r
    rw [hparse] at hnode
    obtain ⟨w, hw, -, rfl⟩ := (@hnode _ hst.budget_lt hdepth _ _).mp rfl
    have hstop : stop = cursor + w.encode.length := congrArg State.offset hw.state_eq
    have hbudget : budget < 2 ^ 64 := (hle.1 hparse).trans_lt hst.budget_lt
    have hstates := ((hst.setBudget hbudget).setOffset (hstop ▸ hw.end_le)).nextParse
    refine .ok (Nat.le_succ _) ⟨?_, ⟨w, cursor, depth, rfl, hw.fits, hw.end_le, hdepth⟩, ?_⟩ hstates
    · exact congrArg (InputValue.node · _) hst.parse_parses.symm
    · intro i hi
      obtain ⟨m, -, rfl⟩ := List.mem_map.mp hi
      exact ⟨Nat.lt_succ_self _, .inr hst.begun⟩
  | error stop budget =>
    have hbudget : budget < 2 ^ 64 := (hle.2 hparse).trans_lt hst.budget_lt
    rw [hparse] at hsafe
    cases stop with
    | error e => exact .ok le_rfl .error (hst.setBudget hbudget)
    | _ =>
      obtain ⟨v, u, h⟩ := hsafe
      cases h

theorem rawValue_together :
    Together inp start held gap (ShiftedHandle inp start held gap) n (rawValue inp)
      (rawValue inp) := by
  refine .get_bind_agree fun s t hst _ => ?_
  refine .ok (Nat.le_succ _) ⟨?_, trivial, ?_⟩ hst.nextParse
  · rw [hst.offset, ← hst.parse_parses]
    rfl
  · intro i hi
    obtain rfl := List.mem_singleton.mp hi
    exact ⟨Nat.lt_succ_self _, .inr hst.begun⟩

theorem next_together (hv : ShiftedHandle inp start held gap n v w) :
    Together inp start held gap (ShiftedHandle inp start held gap) n (next inp v)
      (next inp w) := by
  refine .get_bind fun s t hst _ => ?_
  rw [hst.validateHandle hv]
  obtain rfl := hv.shifted
  cases validateHandle inp s v with
  | some e => exact .pure fun _ _ => .error
  | none =>
    cases v with
    | node k node =>
      have hbounded := hv.sound.bounded
      have hdepth := hv.sound.depth_le
      have hlt := hbounded.begin_lt
      exact parseAt_together (by omega) (hbounded.depth_le.trans (Nat.le_succ _))
    | raw k e => exact rawValue_together
    | error e => exact rawValue_together

/-! ## Restoring -/

/-- Both runs go back to their checkpoints. -/
theorem Shifted.restore {s' t' : State} (hst : Shifted inp start held gap s t)
    (hst' : Shifted inp start held gap s' t') (hle : s.parses ≤ s'.parses)
    (hv : ShiftedHandle inp start held gap s.parses v w) :
    Shifted inp start held gap (restore (checkpoint s v) s') (restore (checkpoint t w) t') where
  offset := hst.offset
  budget := hst.budget
  framed := hst'.framed
  error := hst'.error
  parses := hst'.parses
  consumed := fun i => by
    have hnodes : Shift.id ⟨start.parses, gap⟩ i ∈ nodes w ↔ i ∈ nodes v := by
      rw [hv.shifted, Shift.nodes_handle, List.mem_map_of_injective Shift.id_injective]
    rw [mem_restore, mem_restore, hnodes, hst.consumed, hst'.consumed]
  begun := hst'.begun
  fresh := fun i hi => by
    obtain ⟨-, hi⟩ | ⟨-, hi⟩ := mem_restore.mp hi
    · exact hst'.fresh i hi
    · exact (hst.fresh i hi).trans_le hle
  budget_lt := hst.budget_lt
  offset_le := hst.offset_le
  framed_eq := hst'.framed_eq
  error_eq := hst'.error_eq
  kept := fun i hi hheld => by
    rw [mem_restore]
    by_cases hmem : i ∈ nodes v
    · rw [← hst.kept i hi hheld]
      simp [hmem]
    · rw [← hst'.kept i hi hheld]
      simp [hmem]

end

end NekoProto.Binary.Reader

namespace NekoProto.Generic

open Binary Binary.Reader

/-- **The two runs of the Binary Reader** go the same way. -/
def shiftCoupling (inp : Input) (start : State) (held : InputValue) (gap : ℕ) :
    Coupling (binary inp) where
  clock := State.parses
  states := Shifted inp start held gap
  values := ShiftedHandle inp start held gap
  arrays := ShiftedHandle inp start held gap
  objects := ShiftedHandle inp start held gap
  values_mono := .mono
  arrays_mono := .mono
  objects_mono := .mono
  toArray _ hv := toArray_together hv
  toObject _ hv := toObject_together hv
  toBasicType T _ hv := toBasicType_together hv T
  toBasicString _ hv := toBasicString_together hv
  isEmpty _ hv := isEmpty_together hv
  arraySize hv := by
    rename_i a b
    have hsize : Reader.arraySize a = Reader.arraySize b := by
      unfold Reader.arraySize
      rw [hv.shifted, Shift.elements_handle, List.length_map]
    show TwoRuns.Lockstep _ _ _ _ _ (pure (Reader.arraySize a)) (pure (Reader.arraySize b))
    rw [hsize]
    exact .same
  arrayElement index hv := .get_bind fun _ _ hst hn =>
    .pure fun _ hm => arrayElement_shifted hst (hv.mono (hn.trans hm)) index
  objectField _ name hv := .get_bind fun _ _ hst hn =>
    .pure fun _ hm => objectField_shifted hst (hv.mono (hn.trans hm)) name
  forEachObjectMember _ acc hv h := forEachObjectMember_together acc hv h
  toFixedBasicType T _ size heq hv := by
    cases heq
    exact readFixed_together hv T
  isRaw heq hv := by
    cases heq
    rw [hv.shifted]
    exact Shift.isRaw_handle.symm
  isFramedObject heq hv := by
    cases heq
    rw [hv.shifted]
    exact Shift.isFramedObject_handle.symm
  next heq hv := by
    cases heq
    exact next_together hv
  restore heq hst hst' hle hv := by
    cases heq
    exact ⟨hst.restore hst' hle hv, le_refl _⟩

end NekoProto.Generic
