import NekoProto.Binary.ParseExact
import NekoProto.Binary.Reader

/-!
# Bounds of a parsed document

Parsing a document ends without a fault whatever the bytes are, and the nodes of an accepted
document keep the bounds that the accessors rely on (`NodeBounded`). The nodes are the layout of a
tree that fits (`parseNode_returns`), so the bounds are read off the layout, by induction on the
tree.
-/

namespace NekoProto.Binary

open Outcome Segment

/-! ## The nodes of a document -/

namespace Node

mutual

/-- A node and all nodes below it. -/
def all : Node → List Node
  | mk tag b db de e d es ms => mk tag b db de e d es ms :: (allList es ++ allMembers ms)

/-- The nodes of elements. -/
def allList : List Node → List Node
  | [] => []
  | n :: ns => all n ++ allList ns

/-- The nodes of members. -/
def allMembers : List (Member Node) → List Node
  | [] => []
  | ⟨_, _, n⟩ :: ms => all n ++ allMembers ms

end

mutual

/-- The allocation a node stands for: its own, and a fixed amount for each child. -/
def cost (abi : Abi) : Node → ℕ
  | mk _ _ _ _ _ _ es ms =>
    abi.nodeSize + (es.length * abi.pointerSize + costList abi es) +
      (ms.length * abi.memberSize + costMembers abi ms)

/-- The allocation of elements. -/
def costList (abi : Abi) : List Node → ℕ
  | [] => 0
  | n :: ns => cost abi n + costList abi ns

/-- The allocation of members. -/
def costMembers (abi : Abi) : List (Member Node) → ℕ
  | [] => 0
  | ⟨_, _, n⟩ :: ms => cost abi n + costMembers abi ms

end

/-- The elements of an array, or the values of an object. -/
def children (n : Node) : List Node := n.elements ++ n.members.map Member.value

end Node

/-- The tags whose payload the node marks with `dataBegin` and `dataEnd`. -/
def ValueTag.hasPayload (tag : ValueTag) : Prop :=
  tag ∉ [.null, .false, .true, .array, .namedObject, .idObject]

/-- The nodes lie between two offsets, one after the other. -/
def Ordered : ℕ → ℕ → List Node → Prop
  | lo, hi, [] => lo ≤ hi
  | lo, hi, n :: ns => lo ≤ n.begin ∧ n.begin < n.end ∧ Ordered n.end hi ns

/-- What every node of an accepted document keeps. -/
structure NodeBounded (inp : Input) (n : Node) : Prop where
  begin_lt : n.begin < n.end
  end_le : n.end ≤ inp.size
  payload : n.tag.hasPayload → n.begin < n.dataBegin ∧ n.dataBegin ≤ n.dataEnd ∧ n.dataEnd ≤ n.end
  width : n.tag.fixedWidth ≠ 0 → n.dataEnd - n.dataBegin = n.tag.fixedWidth
  children : Ordered (n.begin + 1) n.end n.children
  depth_le : n.depth ≤ inp.limits.maxDepth
  depth_child : ∀ c ∈ n.children, c.depth = n.depth + 1
  elements_le : n.elements.length ≤ inp.limits.maxContainerElements
  members_le : n.members.length ≤ inp.limits.maxObjectFields
  string_le : n.tag = .string → n.dataEnd - n.dataBegin ≤ inp.limits.maxStringBytes
  name_le : ∀ m ∈ n.members, m.name.length ≤ inp.limits.maxStringBytes

/-! ## The layout of a tree -/

section

variable {inp : Input} {named : Bool} {pos depth : ℕ}

@[simp] theorem layout_begin (w : Wire) : (w.layout pos depth).begin = pos := by
  cases w <;> rfl

@[simp] theorem layout_depth (w : Wire) : (w.layout pos depth).depth = depth := by
  cases w <;> rfl

@[simp] theorem layout_tag (w : Wire) : (w.layout pos depth).tag = w.tag := by
  cases w <;> rfl

@[simp] theorem layout_end (w : Wire) : (w.layout pos depth).end = pos + w.encode.length := by
  cases w <;> simp only [Wire.layout, Node.end, Wire.encode, List.length_cons, List.length_append,
    List.length_nil] <;> omega

@[simp] theorem length_layoutList (ws : List Wire) :
    (Wire.layoutList pos depth ws).length = ws.length := by
  induction ws generalizing pos with
  | nil => rfl
  | cons w ws ih => simp only [Wire.layoutList, List.length_cons, ih]

@[simp] theorem length_layoutMembers (ms : List (Key × Wire)) :
    (Wire.layoutMembers named pos depth ms).length = ms.length := by
  induction ms generalizing pos with
  | nil => rfl
  | cons m ms ih => simp only [Wire.layoutMembers, List.length_cons, ih]

theorem ordered_layoutList (ws : List Wire) {lo hi : ℕ} (hlo : lo ≤ pos)
    (hhi : pos + (Wire.encodeList ws).length ≤ hi) :
    Ordered lo hi (Wire.layoutList pos depth ws) := by
  induction ws generalizing lo pos with
  | nil => exact le_trans hlo hhi
  | cons w ws ih =>
    have := w.length_encode_pos
    simp only [Wire.encodeList, List.length_append] at hhi
    simp only [Wire.layoutList, Ordered, layout_begin, layout_end]
    exact ⟨hlo, by omega, ih (le_refl _) (by omega)⟩

theorem ordered_layoutMembers (ms : List (Key × Wire)) {lo hi : ℕ} (hlo : lo ≤ pos)
    (hhi : pos + (Wire.encodeMembers named ms).length ≤ hi) :
    Ordered lo hi ((Wire.layoutMembers named pos depth ms).map Member.value) := by
  induction ms generalizing lo pos with
  | nil => exact le_trans hlo hhi
  | cons m ms ih =>
    have := m.2.length_encode_pos
    simp only [Wire.encodeMembers, List.length_append] at hhi
    simp only [Wire.layoutMembers, List.map_cons, Ordered, layout_begin, layout_end]
    exact ⟨by omega, by omega, ih (le_refl _) (by omega)⟩

theorem depth_of_mem_layoutList {ws : List Wire} {n : Node}
    (h : n ∈ Wire.layoutList pos depth ws) : n.depth = depth := by
  induction ws generalizing pos with
  | nil => cases h
  | cons w ws ih =>
    obtain rfl | h := List.mem_cons.mp h
    · exact layout_depth w
    · exact ih h

theorem depth_of_mem_layoutMembers {ms : List (Key × Wire)} {n : Node}
    (h : n ∈ (Wire.layoutMembers named pos depth ms).map Member.value) : n.depth = depth := by
  induction ms generalizing pos with
  | nil => cases h
  | cons m ms ih =>
    obtain rfl | h := List.mem_cons.mp h
    · exact layout_depth m.2
    · exact ih h

theorem name_le_of_mem_layoutMembers {ms : List (Key × Wire)} {m : Member Node}
    (hfits : Wire.FitsMembers inp.limits named depth ms)
    (h : m ∈ Wire.layoutMembers named pos depth ms) :
    m.name.length ≤ inp.limits.maxStringBytes := by
  induction ms generalizing pos with
  | nil => cases h
  | cons entry ms ih =>
    obtain ⟨key, w⟩ := entry
    obtain ⟨hkey, -, hfits⟩ := hfits
    obtain rfl | h := List.mem_cons.mp h
    · cases key with
      | literal name => exact hkey.1
      | hash id => exact Nat.zero_le _
    · exact ih hfits h

/-- A node without children keeps the bounds when its payload does. -/
theorem leaf_bounded {tag : ValueTag} {db de e : ℕ} (hlt : pos < e) (hend : e ≤ inp.size)
    (hpayload : tag.hasPayload → pos < db ∧ db ≤ de ∧ de ≤ e)
    (hwidth : tag.fixedWidth ≠ 0 → de - db = tag.fixedWidth)
    (hstring : tag = .string → de - db ≤ inp.limits.maxStringBytes)
    (hdepth : depth ≤ inp.limits.maxDepth) :
    NodeBounded inp (.mk tag pos db de e depth [] []) where
  begin_lt := hlt
  end_le := hend
  payload := hpayload
  width := hwidth
  children := hlt
  depth_le := hdepth
  depth_child := fun c hc => by cases hc
  elements_le := Nat.zero_le _
  members_le := Nat.zero_le _
  string_le := hstring
  name_le := fun m hm => by cases hm

theorem empty_bounded {tag : ValueTag} (hpayload : ¬tag.hasPayload) (hwidth : tag.fixedWidth = 0)
    (hend : pos + 1 ≤ inp.size) (hdepth : depth ≤ inp.limits.maxDepth) :
    NodeBounded inp (.mk tag pos 0 0 (pos + 1) depth [] []) :=
  leaf_bounded (by omega) hend (fun h => absurd h hpayload) (fun h => absurd hwidth h)
    (fun _ => Nat.zero_le _) hdepth

theorem objectTag_cases (named : Bool) :
    ¬(objectTag named).hasPayload ∧ (objectTag named).fixedWidth = 0 ∧
      objectTag named ≠ .string := by
  cases named <;> simp [objectTag, ValueTag.hasPayload, ValueTag.fixedWidth]

/-- The node of a tree keeps the bounds. -/
theorem layout_bounded {w : Wire} (hfits : w.Fits inp.limits depth)
    (hend : pos + w.encode.length ≤ inp.size) : NodeBounded inp (w.layout pos depth) := by
  have hdepth := hfits.depth_le
  cases w with
  | null => exact empty_bounded (by simp [ValueTag.hasPayload]) rfl hend hdepth
  | bool value =>
    cases value <;> exact empty_bounded (by simp [boolTag, ValueTag.hasPayload]) rfl hend hdepth
  | integer signed value =>
    simp only [Wire.encode, List.length_cons] at hend
    refine leaf_bounded (by omega) (by omega) (fun _ => by omega) ?_ ?_ hdepth
    · cases signed <;> simp [integerTag, ValueTag.fixedWidth]
    · cases signed <;> simp [integerTag]
  | fixed tag payload =>
    obtain ⟨-, hwidth, hlen⟩ := hfits
    simp only [Wire.encode, List.length_cons] at hend
    refine leaf_bounded (by omega) (by omega) (fun _ => by omega) (fun _ => by omega) ?_ hdepth
    rintro rfl
    exact absurd rfl hwidth
  | string bytes =>
    have hlen := hfits.2
    simp only [Wire.encode, List.length_cons, List.length_append] at hend
    exact leaf_bounded (by omega) (by omega) (fun _ => by omega) (fun h => absurd rfl h)
      (fun _ => by omega) hdepth
  | array elements =>
    obtain ⟨-, hcount, -⟩ := hfits
    simp only [Wire.encode, List.length_cons, List.length_append] at hend
    constructor
    case begin_lt => simp only [Wire.layout, Node.begin, Node.end]; omega
    case end_le => simp only [Wire.layout, Node.end]; omega
    case payload => exact fun h => absurd h (by simp [Wire.layout, Node.tag, ValueTag.hasPayload])
    case width => exact fun h => absurd rfl h
    case string_le => exact fun h => absurd h (by simp [Wire.layout, Node.tag])
    case depth_le => exact hdepth
    case name_le => exact fun m hm => by cases hm
    case members_le => exact Nat.zero_le _
    case elements_le => exact (length_layoutList elements).symm ▸ hcount
    case children =>
      simp only [Wire.layout, Node.begin, Node.end, Node.children, Node.elements, Node.members,
        List.map_nil, List.append_nil]
      exact ordered_layoutList elements (by omega) (le_refl _)
    case depth_child =>
      intro c hc
      simp only [Wire.layout, Node.children, Node.elements, Node.members, List.map_nil,
        List.append_nil] at hc
      exact depth_of_mem_layoutList hc
  | object named members =>
    obtain ⟨-, hcount, -, hmembers⟩ := hfits
    obtain ⟨hpayload, hwidth, hstring⟩ := objectTag_cases named
    simp only [Wire.encode, List.length_cons, List.length_append] at hend
    constructor
    case begin_lt => simp only [Wire.layout, Node.begin, Node.end]; omega
    case end_le => simp only [Wire.layout, Node.end]; omega
    case payload => exact fun h => absurd h hpayload
    case width => exact fun h => absurd hwidth h
    case string_le => exact fun h => absurd h hstring
    case depth_le => exact hdepth
    case name_le => exact fun m hm => name_le_of_mem_layoutMembers hmembers hm
    case members_le => exact (length_layoutMembers members).symm ▸ hcount
    case elements_le => exact Nat.zero_le _
    case children =>
      simp only [Wire.layout, Node.begin, Node.end, Node.children, Node.elements, Node.members,
        List.nil_append]
      exact ordered_layoutMembers members (by omega) (le_refl _)
    case depth_child =>
      intro c hc
      simp only [Wire.layout, Node.children, Node.elements, Node.members,
        List.nil_append] at hc
      exact depth_of_mem_layoutMembers hc

mutual

/-- Every node of the layout keeps the bounds. -/
theorem all_bounded : (w : Wire) → (pos depth : ℕ) → w.Fits inp.limits depth →
    pos + w.encode.length ≤ inp.size → ∀ n ∈ (w.layout pos depth).all, NodeBounded inp n
  | .null, pos, depth, hfits, hend, n, hn => by
    rw [List.mem_singleton.mp hn]
    exact layout_bounded hfits hend
  | .bool _, pos, depth, hfits, hend, n, hn => by
    rw [List.mem_singleton.mp hn]
    exact layout_bounded hfits hend
  | .integer _ _, pos, depth, hfits, hend, n, hn => by
    rw [List.mem_singleton.mp hn]
    exact layout_bounded hfits hend
  | .fixed _ _, pos, depth, hfits, hend, n, hn => by
    rw [List.mem_singleton.mp hn]
    exact layout_bounded hfits hend
  | .string _, pos, depth, hfits, hend, n, hn => by
    rw [List.mem_singleton.mp hn]
    exact layout_bounded hfits hend
  | .array elements, pos, depth, hfits, hend, n, hn => by
    simp only [Wire.layout, Node.all, Node.allMembers, List.append_nil] at hn
    obtain rfl | hn := List.mem_cons.mp hn
    · exact layout_bounded hfits hend
    · simp only [Wire.encode, List.length_cons, List.length_append] at hend
      exact allList_bounded elements _ _ hfits.2.2 (by omega) n hn
  | .object named members, pos, depth, hfits, hend, n, hn => by
    simp only [Wire.layout, Node.all, Node.allList, List.nil_append] at hn
    obtain rfl | hn := List.mem_cons.mp hn
    · exact layout_bounded hfits hend
    · simp only [Wire.encode, List.length_cons, List.length_append] at hend
      exact allMembers_bounded named members _ _ hfits.2.2.2 (by omega) n hn

theorem allList_bounded : (ws : List Wire) → (pos depth : ℕ) → Wire.FitsList inp.limits depth ws →
    pos + (Wire.encodeList ws).length ≤ inp.size →
    ∀ n ∈ Node.allList (Wire.layoutList pos depth ws), NodeBounded inp n
  | [], _, _, _, _, n, hn => by cases hn
  | w :: ws, pos, depth, hfits, hend, n, hn => by
    simp only [Wire.encodeList, List.length_append] at hend
    obtain hn | hn := List.mem_append.mp hn
    · exact all_bounded w pos depth hfits.1 (by omega) n hn
    · exact allList_bounded ws _ depth hfits.2 (by omega) n hn

theorem allMembers_bounded (named : Bool) : (ms : List (Key × Wire)) → (pos depth : ℕ) →
    Wire.FitsMembers inp.limits named depth ms →
    pos + (Wire.encodeMembers named ms).length ≤ inp.size →
    ∀ n ∈ Node.allMembers (Wire.layoutMembers named pos depth ms), NodeBounded inp n
  | [], _, _, _, _, n, hn => by cases hn
  | (key, w) :: ms, pos, depth, hfits, hend, n, hn => by
    simp only [Wire.encodeMembers, List.length_append] at hend
    obtain hn | hn := List.mem_append.mp hn
    · exact all_bounded w _ depth hfits.2.1 (by omega) n hn
    · exact allMembers_bounded named ms _ depth hfits.2.2 (by omega) n hn

end

mutual

/-- There are no more nodes than bytes. -/
theorem length_all_le : (w : Wire) → (pos depth : ℕ) →
    (w.layout pos depth).all.length ≤ w.encode.length
  | .null, _, _ => le_refl 1
  | .bool _, _, _ => le_refl 1
  | .integer _ _, _, _ => Nat.succ_le_succ (Nat.zero_le _)
  | .fixed _ _, _, _ => Nat.succ_le_succ (Nat.zero_le _)
  | .string _, _, _ => Nat.succ_le_succ (Nat.zero_le _)
  | .array elements, pos, depth => by
    have := length_allList_le elements (pos + 1 + (Leb128.encode elements.length).length)
      (depth + 1)
    simp only [Wire.layout, Node.all, Node.allMembers, List.append_nil, Wire.encode,
      List.length_cons, List.length_append]
    omega
  | .object named members, pos, depth => by
    have := length_allMembers_le named members
      (pos + 1 + (Leb128.encode members.length).length) (depth + 1)
    simp only [Wire.layout, Node.all, Node.allList, List.nil_append, Wire.encode,
      List.length_cons, List.length_append]
    omega

theorem length_allList_le : (ws : List Wire) → (pos depth : ℕ) →
    (Node.allList (Wire.layoutList pos depth ws)).length ≤ (Wire.encodeList ws).length
  | [], _, _ => le_refl 0
  | w :: ws, pos, depth => by
    have h₁ := length_all_le w pos depth
    have h₂ := length_allList_le ws (pos + w.encode.length) depth
    simp only [Wire.layoutList, Node.allList, Wire.encodeList, List.length_append]
    omega

theorem length_allMembers_le (named : Bool) : (ms : List (Key × Wire)) → (pos depth : ℕ) →
    (Node.allMembers (Wire.layoutMembers named pos depth ms)).length ≤
      (Wire.encodeMembers named ms).length
  | [], _, _ => le_refl 0
  | (key, w) :: ms, pos, depth => by
    have h₁ := length_all_le w (pos + (key.encode named).length) depth
    have h₂ := length_allMembers_le named ms (pos + (key.encode named).length + w.encode.length)
      depth
    simp only [Wire.layoutMembers, Node.allMembers, Wire.encodeMembers, List.length_append]
    omega

end

mutual

/-- The charge of a tree is the cost of its node. -/
theorem cost_layout {abi : Abi} : (w : Wire) → (pos depth : ℕ) →
    (w.layout pos depth).cost abi = w.charge abi
  | .null, _, _ => by simp [Wire.layout, Node.cost, Node.costList, Node.costMembers, Wire.charge]
  | .bool _, _, _ => by simp [Wire.layout, Node.cost, Node.costList, Node.costMembers, Wire.charge]
  | .integer _ _, _, _ => by
    simp [Wire.layout, Node.cost, Node.costList, Node.costMembers, Wire.charge]
  | .fixed _ _, _, _ => by
    simp [Wire.layout, Node.cost, Node.costList, Node.costMembers, Wire.charge]
  | .string _, _, _ => by
    simp [Wire.layout, Node.cost, Node.costList, Node.costMembers, Wire.charge]
  | .array elements, _, _ => by
    simp [Wire.layout, Node.cost, Node.costMembers, Wire.charge, cost_layoutList elements]
  | .object named members, _, _ => by
    simp [Wire.layout, Node.cost, Node.costList, Wire.charge, cost_layoutMembers named members]

theorem cost_layoutList {abi : Abi} : (ws : List Wire) → (pos depth : ℕ) →
    Node.costList abi (Wire.layoutList pos depth ws) = Wire.chargeList abi ws
  | [], _, _ => rfl
  | w :: ws, pos, depth => by
    simp only [Wire.layoutList, Node.costList, Wire.chargeList, cost_layout w,
      cost_layoutList ws]

theorem cost_layoutMembers {abi : Abi} (named : Bool) : (ms : List (Key × Wire)) →
    (pos depth : ℕ) →
    Node.costMembers abi (Wire.layoutMembers named pos depth ms) = Wire.chargeMembers abi ms
  | [], _, _ => rfl
  | (key, w) :: ms, pos, depth => by
    simp only [Wire.layoutMembers, Node.costMembers, Wire.chargeMembers, cost_layout w,
      cost_layoutMembers named ms]

end

end

/-! ## Documents -/

namespace Reader

variable {inp : Input} {cursor depth : ℕ} {s t : State}

/-- A tree that the parser accepts at a cursor, with the state it leaves. -/
structure Parses (inp : Input) (cursor depth : ℕ) (s : State) (w : Wire) (t : State) : Prop where
  fits : w.Fits inp.limits depth
  stands : At inp.data cursor w.encode
  end_le : cursor + w.encode.length ≤ inp.size
  charge_le : w.charge inp.abi ≤ s.remainingAllocation
  state_eq : t = { s with
    offset := cursor + w.encode.length
    remainingAllocation := s.remainingAllocation - w.charge inp.abi
    parses := s.parses + 1 }

/-- A parse gives a node exactly for a tree that stands at the cursor. -/
theorem parseAt_node (hs : s.remainingAllocation < 2 ^ 64) (hdepth : depth ≤ cursor)
    {parse : ℕ} {n : Node} :
    parseAt inp cursor depth s = .ok (.node parse n) t ↔
      ∃ w, Parses inp cursor depth s w t ∧ parse = s.parses ∧ n = w.layout cursor depth := by
  have hspec := parseNode_returns (le_refl inp.size) (nodeFuel inp.limits depth) depth
    (by unfold nodeFuel; omega)
  unfold parseAt onBudget
  cases h : parseNode inp (nodeFuel inp.limits depth) cursor inp.size depth
    s.remainingAllocation with
  | ok a r =>
    obtain ⟨n', next⟩ := a
    obtain ⟨w, cost, hw, hcost⟩ := (hspec _ _ _ _ _ hdepth hs).mp h
    have hnext := hw.next_eq
    have hce := hw.cost_eq
    have hle := hw.next_le
    simp only [EStateM.Result.ok.injEq, InputValue.node.injEq]
    constructor
    · rintro ⟨⟨rfl, rfl⟩, rfl⟩
      refine ⟨w, ⟨hw.fits, hw.stands, by omega, by omega, ?_⟩, rfl, hw.node_eq⟩
      rw [hnext, ← hce, show s.remainingAllocation - cost = r by omega]
    · rintro ⟨w', hw', rfl, rfl⟩
      obtain ⟨hn, hr⟩ := Returns.unique ((hspec _ _ _ _ _ hdepth hs).mpr
        ⟨w', _, ⟨hw'.fits, hw'.stands, rfl, hw'.end_le, rfl, rfl⟩,
          (Nat.sub_add_cancel hw'.charge_le).symm⟩) h
      obtain ⟨rfl, rfl⟩ := Prod.mk.inj hn
      rw [hw'.state_eq, hr]
      exact ⟨⟨rfl, rfl⟩, rfl⟩
  | error e r =>
    have hnone : ¬∃ w, Parses inp cursor depth s w t ∧ parse = s.parses ∧
        n = w.layout cursor depth := by
      rintro ⟨w, hw, -, -⟩
      have hok := (hspec _ _ _ _ _ hdepth hs).mpr
        ⟨w, _, ⟨hw.fits, hw.stands, rfl, hw.end_le, rfl, rfl⟩,
          (Nat.sub_add_cancel hw.charge_le).symm⟩
      cases hok.symm.trans h
    cases e with
    | error e => simpa using hnone
    | outOfBounds => simpa using hnone
    | wrapped => simpa using hnone
    | outOfFuel => simpa using hnone

/-- A parse always ends with a handle: it has no fault. -/
theorem parseAt_safe (hs : s.remainingAllocation < 2 ^ 64) (hdepth : depth ≤ cursor)
    (hmax : depth ≤ inp.limits.maxDepth + 1) :
    ∃ v t, parseAt inp cursor depth s = .ok v t := by
  have hsafe := parseNode_failsOnly (le_refl inp.size) (nodeFuel inp.limits depth)
    depth (by unfold nodeFuel; omega) hmax cursor s.remainingAllocation hdepth hs
  unfold parseAt onBudget
  obtain ⟨⟨n, next⟩, r, h⟩ | ⟨e, r, h, he⟩ := hsafe.cases
  · rw [h]
    exact ⟨_, _, rfl⟩
  · rw [h]
    cases e with
    | error e => exact ⟨_, _, rfl⟩
    | outOfBounds => exact he.elim
    | wrapped => exact he.elim
    | outOfFuel => exact he.elim

theorem init_budget (inp : Input) :
    (init inp).remainingAllocation = inp.limits.maxTotalAllocatedBytes := by
  unfold init
  split_ifs <;> rfl

theorem root_error {e : Error} (h : s.error = some e) : root inp s = .ok (.error e) s := by
  unfold root
  rw [get_bind_apply, h]
  rfl

theorem root_eq (h : s.error = none) :
    root inp s = (if s.framed then parseAt inp s.offset 0 else rawValue inp) s := by
  unfold root
  rw [get_bind_apply, h]

theorem root_framed (h : (init inp).framed = true) :
    root inp (init inp) = parseAt inp binaryMagic.length 0 (init inp) := by
  have herror : (init inp).error = none ∧ (init inp).offset = binaryMagic.length := by
    revert h
    unfold init
    split_ifs <;> simp
  rw [root_eq herror.1, herror.2, if_pos h]

/-- What holds of the nodes of an accepted document. -/
structure DocumentBounded (inp : Input) (n : Node) (s : State) : Prop where
  nodes : ∀ m ∈ n.all, NodeBounded inp m
  depth : n.depth = 0
  count : n.all.length ≤ inp.size
  allocation : n.cost inp.abi + s.remainingAllocation = inp.limits.maxTotalAllocatedBytes

/-- **Parsing a document is bounded.** Whatever the bytes and the limits are, it ends without a
read outside the buffer and without leaving the range of `size_t`; and if it gives a node, the
nodes of the document keep their bounds and the charges add up to at most the budget. -/
theorem parse_bounded (inp : Input) :
    ∃ v s, root inp (init inp) = .ok v s ∧
      ∀ parse n, v = .node parse n → DocumentBounded inp n s := by
  have hs : (init inp).remainingAllocation < 2 ^ 64 := by
    rw [init_budget]
    exact inp.limits_lt.budget
  cases hframed : (init inp).framed with
  | true =>
    rw [root_framed hframed]
    obtain ⟨v, s, h⟩ : ∃ v s, parseAt inp binaryMagic.length 0 (init inp) = .ok v s :=
      parseAt_safe hs (Nat.zero_le _) (Nat.zero_le _)
    refine ⟨v, s, h, ?_⟩
    rintro parse n rfl
    obtain ⟨w, hw, -, rfl⟩ := (parseAt_node hs (Nat.zero_le _)).mp h
    have hlen := length_all_le w binaryMagic.length 0
    have hend := hw.end_le
    refine ⟨all_bounded w _ 0 hw.fits hend, layout_depth w, by omega, ?_⟩
    rw [hw.state_eq, cost_layout, ← init_budget]
    exact Nat.add_sub_of_le hw.charge_le
  | false =>
    cases herror : (init inp).error with
    | some e => exact ⟨.error e, init inp, root_error herror, by simp⟩
    | none =>
      rw [root_eq herror, if_neg (by simp [hframed])]
      exact ⟨_, _, rfl, by simp⟩

end Reader

end NekoProto.Binary
