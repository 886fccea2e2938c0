import NekoProto.Binary.ParseBudget
import NekoProto.Parsing.ReadKeeps

/-!
# Handles of the Reader

The nodes that handles stand for are nodes of trees that the parser accepts (`Parsed`), so they
keep the bounds of such a tree, and the operations on them have no fault. A handle leads to its own
node and to all nodes below it (`nodes`), and not to others.
-/

namespace NekoProto.Binary

open Outcome Segment

variable {inp : Input} {n c : Node}

/-! ## Nodes -/

/-- A node of a tree that the parser accepts. -/
def Parsed (inp : Input) (n : Node) : Prop :=
  ∃ (w : Wire) (pos depth : ℕ), n = w.layout pos depth ∧ w.Fits inp.limits depth ∧
    pos + w.encode.length ≤ inp.size ∧ depth ≤ pos

theorem parsed_of_mem_layoutList {ws : List Wire} {pos depth : ℕ}
    (hfits : Wire.FitsList inp.limits depth ws)
    (hend : pos + (Wire.encodeList ws).length ≤ inp.size)
    (hdepth : depth ≤ pos) (h : n ∈ Wire.layoutList pos depth ws) : Parsed inp n := by
  induction ws generalizing pos with
  | nil => cases h
  | cons w ws ih =>
    simp only [Wire.encodeList, List.length_append] at hend
    obtain rfl | h := List.mem_cons.mp h
    · exact ⟨w, pos, depth, rfl, hfits.1, by omega, hdepth⟩
    · exact ih hfits.2 (by omega) (by omega) h

theorem parsed_of_mem_layoutMembers {named : Bool} {ms : List (Key × Wire)} {pos depth : ℕ}
    (hfits : Wire.FitsMembers inp.limits named depth ms)
    (hend : pos + (Wire.encodeMembers named ms).length ≤ inp.size) (hdepth : depth ≤ pos)
    (h : n ∈ (Wire.layoutMembers named pos depth ms).map Member.value) : Parsed inp n := by
  induction ms generalizing pos with
  | nil => cases h
  | cons m ms ih =>
    obtain ⟨key, w⟩ := m
    simp only [Wire.encodeMembers, List.length_append] at hend
    obtain rfl | h := List.mem_cons.mp h
    · exact ⟨w, _, depth, rfl, hfits.2.1, by omega, by omega⟩
    · exact ih hfits.2.2 (by omega) (by omega) h

namespace Parsed

theorem bounded (h : Parsed inp n) : NodeBounded inp n := by
  obtain ⟨w, pos, depth, rfl, hfits, hend, -⟩ := h
  exact layout_bounded hfits hend

theorem depth_le (h : Parsed inp n) : n.depth ≤ n.begin := by
  obtain ⟨w, pos, depth, rfl, -, -, hdepth⟩ := h
  rw [layout_depth, layout_begin]
  exact hdepth

theorem child (h : Parsed inp n) (hc : c ∈ n.children) : Parsed inp c := by
  obtain ⟨w, pos, depth, rfl, hfits, hend, hdepth⟩ := h
  cases w with
  | array elements =>
    simp only [Wire.encode, List.length_cons, List.length_append] at hend
    simp only [Wire.layout, Node.children, Node.elements, Node.members, List.map_nil,
      List.append_nil] at hc
    exact parsed_of_mem_layoutList hfits.2.2 (by omega) (by omega) hc
  | object named members =>
    simp only [Wire.encode, List.length_cons, List.length_append] at hend
    simp only [Wire.layout, Node.children, Node.elements, Node.members, List.nil_append] at hc
    exact parsed_of_mem_layoutMembers hfits.2.2.2 (by omega) (by omega) hc
  | _ => simp [Wire.layout, Node.children, Node.elements, Node.members] at hc

end Parsed

theorem mem_allList {ns : List Node} {m : Node} (hn : n ∈ ns) (hm : m ∈ n.all) :
    m ∈ Node.allList ns := by
  induction ns with
  | nil => cases hn
  | cons n' ns ih =>
    obtain rfl | hn := List.mem_cons.mp hn
    · exact List.mem_append_left _ hm
    · exact List.mem_append_right _ (ih hn)

theorem mem_allMembers {ms : List (Member Node)} {m : Node} (hn : n ∈ ms.map Member.value)
    (hm : m ∈ n.all) : m ∈ Node.allMembers ms := by
  induction ms with
  | nil => cases hn
  | cons member ms ih =>
    obtain rfl | hn := List.mem_cons.mp hn
    · exact List.mem_append_left _ hm
    · exact List.mem_append_right _ (ih hn)

/-- The nodes below a child are below its parent. -/
theorem all_subset (hc : c ∈ n.children) : ∀ m ∈ c.all, m ∈ n.all := by
  intro m hm
  obtain ⟨tag, b, db, de, e, d, es, ms⟩ := n
  refine List.mem_cons_of_mem _ (List.mem_append.mpr ?_)
  obtain hc | hc := List.mem_append.mp hc
  · exact .inl (mem_allList hc hm)
  · exact .inr (mem_allMembers hc hm)

theorem self_mem_all : n ∈ n.all := by
  obtain ⟨tag, b, db, de, e, d, es, ms⟩ := n
  exact List.mem_cons_self

end NekoProto.Binary
