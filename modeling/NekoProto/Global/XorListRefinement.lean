import Mathlib.Algebra.Order.Ring.Nat
import Mathlib.Data.List.Induction
import Mathlib.Data.List.Nodup
import Mathlib.Data.List.Perm.Subperm
import NekoProto.Global.XorList

/-!
# The XOR list holds a list

What `xor_list` holds is a list of nodes (`Holds`), and its operations are those of the list.

1. Each operation leaves a chain of links from the head to the tail (`Holds.pushFront`,
   `Holds.popFront`, `Holds.erase` and their likes). Of the links it writes, the first and the
   last node of a chain get another neighbour, and the rest of the chain is as before.
2. An iterator stands between two parts of the list. It moves from one to the other, visits the
   rest of the list in either direction (`Holds.forward`, `Holds.backward`), and erasing behind
   it leaves it between what is left.
3. So every run of legal calls succeeds and agrees with the list (`xorList_refines`).
-/

namespace NekoProto.Global

open XorChain

namespace Memory

variable {m : Memory} {x p n : Ptr}

theorem next_eq (h : m x = some (p ^^^ n)) : m.next x p = some n := by
  unfold next
  rw [h, Option.map_some, xor_link]

theorem pre_eq (h : m x = some (p ^^^ n)) : m.pre x n = some p := by
  unfold pre
  rw [h, Option.map_some, xor_link_right]

theorem set_eq (h : (m x).isSome = true) (p n : Ptr) :
    m.set x p n = some (Function.update m x (some (p ^^^ n))) := by
  obtain ⟨link, hlink⟩ := Option.isSome_iff_exists.mp h
  unfold set
  rw [hlink, Option.map_some]

/-- A write to a node leaves the nodes that exist. -/
theorem isSome_update {y : Ptr} (h : (m x).isSome = true) (link : Ptr) :
    (Function.update m x (some link) y).isSome = (m y).isSome := by
  by_cases hy : y = x
  · rw [hy, Function.update_self, h]
    rfl
  · rw [Function.update_of_ne hy]

end Memory

namespace XorList

/-! ## What the list holds -/

/-- The nodes of `l`, in their order, are the list. -/
structure Holds (nodes : Set Ptr) (s : XorList) (l : List Ptr) : Prop where
  memory : ∀ p, (s.memory p).isSome = true ↔ p ∈ nodes
  nodup : l.Nodup
  subset : ∀ p ∈ l, p ∈ nodes
  head_eq : s.head = l.headD 0
  tail_eq : s.tail = l.getLastD 0
  size_eq : s.size = BitVec.ofNat 64 l.length
  chain : Chain s.memory 0 l 0

theorem size_succ (n : ℕ) : BitVec.ofNat 64 n + 1 = BitVec.ofNat 64 (n + 1) :=
  (BitVec.ofNat_add n 1).symm

theorem size_pred (n : ℕ) : BitVec.ofNat 64 (n + 1) - 1 = BitVec.ofNat 64 n := by
  rw [← size_succ, BitVec.add_sub_cancel]

section

variable {nodes : Set Ptr} {s : XorList} {l as bs : List Ptr} {x node : Ptr}

theorem Holds.isSome (h : Holds nodes s l) (hx : x ∈ l) : (s.memory x).isSome = true :=
  (h.memory x).mpr (h.subset x hx)

theorem Holds.ne_null (hnull : (0 : Ptr) ∉ nodes) (h : Holds nodes s l) (hx : x ∈ l) : x ≠ 0 := by
  rintro rfl
  exact hnull (h.subset 0 hx)

theorem Holds.empty_iff (hnull : (0 : Ptr) ∉ nodes) (h : Holds nodes s l) :
    s.empty = true ↔ l = [] := by
  unfold empty
  rw [h.head_eq, decide_eq_true_eq]
  cases l with
  | nil => exact iff_of_true rfl rfl
  | cons x xs => exact iff_of_false (h.ne_null hnull List.mem_cons_self) (List.cons_ne_nil _ _)

/-- The domain of the memory after a write to a node. -/
theorem memory_update {m : Memory} (h : ∀ p, (m p).isSome = true ↔ p ∈ nodes)
    (hx : (m x).isSome = true) (link p : Ptr) :
    (Function.update m x (some link) p).isSome = true ↔ p ∈ nodes := by
  rw [Memory.isSome_update hx]
  exact h p

/-! ## Pushing -/

theorem Holds.pushFront (hnull : (0 : Ptr) ∉ nodes) (h : Holds nodes s l) (hnode : node ∈ nodes)
    (hnew : node ∉ l) : ∃ s', s.pushFront node = some s' ∧ Holds nodes s' (node :: l) := by
  have hnodeSome := (h.memory node).mpr hnode
  have hsubset : ∀ p ∈ node :: l, p ∈ nodes := List.forall_mem_cons.mpr ⟨hnode, h.subset⟩
  have hsize : s.size + 1 = BitVec.ofNat 64 (l.length + 1) := by rw [h.size_eq, size_succ]
  unfold XorList.pushFront
  cases l with
  | nil =>
    rw [if_pos ((h.empty_iff hnull).mpr rfl), Memory.set_eq hnodeSome]
    exact ⟨_, rfl, memory_update h.memory hnodeSome _, List.nodup_singleton node, hsubset, rfl,
      rfl, hsize, Function.update_self .., trivial⟩
  | cons x xs =>
    have hxs : x ∉ xs := (List.nodup_cons.mp h.nodup).1
    have hne : node ≠ x := fun heq => hnew (heq ▸ List.mem_cons_self)
    have hchain : Chain (Function.update s.memory node (some (0 ^^^ x))) 0 (x :: xs) 0 :=
      h.chain.update hnew
    have hmemory := memory_update h.memory hnodeSome (0 ^^^ x)
    have hx := (hmemory x).mpr (h.subset x List.mem_cons_self)
    have hhead : s.head = x := h.head_eq
    rw [if_neg (mt (h.empty_iff hnull).mp (List.cons_ne_nil _ _)), hhead,
      Memory.set_eq hnodeSome, Option.bind_eq_bind, Option.bind_some, Memory.next_eq hchain.1,
      Option.bind_eq_bind, Option.bind_some, Memory.set_eq hx]
    refine ⟨_, rfl, memory_update hmemory hx _, List.nodup_cons.mpr ⟨hnew, h.nodup⟩, hsubset,
      rfl, h.tail_eq, hsize, ?_, hchain.setFirst node hxs⟩
    exact (Function.update_of_ne hne ..).trans (Function.update_self ..)

theorem Holds.pushBack (hnull : (0 : Ptr) ∉ nodes) (h : Holds nodes s l) (hnode : node ∈ nodes)
    (hnew : node ∉ l) : ∃ s', s.pushBack node = some s' ∧ Holds nodes s' (l ++ [node]) := by
  have hnodeSome := (h.memory node).mpr hnode
  have hsubset : ∀ p ∈ l ++ [node], p ∈ nodes := by
    intro p hp
    rcases List.mem_append.mp hp with hp | hp
    · exact h.subset p hp
    · exact List.mem_singleton.mp hp ▸ hnode
  have hsize : s.size + 1 = BitVec.ofNat 64 (l ++ [node]).length := by
    rw [h.size_eq, size_succ, List.length_append, List.length_singleton]
  unfold XorList.pushBack
  rcases List.eq_nil_or_concat' l with rfl | ⟨as, x, rfl⟩
  · rw [if_pos ((h.empty_iff hnull).mpr rfl), Memory.set_eq hnodeSome]
    exact ⟨_, rfl, memory_update h.memory hnodeSome _, List.nodup_singleton node, hsubset, rfl,
      rfl, hsize, Function.update_self .., trivial⟩
  · have hxmem : x ∈ as ++ [x] := List.mem_append_right _ List.mem_cons_self
    have has : x ∉ as := List.disjoint_right.mp (List.disjoint_of_nodup_append h.nodup)
      List.mem_cons_self
    have hne : node ≠ x := fun heq => hnew (heq ▸ hxmem)
    have hchain : Chain (Function.update s.memory node (some (x ^^^ 0))) 0 (as ++ [x]) 0 :=
      h.chain.update hnew
    have hmemory := memory_update h.memory hnodeSome (x ^^^ 0)
    have hx := (hmemory x).mpr (h.subset x hxmem)
    have htail : s.tail = x := h.tail_eq.trans (getLastD_concat as)
    have hlink : Function.update s.memory node (some (x ^^^ 0)) x = some (as.getLastD 0 ^^^ 0) :=
      hchain.link
    rw [if_neg (mt (h.empty_iff hnull).mp (by simp)), htail,
      Memory.set_eq hnodeSome, Option.bind_eq_bind, Option.bind_some, Memory.pre_eq hlink,
      Option.bind_eq_bind, Option.bind_some, Memory.set_eq hx]
    refine ⟨_, rfl, memory_update hmemory hx _, ?_, hsubset, ?_, ?_, hsize, ?_⟩
    · exact List.nodup_append_comm.mp (List.nodup_cons.mpr ⟨hnew, h.nodup⟩)
    · rw [headD_append, h.head_eq]
      cases as <;> rfl
    · exact (getLastD_concat _).symm
    · refine chain_append.mpr ⟨hchain.setLast node has, ?_, trivial⟩
      rw [getLastD_concat]
      exact (Function.update_of_ne hne ..).trans (Function.update_self ..)

/-! ## Popping -/

theorem Holds.popFront (hnull : (0 : Ptr) ∉ nodes) (h : Holds nodes s l) :
    ∃ s', s.popFront = some (s', l.headD 0) ∧ Holds nodes s' l.tail := by
  unfold XorList.popFront
  cases l with
  | nil =>
    rw [if_pos ((h.empty_iff hnull).mpr rfl)]
    exact ⟨s, rfl, h⟩
  | cons x xs =>
    have hhead : s.head = x := h.head_eq
    have hsize : s.size - 1 = BitVec.ofNat 64 xs.length := by
      rw [h.size_eq, List.length_cons, size_pred]
    have hsubset : ∀ p ∈ xs, p ∈ nodes := fun p hp => h.subset p (List.mem_cons_of_mem _ hp)
    obtain ⟨hlink, hrest⟩ := h.chain
    rw [if_neg (mt (h.empty_iff hnull).mp (List.cons_ne_nil _ _)), hhead, Memory.next_eq hlink,
      Option.bind_eq_bind, Option.bind_some]
    cases xs with
    | nil => exact ⟨_, rfl, h.memory, List.nodup_nil, hsubset, rfl, rfl, hsize, trivial⟩
    | cons y ys =>
      have hy : y ∈ x :: y :: ys := List.mem_cons_of_mem _ List.mem_cons_self
      have hnodup := (List.nodup_cons.mp h.nodup).2
      have hyne : (y :: ys).headD 0 ≠ 0 := h.ne_null hnull hy
      rw [if_pos hyne, List.headD_cons, Memory.next_eq hrest.1, Option.bind_eq_bind,
        Option.bind_some, Memory.set_eq (h.isSome hy)]
      exact ⟨_, rfl, memory_update h.memory (h.isSome hy) _, hnodup, hsubset, rfl, h.tail_eq,
        hsize, hrest.setFirst 0 (List.nodup_cons.mp hnodup).1⟩

theorem Holds.popBack (hnull : (0 : Ptr) ∉ nodes) (h : Holds nodes s l) :
    ∃ s', s.popBack = some (s', l.getLastD 0) ∧ Holds nodes s' l.dropLast := by
  unfold XorList.popBack
  rcases List.eq_nil_or_concat' l with rfl | ⟨xs, x, rfl⟩
  · rw [if_pos ((h.empty_iff hnull).mpr rfl)]
    exact ⟨s, rfl, h⟩
  · have htail : s.tail = x := h.tail_eq.trans (getLastD_concat xs)
    have hsize : s.size - 1 = BitVec.ofNat 64 xs.length := by
      rw [h.size_eq, List.length_append, List.length_singleton, size_pred]
    have hsubset : ∀ p ∈ xs, p ∈ nodes := fun p hp => h.subset p (List.mem_append_left _ hp)
    have hlink : s.memory x = some (xs.getLastD 0 ^^^ 0) := h.chain.link
    rw [if_neg (mt (h.empty_iff hnull).mp (by simp)), htail, Memory.pre_eq hlink,
      Option.bind_eq_bind, Option.bind_some, getLastD_concat, List.dropLast_concat]
    rcases List.eq_nil_or_concat' xs with rfl | ⟨ys, y, rfl⟩
    · exact ⟨_, rfl, h.memory, List.nodup_nil, hsubset, rfl, rfl, hsize, trivial⟩
    · have hy : y ∈ ys ++ [y] := List.mem_append_right _ List.mem_cons_self
      have hySome := h.isSome (List.mem_append_left _ hy)
      obtain ⟨hchain, -⟩ := chain_append.mp h.chain
      have hlast : s.memory y = some (ys.getLastD 0 ^^^ x) := hchain.link
      have hnodup := List.Nodup.of_append_left h.nodup
      have hyne : (ys ++ [y]).getLastD 0 ≠ 0 := by
        rw [getLastD_concat]
        exact h.ne_null hnull (List.mem_append_left _ hy)
      rw [if_pos hyne, getLastD_concat, Memory.pre_eq hlast, Option.bind_eq_bind,
        Option.bind_some, Memory.set_eq hySome]
      refine ⟨_, rfl, memory_update h.memory hySome _, hnodup, hsubset, ?_,
        (getLastD_concat _).symm, hsize, ?_⟩
      · rw [h.head_eq]
        cases ys <;> rfl
      · exact hchain.setLast 0 (List.disjoint_right.mp (List.disjoint_of_nodup_append hnodup)
          List.mem_cons_self)

/-! ## Erasing -/

/-- The list without its middle node is linked before that node. -/
theorem eraseBefore_eq (hnull : (0 : Ptr) ∉ nodes) (h : Holds nodes s (as ++ x :: bs)) :
    ∃ m, s.eraseBefore (as.getLastD 0) x (bs.headD 0) =
        some { s with memory := m, head := (as ++ bs).headD 0 } ∧
      (∀ p, (m p).isSome = true ↔ p ∈ nodes) ∧ Chain m 0 as (bs.headD 0) ∧ Chain m x bs 0 := by
  obtain ⟨hbefore, -, hafter⟩ := chain_append.mp h.chain
  unfold eraseBefore
  rcases List.eq_nil_or_concat' as with rfl | ⟨ps, p, rfl⟩
  · exact ⟨s.memory, rfl, h.memory, trivial, hafter⟩
  · have hp : p ∈ ps ++ [p] := List.mem_append_right _ List.mem_cons_self
    have hpSome := h.isSome (List.mem_append_left _ hp)
    have hpne : p ≠ 0 := h.ne_null hnull (List.mem_append_left _ hp)
    have hlink : s.memory p = some (ps.getLastD 0 ^^^ x) := hbefore.link
    have hps : p ∉ ps := List.disjoint_right.mp
      (List.disjoint_of_nodup_append (List.Nodup.of_append_left h.nodup)) List.mem_cons_self
    have hbs : p ∉ bs := fun hmem => List.disjoint_left.mp
      (List.disjoint_of_nodup_append h.nodup) hp (List.mem_cons_of_mem _ hmem)
    have hhead : s.head = ((ps ++ [p]) ++ bs).headD 0 := by
      rw [h.head_eq]
      cases ps <;> rfl
    rw [getLastD_concat, if_pos hpne, Memory.pre_eq hlink, Option.bind_eq_bind, Option.bind_some,
      Memory.set_eq hpSome, ← hhead]
    exact ⟨_, rfl, memory_update h.memory hpSome _, hbefore.setLast _ hps, hafter.update hbs⟩

/-- The list without its middle node is linked after that node. -/
theorem eraseAfter_eq (hnull : (0 : Ptr) ∉ nodes) (h : Holds nodes s (as ++ x :: bs))
    {t : XorList} (hmemory : ∀ p, (t.memory p).isSome = true ↔ p ∈ nodes)
    (htail : t.tail = s.tail) (hbefore : Chain t.memory 0 as (bs.headD 0))
    (hafter : Chain t.memory x bs 0) :
    ∃ m, t.eraseAfter (as.getLastD 0) x (bs.headD 0) =
        some { t with memory := m, tail := (as ++ bs).getLastD 0 } ∧
      (∀ p, (m p).isSome = true ↔ p ∈ nodes) ∧ Chain m 0 (as ++ bs) 0 := by
  unfold eraseAfter
  cases bs with
  | nil =>
    refine ⟨t.memory, ?_, hmemory, ?_⟩
    · rw [List.append_nil]
      rfl
    · rw [List.append_nil]
      exact hbefore
  | cons n ns =>
    have hn : n ∈ as ++ x :: n :: ns :=
      List.mem_append_right _ (List.mem_cons_of_mem _ List.mem_cons_self)
    have hnSome := (hmemory n).mpr (h.subset n hn)
    have hnne : n ≠ 0 := h.ne_null hnull hn
    have hns : n ∉ ns := (List.nodup_cons.mp
      (List.nodup_cons.mp (List.Nodup.of_append_right h.nodup)).2).1
    have has : n ∉ as := fun hmem => List.disjoint_left.mp
      (List.disjoint_of_nodup_append h.nodup) hmem (List.mem_cons_of_mem _ List.mem_cons_self)
    have htail' : t.tail = (as ++ n :: ns).getLastD 0 := by
      rw [htail, h.tail_eq]
      simp only [List.getLastD_eq_getLast?, List.getLast?_append, List.getLast?_cons_cons]
    rw [List.headD_cons, if_pos hnne, Memory.next_eq hafter.1, Option.bind_eq_bind,
      Option.bind_some, Memory.set_eq hnSome, ← htail']
    exact ⟨_, rfl, memory_update hmemory hnSome _,
      chain_append.mpr ⟨hbefore.update has, hafter.setFirst _ hns⟩⟩

/-- **Erasing a node** leaves the iterator between what was before and after it. -/
theorem Holds.erase (hnull : (0 : Ptr) ∉ nodes) (h : Holds nodes s (as ++ x :: bs)) :
    ∃ s', s.erase ⟨as.getLastD 0, x⟩ = some (s', ⟨as.getLastD 0, bs.headD 0⟩) ∧
      Holds nodes s' (as ++ bs) := by
  obtain ⟨m₁, heq₁, hmemory₁, hbefore, hafter⟩ := eraseBefore_eq hnull h
  obtain ⟨m₂, heq₂, hmemory₂, hchain⟩ := eraseAfter_eq hnull h
    (t := { s with memory := m₁, head := (as ++ bs).headD 0 }) hmemory₁ rfl hbefore hafter
  have hx : x ∈ as ++ x :: bs := List.mem_append_right _ List.mem_cons_self
  have hxSome := (hmemory₂ x).mpr (h.subset x hx)
  obtain ⟨hxnot, hnodup⟩ := List.nodup_cons.mp (List.nodup_middle.mp h.nodup)
  unfold XorList.erase
  rw [Memory.next_eq h.chain.link, Option.bind_eq_bind, Option.bind_some, heq₁,
    Option.bind_eq_bind, Option.bind_some, heq₂, Option.bind_eq_bind, Option.bind_some,
    Memory.set_eq hxSome]
  refine ⟨_, rfl, memory_update hmemory₂ hxSome _, hnodup, ?_, rfl, rfl, ?_,
    hchain.update hxnot⟩
  · intro p hp
    refine h.subset p ?_
    rcases List.mem_append.mp hp with hp | hp
    · exact List.mem_append_left _ hp
    · exact List.mem_append_right _ (List.mem_cons_of_mem _ hp)
  · show s.size - 1 = _
    rw [h.size_eq, List.length_append, List.length_cons, ← Nat.add_assoc, size_pred,
      List.length_append]

/-! ## Iterators -/

/-- The iterator between two parts of the list. -/
def between (as bs : List Ptr) : Iterator := ⟨as.getLastD 0, bs.headD 0⟩

theorem Holds.increment (h : Holds nodes s (as ++ x :: bs)) :
    (between as (x :: bs)).increment s.memory = some (between (as ++ [x]) bs) := by
  have hlink : s.memory x = some (as.getLastD 0 ^^^ bs.headD 0) := h.chain.link
  unfold Iterator.increment between
  rw [getLastD_concat]
  show (s.memory.next x (as.getLastD 0) >>= _) = _
  rw [Memory.next_eq hlink]
  rfl

theorem Holds.decrement (h : Holds nodes s (as ++ x :: bs)) :
    (between (as ++ [x]) bs).decrement s.memory = some (between as (x :: bs)) := by
  have hlink : s.memory x = some (as.getLastD 0 ^^^ bs.headD 0) := h.chain.link
  unfold Iterator.decrement between
  rw [getLastD_concat, Memory.pre_eq hlink]
  rfl

theorem Holds.begin_eq (h : Holds nodes s l) : s.begin = between [] l := by
  unfold XorList.begin between
  rw [h.head_eq]
  rfl

theorem Holds.end_eq (h : Holds nodes s l) : s.end = between l [] := by
  unfold XorList.end between
  rw [h.tail_eq]
  rfl

/-- Only at its end does an iterator compare equal to `end()`. -/
theorem current_eq_end (hnull : (0 : Ptr) ∉ nodes) (h : Holds nodes s (as ++ bs)) :
    (between as bs).current = s.end.current ↔ bs = [] := by
  cases bs with
  | nil => exact iff_of_true rfl rfl
  | cons x bs =>
    refine iff_of_false ?_ (List.cons_ne_nil _ _)
    exact h.ne_null hnull (List.mem_append_right _ List.mem_cons_self)

/-- Only at its beginning does an iterator compare equal to `begin()`. -/
theorem current_eq_begin (hnull : (0 : Ptr) ∉ nodes) (h : Holds nodes s (as ++ bs)) :
    (between as bs).current = s.begin.current ↔ as = [] := by
  rw [h.begin_eq]
  show bs.headD 0 = (as ++ bs).headD 0 ↔ _
  cases as with
  | nil => exact iff_of_true rfl rfl
  | cons y as =>
    have hy : y ∈ y :: as ++ bs := List.mem_append_left _ List.mem_cons_self
    refine iff_of_false ?_ (List.cons_ne_nil _ _)
    cases bs with
    | nil => exact (h.ne_null hnull hy).symm
    | cons x bs =>
      rintro rfl
      exact List.disjoint_left.mp (List.disjoint_of_nodup_append h.nodup) List.mem_cons_self
        List.mem_cons_self

/-- **Forward**, an iterator visits what is after it. -/
theorem Holds.forward (hnull : (0 : Ptr) ∉ nodes) : ∀ {bs as : List Ptr} {fuel : ℕ},
    Holds nodes s (as ++ bs) → bs.length ≤ fuel → s.forward fuel (between as bs) = some bs := by
  intro bs
  induction bs with
  | nil =>
    intro as fuel h _
    have hend := (current_eq_end hnull h).mpr rfl
    cases fuel with
    | zero => exact if_pos hend
    | succ fuel => exact if_pos hend
  | cons x bs ih =>
    intro as fuel h hfuel
    cases fuel with
    | zero => exact absurd hfuel (Nat.not_succ_le_zero _)
    | succ fuel =>
      have hend := mt (current_eq_end hnull h).mp (List.cons_ne_nil _ _)
      have hrest : Holds nodes s (as ++ [x] ++ bs) := by rwa [List.append_cons] at h
      rw [XorList.forward, if_neg hend, h.increment, Option.bind_eq_bind, Option.bind_some,
        ih hrest (Nat.le_of_succ_le_succ hfuel)]
      rfl

/-- **Backward**, an iterator visits what is before it. -/
theorem Holds.backward (hnull : (0 : Ptr) ∉ nodes) : ∀ {as bs : List Ptr} {fuel : ℕ},
    Holds nodes s (as ++ bs) → as.length ≤ fuel →
      s.backward fuel (between as bs) = some as.reverse := by
  intro as
  induction as using List.reverseRecOn with
  | nil =>
    intro bs fuel h _
    have hbegin := (current_eq_begin hnull h).mpr rfl
    cases fuel with
    | zero => exact if_pos hbegin
    | succ fuel => exact if_pos hbegin
  | append_singleton as x ih =>
    intro bs fuel h hfuel
    rw [List.length_append, List.length_singleton] at hfuel
    cases fuel with
    | zero => exact absurd hfuel (Nat.not_succ_le_zero _)
    | succ fuel =>
      have hbegin := mt (current_eq_begin hnull h).mp (by simp)
      have hrest : Holds nodes s (as ++ x :: bs) := by rwa [← List.append_cons] at h
      rw [XorList.backward, if_neg hbegin, hrest.decrement, Option.bind_eq_bind,
        Option.bind_some, ih hrest (Nat.le_of_succ_le_succ hfuel), List.reverse_append]
      rfl

/-! ## The ends -/

theorem Holds.front_eq (hnull : (0 : Ptr) ∉ nodes) (h : Holds nodes s l) : s.front = l.head? := by
  unfold front Memory.value
  rw [h.head_eq]
  cases l with
  | nil =>
    have hnone : s.memory 0 = none := by
      rw [← Option.not_isSome_iff_eq_none]
      exact mt (h.memory 0).mp hnull
    exact congrArg (Option.map fun _ => _) hnone
  | cons x xs => exact congrArg (Option.map fun _ => x) h.chain.1

theorem Holds.back_eq (hnull : (0 : Ptr) ∉ nodes) (h : Holds nodes s l) : s.back = l.getLast? := by
  unfold back Memory.value
  rw [h.tail_eq]
  rcases List.eq_nil_or_concat' l with rfl | ⟨xs, x, rfl⟩
  · have hnone : s.memory 0 = none := by
      rw [← Option.not_isSome_iff_eq_none]
      exact mt (h.memory 0).mp hnull
    exact congrArg (Option.map fun _ => _) hnone
  · rw [getLastD_concat, List.getLast?_concat]
    exact congrArg (Option.map fun _ => x) h.chain.link

/-- There are fewer nodes than the size can count. -/
theorem Holds.length_lt (hnull : (0 : Ptr) ∉ nodes) (h : Holds nodes s l) :
    l.length < 2 ^ 64 := by
  have hnodup : (l.map BitVec.toNat).Nodup :=
    (List.nodup_map_iff fun _ _ => BitVec.eq_of_toNat_eq).mpr h.nodup
  have hsubset : l.map BitVec.toNat ⊆ List.range' 1 (2 ^ 64 - 1) := by
    intro n hn
    obtain ⟨x, hx, rfl⟩ := List.mem_map.mp hn
    have hne : x.toNat ≠ 0 := fun hzero =>
      h.ne_null hnull hx (BitVec.eq_of_toNat_eq (hzero.trans rfl))
    have hlt := x.isLt
    rw [List.mem_range'_1]
    omega
  have hle := (List.subperm_of_subset hnodup hsubset).length_le
  rw [List.length_map, List.length_range'] at hle
  omega

theorem Holds.size_toNat (hnull : (0 : Ptr) ∉ nodes) (h : Holds nodes s l) :
    s.size.toNat = l.length := by
  rw [h.size_eq, BitVec.toNat_ofNat, Nat.mod_eq_of_lt (h.length_lt hnull)]

end

/-! ## Calls -/

/-- The position that an iterator is moved to, in a list of some length. -/
def Cursor.position (cursor : Cursor) (length : ℕ) : Option ℕ :=
  cursor.moves.foldlM
    (fun i forward =>
      if forward then if i < length then some (i + 1) else none
      else if 0 < i then some (i - 1) else none)
    (if cursor.fromEnd then length else 0)

/-- The calls that a list takes: a node that is pushed is not in it, and an iterator that is erased
stays in it and has a node. -/
def Legal (nodes : Set Ptr) (l : List Ptr) : Call → Prop
  | .pushFront node => node ∈ nodes ∧ node ∉ l
  | .pushBack node => node ∈ nodes ∧ node ∉ l
  | .erase cursor => ∃ i, cursor.position l.length = some i ∧ i < l.length
  | _ => True

/-- The list after a call. -/
def Call.apply (l : List Ptr) : Call → List Ptr
  | .pushFront node => node :: l
  | .pushBack node => l ++ [node]
  | .popFront => l.tail
  | .popBack => l.dropLast
  | .erase cursor => ((cursor.position l.length).map l.eraseIdx).getD l
  | .clear => []

/-- What a call returns is that of the list. The iterator after an erased node is at its successor,
and visits the nodes after it and, backward, those before it. -/
def Agrees (s' : XorList) (l : List Ptr) : Call → Returned → Prop
  | .popFront, r => r = .node (l.headD 0)
  | .popBack, r => r = .node (l.getLastD 0)
  | .erase cursor, r => ∃ i it, cursor.position l.length = some i ∧ r = .iterator it ∧
    it.current = (l.drop (i + 1)).headD 0 ∧ ∀ fuel, l.length ≤ fuel →
      s'.forward fuel it = some (l.drop (i + 1)) ∧
      s'.backward fuel it = some (l.take i).reverse
  | _, r => r = .nothing

section

variable {nodes : Set Ptr} {s s' : XorList} {l : List Ptr}

/-- A move of an iterator is one of its position. -/
theorem Holds.move (h : Holds nodes s l) {i j : ℕ} (hi : i ≤ l.length) {forward : Bool}
    (hj : (if forward then if i < l.length then some (i + 1) else none
      else if 0 < i then some (i - 1) else none) = some j) :
    j ≤ l.length ∧ s.move (between (l.take i) (l.drop i)) forward =
      some (between (l.take j) (l.drop j)) := by
  have hsplit : Holds nodes s (l.take i ++ l.drop i) := by rwa [List.take_append_drop]
  unfold XorList.move
  cases forward with
  | true =>
    simp only [if_true] at hj ⊢
    split_ifs at hj with hlt
    obtain rfl := Option.some.inj hj
    rw [List.drop_eq_getElem_cons hlt] at hsplit ⊢
    rw [hsplit.increment, List.take_append_getElem hlt]
    exact ⟨hlt, rfl⟩
  | false =>
    simp only [Bool.false_eq_true, if_false] at hj ⊢
    split_ifs at hj with hpos
    obtain rfl := Option.some.inj hj
    obtain ⟨k, rfl⟩ := Nat.exists_eq_add_of_lt hpos
    have hlt : k < l.length := by omega
    have hk : 0 + k + 1 = k + 1 := by omega
    rw [hk, ← List.take_append_getElem hlt, ← List.append_cons] at hsplit
    rw [hk, ← List.take_append_getElem hlt, hsplit.decrement, Nat.add_sub_cancel,
      List.drop_eq_getElem_cons hlt]
    exact ⟨Nat.le_of_lt hlt, rfl⟩

theorem Holds.moves (h : Holds nodes s l) : ∀ {moves : List Bool} {i j : ℕ}, i ≤ l.length →
    moves.foldlM (fun i forward =>
      if forward then if i < l.length then some (i + 1) else none
      else if 0 < i then some (i - 1) else none) i = some j →
    j ≤ l.length ∧ moves.foldlM s.move (between (l.take i) (l.drop i)) =
      some (between (l.take j) (l.drop j)) := by
  intro moves
  induction moves with
  | nil =>
    intro i j hi hj
    obtain rfl := Option.some.inj hj
    exact ⟨hi, rfl⟩
  | cons forward moves ih =>
    intro i j hi hj
    rw [List.foldlM_cons] at hj ⊢
    obtain ⟨i', hi', hj⟩ := Option.bind_eq_some_iff.mp hj
    obtain ⟨hle, hmove⟩ := h.move hi hi'
    rw [hmove]
    exact ih hle hj

/-- **A fresh iterator** is where its moves lead. -/
theorem Holds.obtain_eq (h : Holds nodes s l) {cursor : Cursor} {i : ℕ}
    (hi : cursor.position l.length = some i) :
    s.obtain cursor = some (between (l.take i) (l.drop i)) := by
  have hstart : (if cursor.fromEnd then s.end else s.begin) =
      between (l.take (if cursor.fromEnd then l.length else 0))
        (l.drop (if cursor.fromEnd then l.length else 0)) := by
    split_ifs
    · rw [h.end_eq, List.take_length, List.drop_length]
    · exact h.begin_eq
  unfold obtain
  rw [hstart]
  refine (h.moves ?_ hi).2
  split_ifs
  · exact Nat.le_refl _
  · exact Nat.zero_le _

/-- **A legal call** succeeds, keeps what the list holds and agrees with it. -/
theorem Holds.call (hnull : (0 : Ptr) ∉ nodes) (h : Holds nodes s l) (c : Call)
    (hlegal : Legal nodes l c) :
    ∃ s' r, s.call c = some (s', r) ∧ Holds nodes s' (c.apply l) ∧ Agrees s' l c r := by
  cases c with
  | pushFront node =>
    obtain ⟨s', heq, h'⟩ := h.pushFront hnull hlegal.1 hlegal.2
    exact ⟨s', .nothing, congrArg (Option.map fun s => (s, Returned.nothing)) heq, h', rfl⟩
  | pushBack node =>
    obtain ⟨s', heq, h'⟩ := h.pushBack hnull hlegal.1 hlegal.2
    exact ⟨s', .nothing, congrArg (Option.map fun s => (s, Returned.nothing)) heq, h', rfl⟩
  | popFront =>
    obtain ⟨s', heq, h'⟩ := h.popFront hnull
    exact ⟨s', _, congrArg (Option.map fun r : XorList × Ptr => (r.1, Returned.node r.2)) heq, h',
      rfl⟩
  | popBack =>
    obtain ⟨s', heq, h'⟩ := h.popBack hnull
    exact ⟨s', _, congrArg (Option.map fun r : XorList × Ptr => (r.1, Returned.node r.2)) heq, h',
      rfl⟩
  | erase cursor =>
    obtain ⟨i, hi, hlt⟩ := hlegal
    have hsplit : Holds nodes s (l.take i ++ l[i] :: l.drop (i + 1)) := by
      rwa [← List.drop_eq_getElem_cons hlt, List.take_append_drop]
    obtain ⟨s', heq, h'⟩ := hsplit.erase hnull
    have hobtain := h.obtain_eq hi
    rw [List.drop_eq_getElem_cons hlt] at hobtain
    have hcall : s.call (.erase cursor) =
        some (s', .iterator (between (l.take i) (l.drop (i + 1)))) := by
      unfold XorList.call
      simp only [hobtain, Option.bind_eq_bind, Option.bind_some]
      exact congrArg (fun o => o.bind fun r => some (r.1, Returned.iterator r.2)) heq
    have happly : (Call.erase cursor).apply l = l.take i ++ l.drop (i + 1) := by
      show ((cursor.position l.length).map l.eraseIdx).getD l = _
      rw [hi, Option.map_some, Option.getD_some, List.eraseIdx_eq_take_drop_succ]
    refine ⟨s', _, hcall, happly ▸ h', i, _, hi, rfl, rfl, fun fuel hfuel => ?_⟩
    have htake : (l.take i).length ≤ fuel := by
      rw [List.length_take]
      omega
    have hdrop : (l.drop (i + 1)).length ≤ fuel := by
      rw [List.length_drop]
      omega
    exact ⟨h'.forward hnull hdrop, h'.backward hnull htake⟩
  | clear =>
    refine ⟨s.clear, .nothing, rfl, ?_, rfl⟩
    exact ⟨h.memory, List.nodup_nil, List.forall_mem_nil _, rfl, rfl, rfl, trivial⟩

/-- The lists that legal calls reach from a new one, with the lists of nodes they hold. -/
inductive Reaches (nodes : Set Ptr) : XorList → List Ptr → Prop
  | new {m : Memory} (h : ∀ p, (m p).isSome = true ↔ p ∈ nodes) : Reaches nodes { memory := m } []
  | call {s s' : XorList} {l : List Ptr} {c : Call} {r : Returned} (h : Reaches nodes s l)
      (hlegal : Legal nodes l c) (hcall : s.call c = some (s', r)) : Reaches nodes s' (c.apply l)

theorem Reaches.holds (hnull : (0 : Ptr) ∉ nodes) (h : Reaches nodes s l) : Holds nodes s l := by
  induction h with
  | new hm => exact ⟨hm, List.nodup_nil, List.forall_mem_nil _, rfl, rfl, rfl, trivial⟩
  | @call s s' l c r h hlegal hcall ih =>
    obtain ⟨s₁, r₁, heq, h₁, -⟩ := ih.call hnull c hlegal
    obtain ⟨rfl, -⟩ := Prod.mk.inj (Option.some.inj (heq.symm.trans hcall))
    exact h₁

/-- **The XOR list refines the list.** After any legal calls it is traversed in the order of the
list in both directions, agrees with it on its ends, its size and on being empty, and every further
legal call succeeds and returns what it returns of the list. -/
theorem xorList_refines (nodes : Set Ptr) (hnull : (0 : Ptr) ∉ nodes) (s : XorList)
    (l : List Ptr) (h : Reaches nodes s l) :
    (∀ fuel, l.length ≤ fuel → s.forward fuel s.begin = some l ∧
      s.backward fuel s.end = some l.reverse) ∧
    s.front = l.head? ∧ s.back = l.getLast? ∧ s.size.toNat = l.length ∧
    (s.empty = true ↔ l = []) ∧
    ∀ c, Legal nodes l c → ∃ s' r, s.call c = some (s', r) ∧ Reaches nodes s' (c.apply l) ∧
      Agrees s' l c r := by
  have hholds := h.holds hnull
  refine ⟨fun fuel hfuel => ?_, hholds.front_eq hnull, hholds.back_eq hnull,
    hholds.size_toNat hnull, hholds.empty_iff hnull, fun c hlegal => ?_⟩
  · have hend : Holds nodes s (l ++ []) := by rwa [List.append_nil]
    have hbegin : Holds nodes s ([] ++ l) := hholds
    rw [hholds.begin_eq, hholds.end_eq]
    exact ⟨hbegin.forward hnull hfuel, hend.backward hnull hfuel⟩
  · obtain ⟨s', r, hcall, -, hagrees⟩ := hholds.call hnull c hlegal
    exact ⟨s', r, hcall, h.call hlegal hcall, hagrees⟩

/-- Two nodes are pushed and the first is erased: the iterator goes on to the other. -/
theorem xorList_refines_erase :
    ∃ s s' : XorList, Reaches ({1, 2} : Set Ptr) s [2, 1] ∧
      s.forward 2 s.begin = some [2, 1] ∧ s.backward 2 s.end = some [1, 2] ∧
      Reaches ({1, 2} : Set Ptr) s' [1] ∧ s'.front = some 1 ∧
      ∃ it, s.call (.erase ⟨false, []⟩) = some (s', .iterator it) ∧ it.current = 1 := by
  let m : Memory := fun p => if p = 1 ∨ p = 2 then some 0 else none
  have hm : ∀ p, (m p).isSome = true ↔ p ∈ ({1, 2} : Set Ptr) := by
    intro p
    show (if p = 1 ∨ p = 2 then some (0 : Ptr) else none).isSome = true ↔ p = 1 ∨ p = 2
    split_ifs with hp
    · exact iff_of_true rfl hp
    · exact iff_of_false (by decide) hp
  have hnull : (0 : Ptr) ∉ ({1, 2} : Set Ptr) := by
    show ¬((0 : Ptr) = 1 ∨ (0 : Ptr) = 2)
    decide
  obtain ⟨-, -, -, -, -, hcall⟩ := xorList_refines _ hnull _ _ (.new hm)
  obtain ⟨s₁, -, -, hreaches₁, -⟩ := hcall (.pushFront 2) ⟨Or.inr rfl, List.not_mem_nil⟩
  obtain ⟨-, -, -, -, -, hcall₁⟩ := xorList_refines _ hnull s₁ [2] hreaches₁
  obtain ⟨s₂, -, -, hreaches₂, -⟩ := hcall₁ (.pushBack 1) ⟨Or.inl rfl, by decide⟩
  obtain ⟨htraversed, -, -, -, -, hcall₂⟩ := xorList_refines _ hnull s₂ [2, 1] hreaches₂
  obtain ⟨s₃, r, herase, hreaches₃, i, it, hi, rfl, hcurrent, -⟩ :=
    hcall₂ (.erase ⟨false, []⟩) ⟨0, rfl, by decide⟩
  obtain rfl : 0 = i := Option.some.inj hi
  obtain ⟨hforward, hbackward⟩ := htraversed 2 le_rfl
  exact ⟨s₂, s₃, hreaches₂, hforward, hbackward, hreaches₃,
    (xorList_refines _ hnull s₃ [1] hreaches₃).2.1, it, herase, hcurrent⟩

end

end XorList

end NekoProto.Global
