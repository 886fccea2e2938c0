import Mathlib.Data.Nat.Notation
import NekoProto.Lib.XorChain

/-!
# The intrusive XOR list

`xor_list` of `xor_list.hpp` over nodes that are held elsewhere. A node is its address, the null
pointer is 0; the memory holds the links of the nodes that exist. An operation is `none` where
the source follows a pointer to no node.
-/

namespace NekoProto.Global

/-! ## Nodes -/

/-- A pointer to a node. -/
abbrev Ptr := BitVec 64

/-- The member `link_` of the nodes that exist. -/
abbrev Memory := XorChain.Memory 64

namespace Memory

/-- `next`. -/
def next (m : Memory) (node pre : Ptr) : Option Ptr := (m node).map fun link => pre ^^^ link

/-- `pre`. -/
def pre (m : Memory) (node next : Ptr) : Option Ptr := (m node).map fun link => next ^^^ link

/-- `set`. -/
def set (m : Memory) (node pre next : Ptr) : Option Memory :=
  (m node).map fun _ => Function.update m node (some (pre ^^^ next))

/-- `xor_node_get_value`: a node stands for its value. -/
def value (m : Memory) (node : Ptr) : Option Ptr := (m node).map fun _ => node

end Memory

/-! ## The list -/

/-- The members of `xor_list`, with the memory of the nodes. -/
structure XorList where
  memory : Memory
  head : Ptr := 0
  tail : Ptr := 0
  size : BitVec 64 := 0

/-- `xor_list_iterator`. -/
structure Iterator where
  prev : Ptr
  current : Ptr
  deriving DecidableEq, Repr

namespace Iterator

/-- `operator++`. -/
def increment (m : Memory) (it : Iterator) : Option Iterator := do
  let next ← m.next it.current it.prev
  some ⟨it.current, next⟩

/-- `operator--`. -/
def decrement (m : Memory) (it : Iterator) : Option Iterator := do
  let prevOfPrev ← m.pre it.prev it.current
  some ⟨prevOfPrev, it.prev⟩

end Iterator

namespace XorList

/-- `begin`. -/
def begin (s : XorList) : Iterator := ⟨0, s.head⟩

/-- `end`. -/
def «end» (s : XorList) : Iterator := ⟨s.tail, 0⟩

/-- `empty`. -/
def empty (s : XorList) : Bool := s.head = 0

/-- `front`. -/
def front (s : XorList) : Option Ptr := s.memory.value s.head

/-- `back`. -/
def back (s : XorList) : Option Ptr := s.memory.value s.tail

/-- `push_front`. -/
def pushFront (s : XorList) (node : Ptr) : Option XorList :=
  if s.empty then do
    let memory ← s.memory.set node 0 0
    some { memory := memory, head := node, tail := node, size := s.size + 1 }
  else do
    let memory ← s.memory.set node 0 s.head
    let oldNext ← memory.next s.head 0
    let memory ← memory.set s.head node oldNext
    some { memory := memory, head := node, tail := s.tail, size := s.size + 1 }

/-- `push_back`. -/
def pushBack (s : XorList) (node : Ptr) : Option XorList :=
  if s.empty then do
    let memory ← s.memory.set node 0 0
    some { memory := memory, head := node, tail := node, size := s.size + 1 }
  else do
    let memory ← s.memory.set node s.tail 0
    let oldPrev ← memory.pre s.tail 0
    let memory ← memory.set s.tail oldPrev node
    some { memory := memory, head := s.head, tail := node, size := s.size + 1 }

/-- `pop_front`, with the node that it returns. -/
def popFront (s : XorList) : Option (XorList × Ptr) :=
  if s.empty then some (s, 0)
  else do
    let next ← s.memory.next s.head 0
    if next ≠ 0 then do
      let nextOfNext ← s.memory.next next s.head
      let memory ← s.memory.set next 0 nextOfNext
      some ({ memory := memory, head := next, tail := s.tail, size := s.size - 1 }, s.head)
    else some ({ s with head := next, tail := 0, size := s.size - 1 }, s.head)

/-- `pop_back`, with the node that it returns. -/
def popBack (s : XorList) : Option (XorList × Ptr) :=
  if s.empty then some (s, 0)
  else do
    let prev ← s.memory.pre s.tail 0
    if prev ≠ 0 then do
      let prevOfPrev ← s.memory.pre prev s.tail
      let memory ← s.memory.set prev prevOfPrev 0
      some ({ memory := memory, head := s.head, tail := prev, size := s.size - 1 }, s.tail)
    else some ({ s with head := 0, tail := prev, size := s.size - 1 }, s.tail)

/-- The part of `erase` that unlinks the node from its predecessor. -/
def eraseBefore (s : XorList) (prev current next : Ptr) : Option XorList :=
  if prev ≠ 0 then do
    let prevOfPrev ← s.memory.pre prev current
    let memory ← s.memory.set prev prevOfPrev next
    some { s with memory := memory }
  else some { s with head := next }

/-- The part of `erase` that unlinks the node from its successor. -/
def eraseAfter (s : XorList) (prev current next : Ptr) : Option XorList :=
  if next ≠ 0 then do
    let nextOfNext ← s.memory.next next current
    let memory ← s.memory.set next prev nextOfNext
    some { s with memory := memory }
  else some { s with tail := prev }

/-- `erase`, with the iterator that it returns. -/
def erase (s : XorList) (pos : Iterator) : Option (XorList × Iterator) := do
  let next ← s.memory.next pos.current pos.prev
  let s ← s.eraseBefore pos.prev pos.current next
  let s ← s.eraseAfter pos.prev pos.current next
  let memory ← s.memory.set pos.current 0 0
  some ({ s with memory := memory, size := s.size - 1 }, ⟨pos.prev, next⟩)

/-- `clear`. -/
def clear (s : XorList) : XorList := { memory := s.memory }

/-! ## Traversals -/

/-- The loop `for (; it != end(); ++it)`, and the nodes it visits. -/
def forward (s : XorList) : ℕ → Iterator → Option (List Ptr)
  | 0, it => if it.current = s.end.current then some [] else none
  | fuel + 1, it =>
    if it.current = s.end.current then some []
    else do
      let next ← it.increment s.memory
      let visited ← s.forward fuel next
      some (it.current :: visited)

/-- The loop `while (it != begin()) --it`, and the nodes it visits. -/
def backward (s : XorList) : ℕ → Iterator → Option (List Ptr)
  | 0, it => if it.current = s.begin.current then some [] else none
  | fuel + 1, it =>
    if it.current = s.begin.current then some []
    else do
      let prev ← it.decrement s.memory
      let visited ← s.backward fuel prev
      some (prev.current :: visited)

/-! ## Calls -/

/-- How an iterator is obtained: from one end of the list, by moves forward and backward. -/
structure Cursor where
  fromEnd : Bool
  moves : List Bool

/-- A move of an iterator, forward or backward. -/
def move (s : XorList) (it : Iterator) (forward : Bool) : Option Iterator :=
  if forward then it.increment s.memory else it.decrement s.memory

/-- The iterator that is obtained now. -/
def obtain (s : XorList) (cursor : Cursor) : Option Iterator :=
  cursor.moves.foldlM s.move (if cursor.fromEnd then s.end else s.begin)

/-- A call of an operation. -/
inductive Call
  | pushFront (node : Ptr)
  | pushBack (node : Ptr)
  | popFront
  | popBack
  | erase (cursor : Cursor)
  | clear

/-- What a call returns. -/
inductive Returned
  | nothing
  | node (node : Ptr)
  | iterator (it : Iterator)
  deriving DecidableEq, Repr

/-- A call: the list after it, and what it returns. -/
def call (s : XorList) : Call → Option (XorList × Returned)
  | .pushFront node => (s.pushFront node).map fun s => (s, .nothing)
  | .pushBack node => (s.pushBack node).map fun s => (s, .nothing)
  | .popFront => s.popFront.map fun r => (r.1, .node r.2)
  | .popBack => s.popBack.map fun r => (r.1, .node r.2)
  | .erase cursor => do
    let it ← s.obtain cursor
    let r ← s.erase it
    some (r.1, .iterator r.2)
  | .clear => some (s.clear, .nothing)

end XorList

end NekoProto.Global
