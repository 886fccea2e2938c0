import Mathlib.Data.List.Basic
import Mathlib.Logic.Function.Basic
import Mathlib.Tactic.Common

/-!
# Chains of XOR links

A memory of links in which each node of a chain holds the XOR of its two neighbours. A chain is a
segment: it is given with the nodes before and after it, so it splits along an append
(`chain_append`), and a write outside it changes nothing (`Chain.update`). Its first and its last
node are given another neighbour by one write (`Chain.setFirst`, `Chain.setLast`).
-/

namespace XorChain

variable {w : ℕ}

/-- The links of some nodes. -/
abbrev Memory (w : ℕ) := BitVec w → Option (BitVec w)

/-- The nodes of a list are linked in their order, between `p` and `n`. -/
def Chain (m : Memory w) (p : BitVec w) : List (BitVec w) → BitVec w → Prop
  | [], _ => True
  | x :: xs, n => m x = some (p ^^^ xs.headD n) ∧ Chain m x xs n

variable {m : Memory w} {p n x : BitVec w}

/-- The neighbour on the other side of a link. -/
theorem xor_link (a b : BitVec w) : a ^^^ (a ^^^ b) = b := by
  rw [← BitVec.xor_assoc, BitVec.xor_self, BitVec.zero_xor]

theorem xor_link_right (a b : BitVec w) : b ^^^ (a ^^^ b) = a := by
  rw [BitVec.xor_comm a b, xor_link]

theorem headD_append (xs ys : List (BitVec w)) : (xs ++ ys).headD n = xs.headD (ys.headD n) := by
  cases xs <;> rfl

theorem getLastD_concat (xs : List (BitVec w)) : (xs ++ [x]).getLastD p = x := by
  rw [List.getLastD_eq_getLast?, List.getLast?_concat, Option.getD_some]

/-- **A chain splits along an append.** -/
theorem chain_append {xs ys : List (BitVec w)} :
    Chain m p (xs ++ ys) n ↔ Chain m p xs (ys.headD n) ∧ Chain m (xs.getLastD p) ys n := by
  induction xs generalizing p with
  | nil => exact (and_iff_right trivial).symm
  | cons x xs ih =>
    show m x = some (p ^^^ (xs ++ ys).headD n) ∧ Chain m x (xs ++ ys) n ↔
      (m x = some (p ^^^ xs.headD (ys.headD n)) ∧ Chain m x xs (ys.headD n)) ∧
        Chain m ((x :: xs).getLastD p) ys n
    rw [ih, headD_append, List.getLastD_cons, and_assoc]

/-- A write outside a chain. -/
theorem Chain.update {xs : List (BitVec w)} {link : Option (BitVec w)} (hx : x ∉ xs)
    (h : Chain m p xs n) : Chain (Function.update m x link) p xs n := by
  induction xs generalizing p with
  | nil => trivial
  | cons y ys ih =>
    have hne : y ≠ x := fun heq => hx (heq ▸ List.mem_cons_self)
    refine ⟨?_, ih (fun hys => hx (List.mem_cons_of_mem _ hys)) h.2⟩
    rw [Function.update_of_ne hne]
    exact h.1

/-- **The first node of a chain gets another predecessor.** -/
theorem Chain.setFirst {xs : List (BitVec w)} (p' : BitVec w) (hx : x ∉ xs)
    (h : Chain m p (x :: xs) n) :
    Chain (Function.update m x (some (p' ^^^ xs.headD n))) p' (x :: xs) n :=
  ⟨Function.update_self .., h.2.update hx⟩

/-- **The last node of a chain gets another successor.** -/
theorem Chain.setLast {xs : List (BitVec w)} (n' : BitVec w) (hx : x ∉ xs)
    (h : Chain m p (xs ++ [x]) n) :
    Chain (Function.update m x (some (xs.getLastD p ^^^ n'))) p (xs ++ [x]) n' := by
  obtain ⟨hxs, -⟩ := chain_append.mp h
  exact chain_append.mpr ⟨hxs.update hx, Function.update_self .., trivial⟩

/-- The link between two parts of a chain. -/
theorem Chain.link {xs ys : List (BitVec w)} (h : Chain m p (xs ++ x :: ys) n) :
    m x = some (xs.getLastD p ^^^ ys.headD n) :=
  (chain_append.mp h).2.1

end XorChain
