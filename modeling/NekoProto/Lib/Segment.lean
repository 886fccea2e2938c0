import Mathlib.Data.List.Basic
import Mathlib.Tactic.Common

/-!
# Segments of a list

`At xs i ys` says that `ys` stands in `xs` from position `i` on. It is how a parser with a cursor
and a grammar with concatenation meet: a segment splits along an append (`at_append`), and its
content is determined by its place and its length (`At.unique`).
-/

namespace Segment

variable {α : Type*} {xs ys zs : List α} {i : ℕ}

/-- `ys` stands in `xs` at position `i`. -/
def At (xs : List α) (i : ℕ) (ys : List α) : Prop := ys <+: xs.drop i

@[simp] theorem at_nil (xs : List α) (i : ℕ) : At xs i [] := List.nil_prefix

theorem at_append : At xs i (ys ++ zs) ↔ At xs i ys ∧ At xs (i + ys.length) zs := by
  unfold At
  rw [← List.drop_drop]
  constructor
  · rintro ⟨t, ht⟩
    rw [List.append_assoc] at ht
    refine ⟨⟨zs ++ t, ht⟩, t, ?_⟩
    rw [← ht, List.drop_left]
  · rintro ⟨⟨s, hs⟩, t, ht⟩
    rw [← hs, List.drop_left] at ht
    exact ⟨t, by rw [List.append_assoc, ht, hs]⟩

theorem at_singleton {y : α} : At xs i [y] ↔ xs[i]? = some y := by
  unfold At
  rw [← List.head?_drop]
  constructor
  · rintro ⟨t, ht⟩
    rw [← ht]
    rfl
  · intro h
    obtain ⟨t, ht⟩ := List.head?_eq_some_iff.mp h
    exact ⟨t, by rw [ht]; rfl⟩

theorem at_cons {y : α} : At xs i (y :: ys) ↔ xs[i]? = some y ∧ At xs (i + 1) ys := by
  rw [← List.singleton_append, at_append, at_singleton, List.length_singleton]

theorem At.length_le (h : At xs i ys) (hi : i ≤ xs.length) : i + ys.length ≤ xs.length := by
  have := List.IsPrefix.length_le h
  rw [List.length_drop] at this
  omega

/-- A segment is determined by its place and its length. -/
theorem At.eq_take (h : At xs i ys) : ys = (xs.drop i).take ys.length :=
  List.prefix_iff_eq_take.mp h

theorem At.unique (h : At xs i ys) (k : At xs i zs) (hlen : ys.length = zs.length) : ys = zs := by
  rw [h.eq_take, k.eq_take, hlen]

theorem at_take {n : ℕ} : At xs i ((xs.drop i).take n) := List.take_prefix _ _

/-- A segment up to the end is the rest of the list. -/
theorem At.eq_append (h : At xs i ys) (hlen : i + ys.length = xs.length) :
    xs = xs.take i ++ ys := by
  have hdrop : ys = xs.drop i := by
    rw [h.eq_take, List.take_of_length_le (by rw [List.length_drop]; omega)]
  rw [hdrop, List.take_append_drop]

theorem at_of_eq_append {pre : List α} (post : List α) (h : xs = pre ++ (ys ++ post)) :
    At xs pre.length ys := by
  unfold At
  rw [h, List.drop_left]
  exact List.prefix_append _ _

end Segment
