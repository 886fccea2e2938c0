import Mathlib.Order.Defs.Unbundled
import Mathlib.Data.List.Basic

/-!
# Append-only lists

A list that is appended to, and whose entries change only along a preorder `R` (an entry's
identity stays, its state moves on). `Extends R xs ys` says that `ys` may come after `xs`. It is
itself a preorder, so what one update preserves a whole run preserves (`Extends.foldl`).
-/

namespace AppendOnly

variable {α : Type*} {R : α → α → Prop}

theorem getElem?_append_of_some {xs : List α} {i : ℕ} {x : α} (h : xs[i]? = some x)
    (ys : List α) : (xs ++ ys)[i]? = some x := by
  rw [List.getElem?_append_left (List.getElem?_eq_some_iff.mp h).1]
  exact h

/-- Looking up a list with one more entry. -/
theorem getElem?_concat_eq_some {xs : List α} {i : ℕ} {x y : α} :
    (xs ++ [y])[i]? = some x ↔ xs[i]? = some x ∨ (i = xs.length ∧ y = x) := by
  rcases Nat.lt_trichotomy i xs.length with h | h | h
  · rw [List.getElem?_append_left h]
    exact ⟨Or.inl, fun h' => h'.resolve_right (by omega)⟩
  · subst h
    simp
  · rw [List.getElem?_eq_none (by simp; omega), List.getElem?_eq_none (by omega)]
    simp only [reduceCtorEq, false_or, false_iff, not_and]
    omega

/-- Every entry of `xs` is still there in `ys`, at its place and up to `R`. -/
def Extends (R : α → α → Prop) (xs ys : List α) : Prop :=
  ∀ (i : ℕ) (x : α), xs[i]? = some x → ∃ y, ys[i]? = some y ∧ R x y

theorem Extends.refl [Std.Refl R] (xs : List α) : Extends R xs xs :=
  fun _ x hx => ⟨x, hx, Std.Refl.refl x⟩

theorem Extends.trans [IsTrans α R] {xs ys zs : List α} (h : Extends R xs ys)
    (k : Extends R ys zs) : Extends R xs zs := by
  intro i x hx
  obtain ⟨y, hy, hxy⟩ := h i x hx
  obtain ⟨z, hz, hyz⟩ := k i y hy
  exact ⟨z, hz, IsTrans.trans x y z hxy hyz⟩

theorem Extends.append [Std.Refl R] (xs ys : List α) : Extends R xs (xs ++ ys) := by
  intro i x hx
  exact ⟨x, getElem?_append_of_some hx ys, Std.Refl.refl x⟩

/-- Moving one entry along `R`. -/
theorem Extends.modify [Std.Refl R] (xs : List α) (i : ℕ) {f : α → α} (hf : ∀ x, R x (f x)) :
    Extends R xs (xs.modify i f) := by
  intro j x hx
  rw [List.getElem?_modify, hx]
  by_cases hij : i = j
  · exact ⟨f x, by simp [hij], hf x⟩
  · exact ⟨x, by simp [hij], Std.Refl.refl x⟩

theorem Extends.length_le {xs ys : List α} (h : Extends R xs ys) : xs.length ≤ ys.length := by
  by_contra hlt
  obtain ⟨y, hy, _⟩ := h ys.length _ (List.getElem?_eq_getElem (by omega))
  exact absurd hy (by simp)

/-- **Runs.** Where every step keeps an invariant and extends the list, a whole run does. -/
theorem Extends.foldl [Std.Refl R] [IsTrans α R] {σ ι : Type*} {step : σ → ι → σ}
    (entries : σ → List α) {Inv : σ → Prop}
    (h : ∀ s i, Inv s → Inv (step s i) ∧ Extends R (entries s) (entries (step s i)))
    (is : List ι) : ∀ s, Inv s →
      Inv (is.foldl step s) ∧ Extends R (entries s) (entries (is.foldl step s)) := by
  induction is with
  | nil => intro s hs; exact ⟨hs, Extends.refl _⟩
  | cons i is ih =>
    intro s hs
    obtain ⟨hinv, hext⟩ := h s i hs
    obtain ⟨hinv', hext'⟩ := ih (step s i) hinv
    exact ⟨hinv', hext.trans hext'⟩

end AppendOnly
