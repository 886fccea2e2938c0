import Mathlib.Tactic.Common

/-!
# Outcomes of stateful computations

What a computation with a state and an error (`EStateM`) returns, as a relation that simp can take
apart along the program (`Returns`), and what it can fail with (`FailsOnly`), by a rule for each
construct. The two meet in `FailsOnly.bind`: the continuation is looked at only for the results
that its first part returns. What it does not change of the state, even if it fails (`Keeps`), has
the same rules.
-/

namespace Outcome

variable {ε σ α β : Type} {x : EStateM ε σ α} {f : α → EStateM ε σ β} {s t u : σ} {a : α} {b : β}

/-- From `s` the computation returns `a` and leaves `t`. -/
def Returns (x : EStateM ε σ α) (s : σ) (a : α) (t : σ) : Prop := x s = .ok a t

/-- From `s` the computation fails only with errors in `P`. -/
def FailsOnly (P : ε → Prop) (x : EStateM ε σ α) (s : σ) : Prop := ∀ e t, x s = .error e t → P e

/-- The state that the computation leaves, returning or failing. -/
def leaves (x : EStateM ε σ α) (s : σ) : σ :=
  match x s with
  | .ok _ t => t
  | .error _ t => t

/-- From `s` the computation does not change what `g` observes of the state. -/
def Keeps {γ : Type} (g : σ → γ) (x : EStateM ε σ α) (s : σ) : Prop := g (leaves x s) = g s

/-! ## Results -/

@[simp] theorem returns_pure {a b : α} :
    Returns (pure a : EStateM ε σ α) s b t ↔ b = a ∧ t = s := by
  constructor
  · intro h
    injection h with h₁ h₂
    exact ⟨h₁.symm, h₂.symm⟩
  · rintro ⟨rfl, rfl⟩
    rfl

@[simp] theorem returns_throw {e : ε} : ¬Returns (throw e : EStateM ε σ α) s a t := by
  intro h
  cases h

@[simp] theorem returns_get {v : σ} : Returns (get : EStateM ε σ σ) s v t ↔ v = s ∧ t = s := by
  constructor
  · intro h
    injection h with h₁ h₂
    exact ⟨h₁.symm, h₂.symm⟩
  · rintro ⟨rfl, rfl⟩
    rfl

@[simp] theorem returns_set {v : σ} {c : PUnit} :
    Returns (set v : EStateM ε σ PUnit) s c t ↔ t = v := by
  constructor
  · intro h
    injection h with _ h₂
    exact h₂.symm
  · rintro rfl
    rfl

@[simp] theorem returns_modify {f : σ → σ} {c : PUnit} :
    Returns (modify f : EStateM ε σ PUnit) s c t ↔ t = f s := by
  constructor
  · intro h
    injection h with _ h₂
    exact h₂.symm
  · rintro rfl
    rfl

@[simp] theorem returns_bind :
    Returns (x >>= f) s b u ↔ ∃ a t, Returns x s a t ∧ Returns (f a) t b u := by
  change (x.bind f) s = _ ↔ _
  unfold EStateM.bind Returns
  cases h : x s with
  | ok a t => simp
  | error e t => simp

theorem bind_ok (h : Returns x s a t) : (x >>= f) s = f a t := by
  change (x.bind f) s = _
  unfold EStateM.bind
  rw [show x s = .ok a t from h]

theorem bind_error {e : ε} (h : x s = .error e t) : (x >>= f) s = .error e t := by
  change (x.bind f) s = _
  unfold EStateM.bind
  rw [h]

theorem get_bind_apply {g : σ → EStateM ε σ β} : (get >>= g) s = g s s := rfl

theorem returns_get_bind {g : σ → EStateM ε σ β} :
    Returns (get >>= g) s b u ↔ Returns (g s) s b u := Iff.rfl

@[simp] theorem returns_ite {p : Prop} [Decidable p] {y : EStateM ε σ α} :
    Returns (if p then x else y) s a t ↔ p ∧ Returns x s a t ∨ ¬p ∧ Returns y s a t := by
  by_cases h : p <;> simp [h]

/-! ## Failures -/

section

variable {P : ε → Prop}

theorem FailsOnly.pure : FailsOnly P (pure a : EStateM ε σ α) s := by
  intro e t h
  cases h

theorem FailsOnly.throw {e : ε} (h : P e) : FailsOnly P (throw e : EStateM ε σ α) s := by
  intro e' t h'
  cases h'
  exact h

theorem FailsOnly.get : FailsOnly P (get : EStateM ε σ σ) s := by
  intro e t h
  cases h

theorem FailsOnly.set {v : σ} : FailsOnly P (set v : EStateM ε σ PUnit) s := by
  intro e t h
  cases h

theorem FailsOnly.bind (hx : FailsOnly P x s)
    (hf : ∀ a t, Returns x s a t → FailsOnly P (f a) t) : FailsOnly P (x >>= f) s := by
  intro e u h
  change (x.bind f) s = _ at h
  unfold EStateM.bind at h
  cases hr : x s with
  | ok a t =>
    rw [hr] at h
    exact hf a t hr e u h
  | error e' t =>
    rw [hr] at h
    cases h
    exact hx e _ hr

theorem FailsOnly.ite {p : Prop} [Decidable p] {y : EStateM ε σ α}
    (hx : p → FailsOnly P x s) (hy : ¬p → FailsOnly P y s) :
    FailsOnly P (if p then x else y) s := by
  by_cases h : p
  · rw [if_pos h]
    exact hx h
  · rw [if_neg h]
    exact hy h

/-- What fails only with errors in `P` returns, or fails with such an error. -/
theorem FailsOnly.cases (h : FailsOnly P x s) :
    (∃ a t, Returns x s a t) ∨ ∃ e t, x s = .error e t ∧ P e := by
  cases hr : x s with
  | ok a t => exact .inl ⟨a, t, hr⟩
  | error e t => exact .inr ⟨e, t, rfl, h e t hr⟩

end

/-! ## What is kept -/

section

variable {γ δ : Type} {g : σ → γ}

theorem Keeps.pure : Keeps g (pure a : EStateM ε σ α) s := rfl

theorem Keeps.throw {e : ε} : Keeps g (throw e : EStateM ε σ α) s := rfl

theorem Keeps.get : Keeps g (get : EStateM ε σ σ) s := rfl

theorem Keeps.set {v : σ} (h : g v = g s) : Keeps g (set v : EStateM ε σ PUnit) s := h

theorem Keeps.modify {f : σ → σ} (h : g (f s) = g s) :
    Keeps g (modify f : EStateM ε σ PUnit) s := h

theorem Keeps.bind (hx : Keeps g x s) (hf : ∀ a t, Returns x s a t → Keeps g (f a) t) :
    Keeps g (x >>= f) s := by
  change g (leaves (x.bind f) s) = g s
  unfold Keeps leaves at *
  unfold EStateM.bind
  cases hr : x s with
  | ok a t =>
    rw [hr] at hx
    exact (hf a t hr).trans hx
  | error e t =>
    rw [hr] at hx
    exact hx

theorem Keeps.get_bind {f : σ → EStateM ε σ β} (h : Keeps g (f s) s) :
    Keeps g (MonadState.get >>= f) s := h

theorem Keeps.ite {p : Prop} [Decidable p] {y : EStateM ε σ α} (hx : p → Keeps g x s)
    (hy : ¬p → Keeps g y s) : Keeps g (if p then x else y) s := by
  by_cases h : p
  · rw [if_pos h]
    exact hx h
  · rw [if_neg h]
    exact hy h

/-- What follows from what is kept is kept. -/
theorem Keeps.comp (k : γ → δ) (h : Keeps g x s) : Keeps (k ∘ g) x s := congrArg k h

theorem Keeps.returns (h : Keeps g x s) (hr : Returns x s a t) : g t = g s := by
  unfold Keeps leaves at h
  rw [hr] at h
  exact h

end

theorem Returns.unique {a' : α} {t' : σ} (h : Returns x s a t) (k : Returns x s a' t') :
    a' = a ∧ t' = t := by
  have := h.symm.trans k
  injection this with h₁ h₂
  exact ⟨h₁.symm, h₂.symm⟩

theorem Returns.leaves_eq (h : Returns x s a t) : leaves x s = t := by
  unfold leaves
  rw [show x s = _ from h]

/-! ## Computations without a state -/

theorem bind_eq_ok {x : Except ε α} {g : α → Except ε β} {b : β} :
    (x >>= g) = .ok b ↔ ∃ a, x = .ok a ∧ g a = .ok b := by
  cases x with
  | error e =>
    constructor
    · intro h
      cases h
    · rintro ⟨a, h, -⟩
      cases h
  | ok a =>
    constructor
    · intro h
      exact ⟨a, rfl, h⟩
    · rintro ⟨a', ha, h⟩
      obtain rfl := Except.ok.inj ha
      exact h

end Outcome
