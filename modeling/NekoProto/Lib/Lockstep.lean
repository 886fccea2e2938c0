import NekoProto.Lib.InPlace
import Mathlib.Order.Basic

/-!
# Two computations in step

Two stateful computations that are run from related states and go the same way: both return related
results, or both fail with the same failure, and the states they leave are related again.

1. The states have a world (a counter, a set of allocated names) that only grows. What is said
   about a result may depend on the world it was given in, and is kept by later worlds.
2. `Lockstep` has a rule for each construct of a stateful computation, and of one that writes into a
   target.
3. The failures that are allowed are a parameter, so two computations in step have no others.
-/

namespace TwoRuns

open Outcome InPlace

variable {ε σ τ ω α β γ δ : Type} [Preorder ω]

/-- Two runs from the world `w` on go the same way. -/
inductive Agree (S : σ → τ → Prop) (world : σ → ω) (P : ε → Prop) (A : ω → α → β → Prop) (w : ω) :
    EStateM.Result ε σ α → EStateM.Result ε τ β → Prop
  | ok {a : α} {b : β} {s : σ} {t : τ} (grows : w ≤ world s) (values : A (world s) a b)
    (states : S s t) : Agree S world P A w (.ok a s) (.ok b t)
  | error {e : ε} {s : σ} {t : τ} (grows : w ≤ world s) (allowed : P e) (states : S s t) :
    Agree S world P A w (.error e s) (.error e t)

/-- From related states the two computations go the same way. -/
def Lockstep (S : σ → τ → Prop) (world : σ → ω) (P : ε → Prop) (A : ω → α → β → Prop) (w : ω)
    (x : EStateM ε σ α) (y : EStateM ε τ β) : Prop :=
  ∀ s t, S s t → w ≤ world s → Agree S world P A (world s) (x s) (y t)

variable {S : σ → τ → Prop} {world : σ → ω} {P Q : ε → Prop} {w : ω}

namespace Agree

variable {A : ω → α → β → Prop} {r : EStateM.Result ε σ α} {q : EStateM.Result ε τ β}

theorem mono {v : ω} (hle : v ≤ w) (h : Agree S world P A w r q) : Agree S world P A v r q := by
  cases h with
  | ok grows values states => exact .ok (hle.trans grows) values states
  | error grows allowed states => exact .error (hle.trans grows) allowed states

end Agree

namespace Lockstep

section

variable {A : ω → α → β → Prop} {x : EStateM ε σ α} {y : EStateM ε τ β}

/-- The two ways both runs can go. -/
theorem runs (h : Lockstep S world P A w x y) {s : σ} {t : τ} (hst : S s t) (hw : w ≤ world s) :
    (∃ a b s' t', x s = .ok a s' ∧ y t = .ok b t' ∧ A (world s') a b ∧ S s' t' ∧
      world s ≤ world s') ∨
    ∃ e s' t', x s = .error e s' ∧ y t = .error e t' ∧ P e ∧ S s' t' ∧ world s ≤ world s' := by
  have hxy := h s t hst hw
  cases hx : x s with
  | ok a s' =>
    cases hy : y t with
    | ok b t' =>
      rw [hx, hy] at hxy
      cases hxy with
      | ok grows values states =>
        exact .inl ⟨a, b, s', t', rfl, rfl, values, states, grows⟩
    | error e t' =>
      rw [hx, hy] at hxy
      cases hxy
  | error e s' =>
    cases hy : y t with
    | ok b t' =>
      rw [hx, hy] at hxy
      cases hxy
    | error e' t' =>
      rw [hx, hy] at hxy
      cases hxy with
      | error grows allowed states =>
        exact .inr ⟨e, s', t', rfl, rfl, allowed, states, grows⟩

theorem mono {v : ω} (hle : v ≤ w) (h : Lockstep S world P A v x y) :
    Lockstep S world P A w x y := fun s t hst hw => h s t hst (hle.trans hw)

theorem pure {a : α} {b : β} (h : ∀ w', w ≤ w' → A w' a b) :
    Lockstep S world P A w (pure a) (pure b) := fun s _ hst hw => .ok le_rfl (h (world s) hw) hst

theorem throw {e : ε} (h : P e) : Lockstep S world P A w (throw e) (throw e) := fun _ _ hst _ =>
  .error le_rfl h hst

theorem ite {p : Prop} [Decidable p] {x' : EStateM ε σ α} {y' : EStateM ε τ β}
    (h : p → Lockstep S world P A w x y) (h' : ¬p → Lockstep S world P A w x' y') :
    Lockstep S world P A w (if p then x else x') (if p then y else y') := by
  by_cases hp : p
  · rw [if_pos hp, if_pos hp]
    exact h hp
  · rw [if_neg hp, if_neg hp]
    exact h' hp

/-- **Sequencing.** The continuations are in step from every later world, for related results. -/
theorem bind {C : ω → γ → δ → Prop} {f : α → EStateM ε σ γ} {g : β → EStateM ε τ δ}
    (h : Lockstep S world P A w x y)
    (hf : ∀ w' a b, w ≤ w' → A w' a b → Lockstep S world P C w' (f a) (g b)) :
    Lockstep S world P C w (x >>= f) (y >>= g) := by
  intro s t hst hw
  show Agree S world P C (world s) (x.bind f s) (y.bind g t)
  unfold EStateM.bind
  obtain ⟨a, b, s', t', hx, hy, hab, hst', hle⟩ | ⟨e, s', t', hx, hy, he, hst', hle⟩ :=
    h.runs hst hw
  · rw [hx, hy]
    exact (hf _ a b (hw.trans hle) hab s' t' hst' le_rfl).mono hle
  · rw [hx, hy]
    exact .error hle he hst'

/-- The state is looked at on both sides, and the runs go on from there. -/
theorem get_bind_agree {f : σ → EStateM ε σ α} {g : τ → EStateM ε τ β}
    (h : ∀ s t, S s t → w ≤ world s → Agree S world P A (world s) (f s s) (g t t)) :
    Lockstep S world P A w (get >>= f) (get >>= g) := h

/-- The state is looked at on both sides. -/
theorem get_bind {f : σ → EStateM ε σ α} {g : τ → EStateM ε τ β}
    (h : ∀ s t, S s t → w ≤ world s → Lockstep S world P A (world s) (f s) (g t)) :
    Lockstep S world P A w (get >>= f) (get >>= g) :=
  get_bind_agree fun s t hst hw => h s t hst hw s t hst le_rfl

/-- The failures are those of the first run. -/
theorem failsOnly (h : Lockstep S world Q A w x y) (hP : ∀ s, FailsOnly P x s) :
    Lockstep S world P A w x y := by
  intro s t hst hw
  obtain ⟨a, b, s', t', hx, hy, hab, hst', hle⟩ | ⟨e, s', t', hx, hy, he, hst', hle⟩ :=
    h.runs hst hw
  · rw [hx, hy]
    exact .ok hle hab hst'
  · rw [hx, hy]
    exact .error hle (hP s e s' hx) hst'

/-- What the first run returns is known. -/
theorem and_returns {D : α → Prop} (h : Lockstep S world P A w x y)
    (hD : ∀ s a s', Returns x s a s' → D a) :
    Lockstep S world P (fun w a b => A w a b ∧ D a) w x y := by
  intro s t hst hw
  obtain ⟨a, b, s', t', hx, hy, hab, hst', hle⟩ | ⟨e, s', t', hx, hy, he, hst', hle⟩ :=
    h.runs hst hw
  · rw [hx, hy]
    exact .ok hle ⟨hab, hD s a s' hx⟩ hst'
  · rw [hx, hy]
    exact .error hle he hst'

theorem modify {f : σ → σ} {g : τ → τ}
    (h : ∀ s t, S s t → w ≤ world s → S (f s) (g t) ∧ world s ≤ world (f s)) :
    Lockstep S world P (fun _ => Eq) w (modify f) (modify g) := by
  intro s t hst hw
  obtain ⟨hst', hle⟩ := h s t hst hw
  exact .ok hle rfl hst'

/-- Other failures, of which the allowed ones are allowed. -/
theorem adaptExcept {ε' : Type} {P' : ε' → Prop} {f : ε → ε'} (hf : ∀ e, P e → P' (f e))
    (h : Lockstep S world P A w x y) :
    Lockstep S world P' A w (EStateM.adaptExcept f x) (EStateM.adaptExcept f y) := by
  intro s t hst hw
  unfold EStateM.adaptExcept
  obtain ⟨a, b, s', t', hx, hy, hab, hst', hle⟩ | ⟨e, s', t', hx, hy, he, hst', hle⟩ :=
    h.runs hst hw
  · rw [hx, hy]
    exact .ok hle hab hst'
  · rw [hx, hy]
    exact .error hle (hf e he) hst'

end

/-! ## Equal results -/

section

variable {x : EStateM ε σ α} {y : EStateM ε τ α}

theorem same {a : α} : Lockstep S world P (fun _ => Eq) w (Pure.pure a) (Pure.pure a) :=
  .pure fun _ _ => rfl

theorem bind_same {C : ω → γ → δ → Prop} {f : α → EStateM ε σ γ} {g : α → EStateM ε τ δ}
    (h : Lockstep S world P (fun _ => Eq) w x y)
    (hf : ∀ w' a, w ≤ w' → Lockstep S world P C w' (f a) (g a)) :
    Lockstep S world P C w (x >>= f) (y >>= g) := by
  refine h.bind fun w' a b hle heq => ?_
  subst heq
  exact hf w' a hle

/-- What both runs from related states return. -/
theorem returns (h : Lockstep S world P (fun _ => Eq) w x y) {s s' : σ} {t : τ} {a : α}
    (hst : S s t) (hw : w ≤ world s) (hx : Returns x s a s') :
    ∃ t', Returns y t a t' ∧ S s' t' ∧ world s ≤ world s' := by
  obtain ⟨a', b, u, t', hx', hy, hab, hst', hle⟩ | ⟨e, u, t', hx', -⟩ := h.runs hst hw
  · cases hx.symm.trans hx'
    subst hab
    exact ⟨t', hy, hst', hle⟩
  · cases hx.symm.trans hx'

/-- What both runs from related states fail with. -/
theorem fails (h : Lockstep S world P (fun _ => Eq) w x y) {s s' : σ} {t : τ} {e : ε}
    (hst : S s t) (hw : w ≤ world s) (hx : x s = .error e s') :
    ∃ t', y t = .error e t' ∧ P e ∧ S s' t' ∧ world s ≤ world s' := by
  obtain ⟨a, b, u, t', hx', -⟩ | ⟨e', u, t', hx', hy, he, hst', hle⟩ := h.runs hst hw
  · cases hx.symm.trans hx'
  · cases hx.symm.trans hx'
    exact ⟨t', hy, he, hst', hle⟩

/-- Both runs fail only with the allowed failures. -/
theorem safe {A : ω → α → β → Prop} {y : EStateM ε τ β} (h : Lockstep S world P A w x y) {s : σ}
    {t : τ} (hst : S s t) (hw : w ≤ world s) : FailsOnly P x s ∧ FailsOnly P y t := by
  obtain ⟨a, b, s', t', hx, hy, -⟩ | ⟨e, s', t', hx, hy, he, -⟩ := h.runs hst hw
  · refine ⟨fun e u hu => ?_, fun e u hu => ?_⟩
    · cases hx.symm.trans hu
    · cases hy.symm.trans hu
  · refine ⟨fun e' u hu => ?_, fun e' u hu => ?_⟩
    · cases hx.symm.trans hu
      exact he
    · cases hy.symm.trans hu
      exact he

/-- The states that both runs leave. -/
theorem leaves {A : ω → α → β → Prop} {y : EStateM ε τ β} (h : Lockstep S world P A w x y) {s : σ}
    {t : τ} (hst : S s t) (hw : w ≤ world s) :
    S (Outcome.leaves x s) (Outcome.leaves y t) ∧ world s ≤ world (Outcome.leaves x s) := by
  unfold Outcome.leaves
  obtain ⟨a, b, s', t', hx, hy, -, hst', hle⟩ | ⟨e, s', t', hx, hy, -, hst', hle⟩ :=
    h.runs hst hw
  · rw [hx, hy]
    exact ⟨hst', hle⟩
  · rw [hx, hy]
    exact ⟨hst', hle⟩

end

/-! ## Targets -/

section

variable {A : ω → α → β → Prop}

theorem keeping {χ : Type} {old : χ} {x : EStateM ε σ α} {y : EStateM ε τ β}
    (h : Lockstep S world P A w x y) :
    Lockstep S world (fun failure => P failure.stop) A w (keeping old x) (keeping old y) :=
  h.adaptExcept fun _ he => he

theorem dropping {χ : Type} {x : TargetM ε σ χ α} {y : TargetM ε τ χ β}
    (h : Lockstep S world (fun failure => P failure.stop) A w x y) :
    Lockstep S world P A w (dropping x) (dropping y) := h.adaptExcept fun _ he => he

theorem within {χ : Type} {whole : χ → γ} {x : TargetM ε σ χ α} {y : TargetM ε τ χ β}
    (h : Lockstep S world (fun failure => P failure.stop) A w x y) :
    Lockstep S world (fun failure => P failure.stop) A w (within whole x) (within whole y) :=
  h.adaptExcept fun _ he => he

/-- **Two parts** of a target, of which the first one gives more than its new value. -/
theorem inTurn {χ : Type} {whole : χ → γ → δ} {first : TargetM ε σ χ α} {first' : TargetM ε τ χ β}
    {value : α → χ} {value' : β → χ} {old : γ} {second : α → TargetM ε σ γ γ}
    {second' : β → TargetM ε τ γ γ}
    (h : Lockstep S world (fun failure => P failure.stop) A w first first')
    (hsecond : ∀ w' a b, w ≤ w' → A w' a b → value a = value' b ∧
      Lockstep S world (fun failure => P failure.stop) (fun _ => Eq) w' (second a) (second' b)) :
    Lockstep S world (fun failure => P failure.stop) (fun _ => Eq) w
      (inTurn whole first value old second) (inTurn whole first' value' old second') := by
  refine h.within.bind fun w' a b hle hab => ?_
  obtain ⟨hvalue, hrest⟩ := hsecond w' a b hle hab
  rw [hvalue]
  exact hrest.within.bind_same fun _ _ _ => .same

end

end Lockstep

end TwoRuns
