import NekoProto.Lib.Outcome

/-!
# Computations that write into a target

A computation with a state that writes into a target, as one whose failures tell what they leave
in the target (`TargetM`).

1. It is built from computations without a target (`keeping`), and from computations on a part of
   the target (`within`). Without what is left (`dropping`), it is a computation without a target.
2. What a failure leaves (`Leaves`) has a rule for each construct.
3. A target is spoiled (`Spoils`) if a failure leaves something else than was there before. Of two
   parts that are written one after the other, the first one is spoiled, or it is written anew and
   the second one fails, or the second one is spoiled (`spoils_inTurn`).
-/

namespace InPlace

open Outcome

/-- A failure, with what it leaves in the target. -/
structure Failure (ε β : Type) where
  stop : ε
  left : β

/-- A computation that writes into a target of type `β`. -/
abbrev TargetM (ε σ β : Type) := EStateM (Failure ε β) σ

variable {ε σ α β γ δ χ : Type}

/-! ## Building -/

/-- A computation that leaves `old` in the target when it fails. -/
def keeping (old : β) (x : EStateM ε σ α) : TargetM ε σ β α :=
  EStateM.adaptExcept (fun stop => ⟨stop, old⟩) x

/-- A computation on a part, where `whole` is what the target is with that part. -/
def within (whole : γ → β) (x : TargetM ε σ γ α) : TargetM ε σ β α :=
  EStateM.adaptExcept (fun failure => ⟨failure.stop, whole failure.left⟩) x

/-- A computation whose target is not looked at any more when it fails. -/
def dropping (x : TargetM ε σ β α) : EStateM ε σ α := EStateM.adaptExcept Failure.stop x

/-- Two parts of a target that are written one after the other: the first one, which gives more
than its new value, and a second one that holds `old`. -/
def inTurn (whole : β → γ → δ) (first : TargetM ε σ β χ) (value : χ → β) (old : γ)
    (second : χ → TargetM ε σ γ γ) : TargetM ε σ δ δ := do
  let a ← within (fun left => whole left old) first
  let c ← within (whole (value a)) (second a)
  pure (whole (value a) c)

/-- The errors of a computation, under another text. -/
def rename (f : ε → ε) (x : TargetM ε σ β α) : TargetM ε σ β α :=
  EStateM.adaptExcept (fun failure => ⟨f failure.stop, failure.left⟩) x

section

variable {ε' ε'' : Type} {f : ε → ε'} {s t : σ}

theorem adaptExcept_bind {x : EStateM ε σ α} {g : α → EStateM ε σ β} :
    EStateM.adaptExcept f (x >>= g) =
      EStateM.adaptExcept f x >>= fun a => EStateM.adaptExcept f (g a) := by
  funext s
  change EStateM.adaptExcept f (x.bind g) s = EStateM.bind _ _ s
  cases h : x s with
  | ok a t => simp only [EStateM.adaptExcept, EStateM.bind, h]
  | error e t => simp only [EStateM.adaptExcept, EStateM.bind, h]

theorem adaptExcept_adaptExcept {f' : ε' → ε''} {x : EStateM ε σ α} :
    EStateM.adaptExcept f' (EStateM.adaptExcept f x) =
      EStateM.adaptExcept (fun e => f' (f e)) x := by
  funext s
  unfold EStateM.adaptExcept
  cases x s with
  | ok a t => rfl
  | error e t => rfl

theorem adaptExcept_id {x : EStateM ε σ α} : EStateM.adaptExcept (fun e => e) x = x := by
  funext s
  unfold EStateM.adaptExcept
  cases x s with
  | ok a t => rfl
  | error e t => rfl

@[simp] theorem adaptExcept_returns {x : EStateM ε σ α} {a : α} :
    Returns (EStateM.adaptExcept f x) s a t ↔ Returns x s a t := by
  unfold Returns EStateM.adaptExcept
  cases x s with
  | ok b u => simp
  | error e u => simp

end

/-! ## Without the target -/

section

variable {x : TargetM ε σ β α} {g : α → TargetM ε σ β γ}

@[simp] theorem dropping_pure {a : α} : dropping (pure a : TargetM ε σ β α) = pure a := rfl

@[simp] theorem dropping_bind : dropping (x >>= g) = dropping x >>= fun a => dropping (g a) :=
  adaptExcept_bind

@[simp] theorem dropping_keeping {old : β} {y : EStateM ε σ α} : dropping (keeping old y) = y :=
  adaptExcept_adaptExcept.trans adaptExcept_id

@[simp] theorem dropping_within {whole : β → γ} : dropping (within whole x) = dropping x :=
  adaptExcept_adaptExcept

theorem dropping_keeping_bind {old : β} {y : EStateM ε σ α} :
    dropping (keeping old y >>= g) = y >>= fun a => dropping (g a) := by
  rw [dropping_bind, dropping_keeping]

theorem dropping_inTurn {whole : β → γ → δ} {first : TargetM ε σ β χ} {value : χ → β} {old : γ}
    {second : χ → TargetM ε σ γ γ} :
    dropping (inTurn whole first value old second) = (do
      let a ← dropping first
      let c ← dropping (second a)
      pure (whole (value a) c)) := by
  unfold inTurn
  simp only [dropping_bind, dropping_within, dropping_pure]

theorem dropping_rename {f : ε → ε} :
    dropping (rename f x) = EStateM.adaptExcept f (dropping x) := by
  unfold dropping rename
  rw [adaptExcept_adaptExcept, adaptExcept_adaptExcept]

@[simp] theorem dropping_ite {p : Prop} [Decidable p] {y : TargetM ε σ β α} :
    dropping (if p then x else y) = if p then dropping x else dropping y := by
  by_cases h : p
  · rw [if_pos h, if_pos h]
  · rw [if_neg h, if_neg h]

end

/-! ## What is left -/

/-- From `s` the computation fails. -/
def Fails (x : EStateM ε σ α) (s : σ) : Prop := ∃ e t, x s = .error e t

/-- From `s` the computation fails and leaves `b` in the target. -/
def Leaves (x : TargetM ε σ β α) (s : σ) (b : β) : Prop := ∃ e t, x s = .error ⟨e, b⟩ t

section

variable {s t : σ} {a : α} {b : β} {x : TargetM ε σ β α}

@[simp] theorem keeping_returns {old : β} {y : EStateM ε σ α} :
    Returns (keeping old y) s a t ↔ Returns y s a t := adaptExcept_returns

@[simp] theorem within_returns {whole : β → γ} :
    Returns (within whole x) s a t ↔ Returns x s a t := adaptExcept_returns

@[simp] theorem dropping_returns : Returns (dropping x) s a t ↔ Returns x s a t :=
  adaptExcept_returns

@[simp] theorem rename_returns {f : ε → ε} : Returns (rename f x) s a t ↔ Returns x s a t :=
  adaptExcept_returns

theorem leaves_pure : ¬Leaves (pure a : TargetM ε σ β α) s b := by
  rintro ⟨e, t, h⟩
  cases h

theorem leaves_bind {g : α → TargetM ε σ β γ} :
    Leaves (x >>= g) s b ↔ Leaves x s b ∨ ∃ a t, Returns x s a t ∧ Leaves (g a) t b := by
  unfold Leaves Returns
  change (∃ e t, (x.bind g) s = _) ↔ _
  unfold EStateM.bind
  cases x s with
  | ok a t => simp
  | error e t => simp

theorem leaves_keeping {old : β} {y : EStateM ε σ α} :
    Leaves (keeping old y) s b ↔ b = old ∧ Fails y s := by
  unfold Leaves Fails keeping EStateM.adaptExcept
  cases y s with
  | ok a t => simp
  | error e t => simp [eq_comm]

theorem leaves_within {whole : γ → β} {y : TargetM ε σ γ α} :
    Leaves (within whole y) s b ↔ ∃ c, Leaves y s c ∧ b = whole c := by
  unfold Leaves within EStateM.adaptExcept
  cases h : y s with
  | ok a t => simp
  | error failure t =>
    constructor
    · rintro ⟨e, u, heq⟩
      cases heq
      exact ⟨failure.left, ⟨failure.stop, t, rfl⟩, rfl⟩
    · rintro ⟨c, ⟨e, u, heq⟩, rfl⟩
      cases heq
      exact ⟨e, t, rfl⟩

theorem leaves_rename {f : ε → ε} : Leaves (rename f x) s b ↔ Leaves x s b := by
  unfold Leaves rename EStateM.adaptExcept
  cases x s with
  | ok a t => simp
  | error failure t =>
    constructor
    · rintro ⟨e, u, heq⟩
      cases heq
      exact ⟨failure.stop, t, rfl⟩
    · rintro ⟨e, u, heq⟩
      cases heq
      exact ⟨f e, t, rfl⟩

theorem fails_iff_leaves : Fails x s ↔ ∃ b, Leaves x s b := by
  constructor
  · rintro ⟨⟨e, b⟩, t, h⟩
    exact ⟨b, e, t, h⟩
  · rintro ⟨b, e, t, h⟩
    exact ⟨⟨e, b⟩, t, h⟩

end

/-- From `s` the computation returns, and `Q` holds then. -/
def After (x : EStateM ε σ α) (Q : α → σ → Prop) (s : σ) : Prop := ∃ a t, Returns x s a t ∧ Q a t

/-! ## Spoiled targets -/

/-- From `s` the computation fails and leaves something else than `old` in the target. -/
def Spoils (x : TargetM ε σ β α) (old : β) (s : σ) : Prop := ∃ b, Leaves x s b ∧ b ≠ old

/-- A part is written before a second one: it is spoiled itself, or it gets another value and the
second one fails, or the second one is spoiled. -/
def SpoilsInTurn (spoiled : σ → Prop) (first : TargetM ε σ β χ) (value : χ → β) (old : β)
    (fails spoiledNext : χ → σ → Prop) (s : σ) : Prop :=
  spoiled s ∨ After first (fun a t => value a ≠ old ∧ fails a t ∨ spoiledNext a t) s

section

variable {s : σ} {old : β} {x : TargetM ε σ β α}

theorem not_spoils_pure {a : α} : ¬Spoils (pure a : TargetM ε σ β α) old s := by
  rintro ⟨b, h, -⟩
  exact leaves_pure h

theorem spoils_keeping {held : β} {y : EStateM ε σ α} :
    Spoils (keeping held y) old s ↔ held ≠ old ∧ Fails y s := by
  unfold Spoils
  simp only [leaves_keeping]
  constructor
  · rintro ⟨b, ⟨rfl, hfails⟩, hne⟩
    exact ⟨hne, hfails⟩
  · rintro ⟨hne, hfails⟩
    exact ⟨held, ⟨rfl, hfails⟩, hne⟩

theorem not_spoils_keeping {y : EStateM ε σ α} : ¬Spoils (keeping old y) old s := fun h =>
  (spoils_keeping.mp h).1 rfl

theorem spoils_of_error {e : ε} {left : β} {t : σ} (h : x s = .error ⟨e, left⟩ t) :
    Spoils x old s ↔ left ≠ old := by
  constructor
  · rintro ⟨b, ⟨e', u, hb⟩, hne⟩
    cases h.symm.trans hb
    exact hne
  · intro hne
    exact ⟨left, ⟨e, t, h⟩, hne⟩

theorem not_spoils_of_returns {a : α} {t : σ} (h : Returns x s a t) : ¬Spoils x old s := by
  rintro ⟨b, ⟨e, u, hb⟩, -⟩
  cases h.symm.trans hb

theorem after_keeping {held : β} {y : EStateM ε σ α} {Q : α → σ → Prop} :
    After (keeping held y) Q s ↔ After y Q s := by
  unfold After
  simp only [keeping_returns]

theorem spoils_rename {f : ε → ε} : Spoils (rename f x) old s ↔ Spoils x old s :=
  exists_congr fun _ => and_congr_left' leaves_rename

theorem spoils_bind {g : α → TargetM ε σ β γ} :
    Spoils (x >>= g) old s ↔ Spoils x old s ∨ ∃ a t, Returns x s a t ∧ Spoils (g a) old t := by
  unfold Spoils
  simp only [leaves_bind]
  constructor
  · rintro ⟨b, h | ⟨a, t, ha, h⟩, hb⟩
    · exact .inl ⟨b, h, hb⟩
    · exact .inr ⟨a, t, ha, b, h, hb⟩
  · rintro (⟨b, h, hb⟩ | ⟨a, t, ha, b, h, hb⟩)
    · exact ⟨b, .inl h, hb⟩
    · exact ⟨b, .inr ⟨a, t, ha, h⟩, hb⟩

/-- What keeps the target is passed over. -/
theorem spoils_keeping_bind {y : EStateM ε σ α} {g : α → TargetM ε σ β γ} {Q : α → σ → Prop}
    (h : ∀ a t, Spoils (g a) old t ↔ Q a t) :
    Spoils (keeping old y >>= g) old s ↔ After y Q s := by
  rw [spoils_bind]
  simp only [not_spoils_keeping, false_or, keeping_returns, h]
  rfl

theorem spoils_ite {p : Prop} [Decidable p] {y : TargetM ε σ β α} :
    Spoils (if p then x else y) old s ↔ p ∧ Spoils x old s ∨ ¬p ∧ Spoils y old s := by
  by_cases h : p <;> simp [h]

theorem spoils_within {whole : β → γ} (hwhole : Function.Injective whole) :
    Spoils (within whole x) (whole old) s ↔ Spoils x old s := by
  unfold Spoils
  simp only [leaves_within]
  constructor
  · rintro ⟨b, ⟨c, hc, rfl⟩, hb⟩
    exact ⟨c, hc, fun h => hb (congrArg whole h)⟩
  · rintro ⟨c, hc, hb⟩
    exact ⟨whole c, ⟨c, hc, rfl⟩, fun h => hb (hwhole h)⟩

/-- The second part fails or is spoiled while the first one holds `first`. -/
theorem spoils_second {whole : β → γ → δ} (hwhole : Function.Injective2 whole) {first b : β}
    {c : γ} {y : TargetM ε σ γ χ} :
    Spoils (within (whole first) y) (whole b c) s ↔ first ≠ b ∧ Fails y s ∨ Spoils y c s := by
  rw [fails_iff_leaves]
  unfold Spoils
  simp only [leaves_within]
  constructor
  · rintro ⟨d, ⟨c', hc', rfl⟩, hd⟩
    by_cases hfirst : first = b
    · subst hfirst
      exact .inr ⟨c', hc', fun h => hd (congrArg _ h)⟩
    · exact .inl ⟨hfirst, c', hc'⟩
  · rintro (⟨hfirst, c', hc'⟩ | ⟨c', hc', hne⟩)
    · exact ⟨whole first c', ⟨c', hc', rfl⟩, fun h => hfirst (hwhole h).1⟩
    · exact ⟨whole first c', ⟨c', hc', rfl⟩, fun h => hne (hwhole h).2⟩

/-- **Two parts** that are written one after the other. -/
theorem spoils_inTurn {whole : β → γ → δ} (hwhole : Function.Injective2 whole) {b : β} {c : γ}
    {first : TargetM ε σ β χ} {value : χ → β} {second : χ → TargetM ε σ γ γ} {spoiled : σ → Prop}
    {rest : χ → σ → Prop} (hfirst : Spoils first b s ↔ spoiled s)
    (hsecond : ∀ a t, Spoils (second a) c t ↔ rest a t) :
    Spoils (inTurn whole first value c second) (whole b c) s ↔
      SpoilsInTurn spoiled first value b (fun a => Fails (second a)) rest s := by
  unfold inTurn SpoilsInTurn
  rw [spoils_bind]
  simp only [within_returns, spoils_bind, not_spoils_pure, and_false, exists_false, or_false,
    spoils_second hwhole, hsecond]
  exact or_congr_left ((spoils_within fun _ _ h => (hwhole h).1).trans hfirst)

theorem inTurn_returns {whole : β → γ → δ} {first : TargetM ε σ β χ} {value : χ → β} {c : γ}
    {second : χ → TargetM ε σ γ γ} {d : δ} {u : σ} :
    Returns (inTurn whole first value c second) s d u ↔
      ∃ a t, Returns first s a t ∧ ∃ c', Returns (second a) t c' u ∧ d = whole (value a) c' := by
  unfold inTurn
  simp only [returns_bind, within_returns, returns_pure]
  constructor
  · rintro ⟨a, t, ha, c', v, hc, rfl, rfl⟩
    exact ⟨a, t, ha, c', hc, rfl⟩
  · rintro ⟨a, t, ha, c', hc, rfl⟩
    exact ⟨a, t, ha, c', u, hc, rfl, rfl⟩

end

end InPlace
