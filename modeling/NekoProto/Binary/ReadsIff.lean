import NekoProto.Binary.TreeRead

/-!
# Reading back exactly when

The condition under which a read gives a certain value back (`ReadsIff`): where it holds and the
budget pays, the value is read back, and whenever this value is returned, both were so. The rules
follow `ReadsBack`; a continuation has to show in its result what it was given, so that the value
of the first part is determined.
-/

namespace NekoProto.Binary.Reader

open Outcome Segment

variable {inp : Input} {s t u : State} {k pos cost a b size size' : ℕ}

namespace Readable

variable {as bs : Bytes}

/-- The budget does not matter for the bytes that are read. -/
theorem pay (h : Readable inp k pos 0 as s) (ha : a ≤ s.remainingAllocation) :
    Readable inp k pos a as s :=
  ⟨h.live, h.untouched, h.stands, h.end_le, ha⟩

/-- The first of two segments. -/
theorem head (h : Readable inp k pos 0 (as ++ bs) s) : Readable inp k pos 0 as s :=
  left (a := 0) (b := 0) h

/-- The second of two segments, after the first was read. -/
theorem tail (h : Readable inp k pos 0 (as ++ bs) s)
    (hreads : Reads k pos (pos + as.length) a s t) : Readable inp k (pos + as.length) 0 bs t := by
  have hpaid := hreads.budget
  exact right (a := a) (b := 0) (h.pay (by omega)) hreads

end Readable

/-- The computation reads the value back exactly when the condition holds and the budget pays for
it. -/
structure ReadsIff {α : Type} (k pos size cost : ℕ) (s : State) (x : ReadM α) (p : Prop) (v : α) :
    Prop where
  reads : p → cost ≤ s.remainingAllocation → ReadsBack k pos size cost s x v
  only : ∀ t, Returns x s v t → p ∧ cost ≤ s.remainingAllocation

namespace ReadsIff

variable {α β : Type} {x : ReadM α} {v : α} {f : α → ReadM β} {w : β} {p q : Prop}

theorem congr (h : ReadsIff k pos size cost s x p v) (hpq : p ↔ q) :
    ReadsIff k pos size cost s x q v :=
  ⟨fun hq => h.reads (hpq.mpr hq), fun t ht => (h.only t ht).imp_left hpq.mp⟩

theorem pure (v : α) : ReadsIff k pos 0 0 s (pure v : ReadM α) True v :=
  ⟨fun _ _ => .pure v, fun _ _ => ⟨trivial, Nat.zero_le _⟩⟩

/-- A read that always gives the value back, for nothing. -/
theorem free (h : ReadsBack k pos size 0 s x v) : ReadsIff k pos size 0 s x True v :=
  ⟨fun _ _ => h, fun _ _ => ⟨trivial, Nat.zero_le _⟩⟩

theorem never (h : ∀ t, ¬Returns x s v t) : ReadsIff k pos size cost s x False v :=
  ⟨fun hp => hp.elim, fun t ht => absurd ht (h t)⟩

theorem bind (hx : ReadsIff k pos size a s x p v)
    (hf : ∀ t, Reads k pos (pos + size) a s t → ReadsIff k (pos + size) size' b t (f v) q w)
    (hinj : ∀ v' t u, Returns (f v') t w u → v' = v) :
    ReadsIff k pos (size + size') (a + b) s (x >>= f) (p ∧ q) w := by
  constructor
  · rintro ⟨hp, hq⟩ hcost
    refine (hx.reads hp (by omega)).bind fun t hreads => (hf t hreads).reads hq ?_
    have hpaid := hreads.budget
    omega
  · intro u hu
    obtain ⟨v', t, hv, hw⟩ := returns_bind.mp hu
    obtain rfl := hinj v' t u hw
    obtain ⟨hp, ha⟩ := hx.only t hv
    obtain ⟨t', hv', hreads⟩ := hx.reads hp ha
    obtain ⟨-, rfl⟩ := Returns.unique hv' hv
    obtain ⟨hq, hb⟩ := (hf t hreads).only u hw
    have hpaid := hreads.budget
    exact ⟨⟨hp, hq⟩, by omega⟩

/-- A computation that only looks at the state comes before. -/
theorem after (hx : Returns x s v s) (hf : ReadsIff k pos size a s (f v) p w) :
    ReadsIff k pos size a s (x >>= f) p w := by
  refine ⟨fun hp ha => (hf.reads hp ha).after hx, fun u hu => ?_⟩
  obtain ⟨v', t, hv, hw⟩ := returns_bind.mp hu
  obtain ⟨rfl, rfl⟩ := Returns.unique hx hv
  exact hf.only u hw

theorem map (hx : ReadsIff k pos size a s x p v) {g : α → β} (hg : Function.Injective g) :
    ReadsIff k pos size a s (x >>= fun v => Pure.pure (g v)) p (g v) := by
  refine ⟨fun hp ha => (hx.reads hp ha).map g, fun u hu => ?_⟩
  obtain ⟨v', t, hv, hw⟩ := returns_bind.mp hu
  obtain rfl := hg (returns_pure.mp hw).1
  exact hx.only t hv

/-- Bytes before that are not read. -/
theorem skip {d : ℕ} (h : ReadsIff k (pos + d) size a s x p v) :
    ReadsIff k pos (d + size) a s x p v :=
  ⟨fun hp ha => (h.reads hp ha).skip, h.only⟩

/-- Of a container, only its content is read. -/
theorem content {tag : UInt8} {count : ℕ} {bs : Bytes}
    (h : ReadsIff k (pos + 1 + (Leb128.encode count).length) bs.length a s x p v) :
    ReadsIff k pos (tag :: (Leb128.encode count ++ bs)).length a s x p v :=
  ⟨fun hp ha => (h.reads hp ha).content, h.only⟩

end ReadsIff

end NekoProto.Binary.Reader
