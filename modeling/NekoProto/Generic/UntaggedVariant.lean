import NekoProto.Generic.BinaryRuns
import NekoProto.Generic.JsonReader

/-!
# Untagged variants

A variant without a tag is read by trying all its alternatives and reading again the one that
matched. `untagged_variant`: the read succeeds if and only if exactly one alternative reads the
value on its own, with the value that it reads, and otherwise the variant keeps its value.

1. The count of the alternatives that match (`Tally`), for a reader that goes back after each try
   to a state from which the value can be read again (`Retries`).
2. The Binary Reader goes back to its checkpoint, except for the nodes that the try has parsed and
   that no handle leads to any more (`Restored`). This is so from all states that a user of the
   Reader gets to (`Reached`).
3. The reader of RapidJSON documents has no state.
-/

namespace NekoProto.Generic

open Binary Parsing InPlace Outcome TwoRuns

/-! ## Alternatives -/

namespace Backend

variable (R : Backend) (P : Program)

/-- The parser of a type reads a value into a default object. -/
def ReadsOwn (T : Ty) (tags : Tags) (v : R.InputValue) (s : R.State) (value : T.Value) : Prop :=
  ∃ t, Returns (R.parserRead P T tags v (P.default T)) s value t

/-- The alternative at an index reads a value on its own. -/
def ReadsAlternative (tags : Tags) (v : R.InputValue) (s : R.State) :
    (Ts : Alternatives) → ℕ → Ts.Value → Prop
  | .one T, index, value => index = 0 ∧ R.ReadsOwn P T tags v s value
  | .cons T _, 0, value => ∃ a, value = .inl a ∧ R.ReadsOwn P T tags v s a
  | .cons _ Ts, index + 1, value => ∃ a, value = .inr a ∧ ReadsAlternative tags v s Ts index a

/-- A variant without a tag is read as the one alternative that reads the value on its own. -/
structure ReadsUnique (Ts : Alternatives) (tags : Tags) (v : R.InputValue) (old : Ts.Value)
    (s : R.State) : Prop where
  succeeds_iff : (∃ value t, Returns (R.parserRead P (.variant Ts) tags v old) s value t) ↔
    ∃! index, ∃ value, R.ReadsAlternative P tags.payload v s Ts index value
  value : ∀ value t, Returns (R.parserRead P (.variant Ts) tags v old) s value t →
    ∃ index, R.ReadsAlternative P tags.payload v s Ts index value
  unchanged : (¬∃ value t, Returns (R.parserRead P (.variant Ts) tags v old) s value t) →
    ∃ e t, R.parserRead P (.variant Ts) tags v old s = .error ⟨.error e, old⟩ t

/-- The state after the first tries of `findAlternatives`. -/
def tried (tags : Tags) (v : R.InputValue) : Alternatives → ℕ → R.State → R.State
  | _, 0, s => s
  | .one T, _ + 1, s =>
    leaves (R.tryAlternative (dropping (R.parserRead P T tags v (P.default T))) v) s
  | .cons T Ts, k + 1, s => tried tags v Ts k
    (leaves (R.tryAlternative (dropping (R.parserRead P T tags v (P.default T))) v) s)

end Backend

/-! ## Counting -/

/-- `matchCount` and `matchIndex` after alternatives of which those at the indices in `p` match. -/
inductive Tally (p : ℕ → Prop) (index matchCount matchIndex : ℕ) : ℕ × ℕ → Prop
  | none (h : ∀ i, ¬p i) : Tally p index matchCount matchIndex (matchCount, matchIndex)
  | one {i : ℕ} (h : p i) (unique : ∀ j, p j → j = i) :
    Tally p index matchCount matchIndex (matchCount + 1, index + i)
  | more {i j count last : ℕ} (hne : i ≠ j) (hi : p i) (hj : p j) (h : matchCount + 2 ≤ count) :
    Tally p index matchCount matchIndex (count, last)

namespace Tally

variable {p q : ℕ → Prop} {index matchCount matchIndex : ℕ} {r : ℕ × ℕ}

/-- The first alternative matches. -/
theorem hit (h : Tally p (index + 1) (matchCount + 1) index r) (hfirst : q 0)
    (hq : ∀ i, q (i + 1) ↔ p i) : Tally q index matchCount matchIndex r := by
  cases h with
  | none h =>
    refine .one hfirst fun j hj => ?_
    cases j with
    | zero => rfl
    | succ j => exact absurd ((hq j).mp hj) (h j)
  | one h unique => exact .more (Nat.succ_ne_zero _).symm hfirst ((hq _).mpr h) (by omega)
  | more hne hi hj h =>
    exact .more (fun heq => hne (Nat.succ_injective heq)) ((hq _).mpr hi) ((hq _).mpr hj) (by omega)

/-- The first alternative does not match. -/
theorem miss (h : Tally p (index + 1) matchCount matchIndex r) (hfirst : ¬q 0)
    (hq : ∀ i, q (i + 1) ↔ p i) : Tally q index matchCount matchIndex r := by
  cases h with
  | none h =>
    refine .none fun i => ?_
    cases i with
    | zero => exact hfirst
    | succ i => exact fun hi => h i ((hq i).mp hi)
  | @one i h unique =>
    rw [show index + 1 + i = index + (i + 1) by omega]
    refine .one ((hq i).mpr h) fun j hj => ?_
    cases j with
    | zero => exact absurd hj hfirst
    | succ j => exact congrArg (· + 1) (unique j ((hq j).mp hj))
  | more hne hi hj h =>
    exact .more (fun heq => hne (Nat.succ_injective heq)) ((hq _).mpr hi) ((hq _).mpr hj) h

/-- There is only one alternative. -/
theorem single {found : Bool} (hfirst : q 0 ↔ found = true) (hrest : ∀ i, ¬q (i + 1)) :
    Tally q index matchCount matchIndex
      (if found then (matchCount + 1, index) else (matchCount, matchIndex)) := by
  have hnone : ∀ i, q (i + 1) ↔ False := fun i => iff_false_intro (hrest i)
  cases found with
  | false => exact miss (.none fun _ => id) (fun h => Bool.false_ne_true (hfirst.mp h)) hnone
  | true => exact hit (.none fun _ => id) (hfirst.mpr rfl) hnone

end Tally

/-! ## Trying -/

section

variable {R : Backend} {P : Program} {v : R.InputValue} {s s' : R.State}

/-- A try tells whether the read succeeds, and goes back if the reader can. -/
theorem tryAlternative_returns {α : Type} {read : R.Op α} {r : Except Error α} {u : R.State}
    (h : Returns (result read) s r u) :
    ∃ t, Returns (R.tryAlternative read v) s r.toBool t ∧
      ∀ restore, R.restore = some restore → t = restore s v u := by
  unfold Backend.tryAlternative
  cases R.restore with
  | none =>
    refine ⟨u, returns_get_bind.mpr (returns_bind.mpr ⟨r, u, h, ?_⟩), by simp⟩
    cases r <;> rfl
  | some restore =>
    refine ⟨restore s v u, returns_get_bind.mpr (returns_bind.mpr ⟨r, u, h, ?_⟩), ?_⟩
    · cases r <;> rfl
    · rintro _ ⟨⟩
      rfl

theorem keeping_bind {α β χ : Type} {x : R.Op α} {f : α → R.Op β} {a : α} {t : R.State} {old : χ}
    (h : Returns x s a t) : keeping old (x >>= f) s = keeping old (f a) t := by
  show EStateM.adaptExcept _ (x.bind f) s = EStateM.adaptExcept _ (f a) t
  unfold EStateM.adaptExcept EStateM.bind
  rw [show x s = _ from h]

/-- A read without a fault can be tried. -/
theorem tryAlternative_of_errors {α : Type} {read : R.Op α} (h : FailsOnly IsError read s) :
    ∃ found t, Returns (R.tryAlternative read v) s found t ∧
      (found = true ↔ ∃ a u, Returns read s a u) ∧
      ∀ restore, R.restore = some restore → t = restore s v (leaves read s) := by
  obtain ⟨a, u, hread⟩ | ⟨e, u, hread, he⟩ := h.cases
  · have hresult : Returns (result read) s (.ok a) u := by
      unfold Returns result
      rw [show read s = _ from hread]
    obtain ⟨t, htry, hrestore⟩ := @tryAlternative_returns R v s α read _ u hresult
    refine ⟨true, t, htry, iff_of_true rfl ⟨a, u, hread⟩, ?_⟩
    rwa [Returns.leaves_eq hread]
  · obtain ⟨e, rfl⟩ : ∃ error, e = .error error := by
      cases e with
      | error e => exact ⟨e, rfl⟩
      | _ => exact he.elim
    have hresult : Returns (result read) s (.error e) u := by
      unfold Returns result
      rw [hread]
    obtain ⟨t, htry, hrestore⟩ := @tryAlternative_returns R v s α read _ u hresult
    refine ⟨false, t, htry, iff_of_false Bool.false_ne_true ?_, ?_⟩
    · rintro ⟨a, u', hok⟩
      cases hread.symm.trans hok
    · rwa [show leaves read s = u by unfold leaves; rw [hread]]

/-- Each try starts where the one before it has gone back to. -/
theorem tried_succ {tags : Tags} : (Ts : Alternatives) → ∀ {k : ℕ} {s' : R.State},
    R.tried P tags v Ts (k + 1) s' = R.tried P tags v Ts k s' ∨
    ∃ T, R.tried P tags v Ts (k + 1) s' =
      leaves (R.tryAlternative (dropping (R.parserRead P T tags v (P.default T))) v)
        (R.tried P tags v Ts k s')
  | .one T, 0, _ => .inr ⟨T, rfl⟩
  | .one _, _ + 1, _ => .inl rfl
  | .cons T Ts, 0, s' => .inr ⟨T, by cases Ts <;> rfl⟩
  | .cons _ Ts, _ + 1, _ => tried_succ Ts

end

/-- The states `like s` are those from which `v` can be read as from `s`; a try leads to such a
state again. -/
structure Retries (R : Backend) (P : Program) (like : R.State → Prop) (v : R.InputValue)
    (s : R.State) : Prop where
  coupled {s' : R.State} : like s' →
    ∃ C : Coupling R, C.states s s' ∧ C.values (C.clock s) v v
  kept {T : Ty} {tags : Tags} {s' t : R.State} {found : Bool} : like s' →
    Returns (R.tryAlternative (dropping (R.parserRead P T tags v (P.default T))) v) s' found t →
    like t

namespace Retries

variable {R : Backend} {P : Program} {like : R.State → Prop} {v : R.InputValue} {s s' : R.State}
  (h : Retries R P like v s) {tags : Tags}

include h

/-- From a state like `s` the same is read as from `s`, and nothing has a fault. -/
theorem runs (T : Ty) (hs : like s') :
    (∀ value, R.ReadsOwn P T tags v s' value ↔ R.ReadsOwn P T tags v s value) ∧
      FailsOnly IsError (dropping (R.parserRead P T tags v (P.default T))) s' := by
  obtain ⟨C, hst, hv⟩ := h.coupled hs
  have hread := (@Coupling.parserRead R C P T tags _ _ _ (P.default T) hv).dropping
  refine ⟨fun value => ?_, (hread.safe hst le_rfl).2⟩
  obtain ⟨a, b, t, t', ha, hb, heq, -⟩ | ⟨e, t, t', ha, hb, -⟩ := hread.runs hst le_rfl
  · subst heq
    constructor
    · rintro ⟨u, hu⟩
      obtain ⟨rfl, -⟩ := Returns.unique (dropping_returns.mp hb) hu
      exact ⟨t, dropping_returns.mp ha⟩
    · rintro ⟨u, hu⟩
      obtain ⟨rfl, -⟩ := Returns.unique (dropping_returns.mp ha) hu
      exact ⟨t', dropping_returns.mp hb⟩
  · refine iff_of_false ?_ ?_
    · rintro ⟨u, hu⟩
      cases hb.symm.trans (dropping_returns.mpr hu)
    · rintro ⟨u, hu⟩
      cases ha.symm.trans (dropping_returns.mpr hu)

/-- A try tells whether the value can be read from `s`. -/
theorem try_returns (T : Ty) (hs : like s') :
    ∃ found t, Returns (R.tryAlternative (dropping (R.parserRead P T tags v (P.default T))) v) s'
      found t ∧ like t ∧ ((∃ value, R.ReadsOwn P T tags v s value) ↔ found = true) := by
  obtain ⟨hsame, hfails⟩ := h.runs T hs
  obtain ⟨found, t, htry, hfound, -⟩ := @tryAlternative_of_errors R v s' _ _ hfails
  refine ⟨found, t, htry, h.kept hs htry, ?_⟩
  rw [hfound]
  refine exists_congr fun value => ?_
  rw [← hsame]
  exact exists_congr fun t => dropping_returns.symm

/-- **The alternatives are counted.** -/
theorem findAlternatives_tally : (Ts : Alternatives) → (index matchCount matchIndex : ℕ) →
    ∀ {s' : R.State}, like s' →
    ∃ r t, Returns (R.findAlternatives P Ts tags v index matchCount matchIndex) s' r t ∧ like t ∧
      Tally (fun i => ∃ value, R.ReadsAlternative P tags v s Ts i value) index matchCount
        matchIndex r
  | .one T, index, matchCount, matchIndex, s', hs => by
    obtain ⟨found, t, htry, ht, hfound⟩ := h.try_returns T hs
    refine ⟨_, t, returns_bind.mpr ⟨found, t, htry, returns_pure.mpr ⟨rfl, rfl⟩⟩, ht, ?_⟩
    refine .single ?_ ?_
    · rw [← hfound]
      exact exists_congr fun value => and_iff_right rfl
    · rintro i ⟨value, hi, -⟩
      cases hi
  | .cons T Ts, index, matchCount, matchIndex, s', hs => by
    obtain ⟨found, t, htry, ht, hfound⟩ := h.try_returns T hs
    have hfirst : (∃ value, R.ReadsAlternative P tags v s (.cons T Ts) 0 value) ↔ found = true := by
      rw [← hfound]
      constructor
      · rintro ⟨value, a, -, ha⟩
        exact ⟨a, ha⟩
      · rintro ⟨a, ha⟩
        exact ⟨_, a, rfl, ha⟩
    have hrest : ∀ i, (∃ value, R.ReadsAlternative P tags v s (.cons T Ts) (i + 1) value) ↔
        ∃ value, R.ReadsAlternative P tags v s Ts i value := by
      intro i
      constructor
      · rintro ⟨value, a, -, ha⟩
        exact ⟨a, ha⟩
      · rintro ⟨a, ha⟩
        exact ⟨_, a, rfl, ha⟩
    cases found with
    | false =>
      obtain ⟨r, u, hfind, hu, htally⟩ :=
        findAlternatives_tally Ts (index + 1) matchCount matchIndex ht
      exact ⟨r, u, returns_bind.mpr ⟨false, t, htry, hfind⟩, hu,
        htally.miss (fun h => Bool.false_ne_true (hfirst.mp h)) hrest⟩
    | true =>
      obtain ⟨r, u, hfind, hu, htally⟩ :=
        findAlternatives_tally Ts (index + 1) (matchCount + 1) index ht
      exact ⟨r, u, returns_bind.mpr ⟨true, t, htry, hfind⟩, hu,
        htally.hit (hfirst.mpr rfl) hrest⟩

/-- An alternative is read again as from `s`. -/
theorem again_iff {T : Ty} {text : String} {value : T.Value} (hs : like s') :
    (∃ t, Returns (context text (dropping (R.parserRead P T tags v (P.default T)))) s' value t) ↔
      R.ReadsOwn P T tags v s value :=
  (exists_congr fun _ => adaptExcept_returns.trans dropping_returns).trans ((h.runs T hs).1 value)

/-- The last read is that of the alternative on its own. -/
theorem readAlternative_iff : (Ts : Alternatives) → ∀ {index : ℕ} {value : Ts.Value}, like s' →
    ((∃ t, Returns (R.readAlternative P Ts tags v index) s' value t) ↔
      R.ReadsAlternative P tags v s Ts index value)
  | .one T, 0, value, hs => (h.again_iff hs).trans (and_iff_right rfl).symm
  | .one T, index + 1, value, hs => by
    refine iff_of_false ?_ ?_
    · rintro ⟨t, ht⟩
      cases ht
    · rintro ⟨hi, -⟩
      cases hi
  | .cons T Ts, 0, value, hs => by
    constructor
    · rintro ⟨t, ht⟩
      obtain ⟨a, u, ha, hpure⟩ := returns_bind.mp ht
      exact ⟨a, (returns_pure.mp hpure).1, (h.again_iff hs).mp ⟨u, ha⟩⟩
    · rintro ⟨a, rfl, ha⟩
      obtain ⟨u, hu⟩ := (h.again_iff hs).mpr ha
      exact ⟨u, returns_bind.mpr ⟨a, u, hu, rfl⟩⟩
  | .cons T Ts, index + 1, value, hs => by
    constructor
    · rintro ⟨t, ht⟩
      obtain ⟨a, u, ha, hpure⟩ := returns_bind.mp ht
      exact ⟨a, (returns_pure.mp hpure).1, (readAlternative_iff Ts hs).mp ⟨u, ha⟩⟩
    · rintro ⟨a, rfl, ha⟩
      obtain ⟨u, hu⟩ := (readAlternative_iff Ts hs).mpr ha
      exact ⟨u, returns_bind.mpr ⟨a, u, hu, rfl⟩⟩

/-- **A variant without a tag** is read as the only alternative that reads the value. -/
theorem readsUnique (Ts : Alternatives) (htags : tags.unionEncoding = .untagged) (old : Ts.Value)
    (hs : like s) : R.ReadsUnique P Ts tags v old s := by
  obtain ⟨⟨matchCount, matchIndex⟩, t, hfind, ht, htally⟩ :=
    @findAlternatives_tally R P like v s h tags.payload Ts 0 0 0 s hs
  have hrun : R.parserRead P (.variant Ts) tags v old s =
      keeping old (if matchCount = 0 then
          fail .parseError "No variant alternative matched the input value"
        else if matchCount ≠ 1 then
          fail .parseError "Untagged variant input matches more than one alternative"
        else R.readAlternative P Ts tags.payload v matchIndex) t := by
    exact (congrFun (congrArg (keeping old) (if_pos htags)) s).trans (keeping_bind hfind)
  have hrefused : ∀ msg, R.parserRead P (.variant Ts) tags v old s =
      keeping old (fail .parseError msg : R.Op Ts.Value) t →
      (¬∃! index, ∃ value, R.ReadsAlternative P tags.payload v s Ts index value) →
      R.ReadsUnique P Ts tags v old s := by
    intro msg hfail hnot
    have hnone : ∀ value u, ¬Returns (R.parserRead P (.variant Ts) tags v old) s value u :=
      fun value u hu => by cases hfail.symm.trans hu
    refine ⟨iff_of_false ?_ hnot, fun value u hu => (hnone value u hu).elim, fun _ => ⟨_, t, hfail⟩⟩
    rintro ⟨value, u, hu⟩
    exact hnone value u hu
  cases htally with
  | none hnot =>
    refine hrefused "No variant alternative matched the input value" hrun ?_
    rintro ⟨index, hindex, -⟩
    exact hnot index hindex
  | more hne hi hj hcount =>
    rw [if_neg (by omega), if_pos (by omega)] at hrun
    refine hrefused _ hrun ?_
    rintro ⟨index, -, hunique⟩
    exact hne ((hunique _ hi).trans (hunique _ hj).symm)
  | @one i hi hunique =>
    rw [if_neg (by omega), if_neg (by omega), Nat.zero_add] at hrun
    have hreturns : ∀ value u, Returns (R.parserRead P (.variant Ts) tags v old) s value u ↔
        Returns (R.readAlternative P Ts tags.payload v i) t value u := by
      intro value u
      unfold Returns
      rw [hrun]
      exact keeping_returns
    refine ⟨iff_of_true ?_ ⟨i, hi, hunique⟩, fun value u hu => ?_, fun hnot => ?_⟩
    · obtain ⟨value, hvalue⟩ := hi
      obtain ⟨u, hu⟩ := (h.readAlternative_iff Ts ht).mpr hvalue
      exact ⟨value, u, (hreturns value u).mpr hu⟩
    · exact ⟨i, (h.readAlternative_iff Ts ht).mp ⟨u, (hreturns value u).mp hu⟩⟩
    · obtain ⟨value, hvalue⟩ := hi
      obtain ⟨u, hu⟩ := (h.readAlternative_iff Ts ht).mpr hvalue
      exact (hnot ⟨value, u, (hreturns value u).mpr hu⟩).elim

theorem like_tried (Ts : Alternatives) (hs : like s') (k : ℕ) :
    like (R.tried P tags v Ts k s') := by
  induction k with
  | zero => cases Ts <;> exact hs
  | succ k ih =>
    obtain hsame | ⟨T, htry⟩ := tried_succ Ts
    · rw [hsame]
      exact ih
    · obtain ⟨found, t, hreturns, ht, -⟩ := @try_returns R P like v s _ h tags T ih
      rwa [htry, hreturns.leaves_eq]

end Retries

end NekoProto.Generic

namespace NekoProto.Binary.Reader

open Outcome TwoRuns

/-! ## Going back -/

/-- The state `t` is `s` again. Since then more nodes may have been parsed. -/
structure Restored (s t : State) : Prop where
  offset : t.offset = s.offset
  remainingAllocation : t.remainingAllocation = s.remainingAllocation
  framed : t.framed = s.framed
  error : t.error = s.error
  parses : s.parses ≤ t.parses
  consumed : ∀ i, i.parse < s.parses → (i ∈ t.consumed ↔ i ∈ s.consumed)

/-- A state of the Reader: what is consumed was parsed before, the allocation budget is a
`std::size_t`, and the offset is inside the buffer. -/
structure Proper (inp : Input) (s : State) : Prop where
  fresh : ∀ i ∈ s.consumed, i.parse < s.parses
  budget_lt : s.remainingAllocation < 2 ^ 64
  offset_le : s.offset ≤ inp.size

/-- A handle that was made before the state `s`. -/
structure Held (inp : Input) (s : State) (v : InputValue) : Prop where
  proper : Proper inp s
  sound : Sound inp v
  nodes : ∀ i ∈ nodes v, i.parse < s.parses

variable {inp : Input} {s t u : State} {v w mark : InputValue} {gap : ℕ}

namespace Restored

theorem refl : Restored s s := ⟨rfl, rfl, rfl, rfl, le_rfl, fun _ _ => Iff.rfl⟩

theorem trans (h : Restored s t) (h' : Restored t u) : Restored s u where
  offset := h'.offset.trans h.offset
  remainingAllocation := h'.remainingAllocation.trans h.remainingAllocation
  framed := h'.framed.trans h.framed
  error := h'.error.trans h.error
  parses := h.parses.trans h'.parses
  consumed i hi := (h'.consumed i (hi.trans_le h.parses)).trans (h.consumed i hi)

/-- From both states the same can be read. -/
theorem shifted (h : Restored s t) (hs : Proper inp s) (ht : Proper inp t) :
    Shifted inp s mark (t.parses - s.parses) s t where
  offset := h.offset
  budget := h.remainingAllocation
  framed := h.framed
  error := h.error
  parses := (Nat.add_sub_cancel' h.parses).symm
  consumed i := by
    by_cases hi : i.parse < s.parses
    · rw [← h.consumed i hi, show Shift.id _ i = i from congrArg (NodeId.mk · i.begin)
        (Shift.parse_of_lt hi)]
    · refine iff_of_false (fun hmem => ?_) fun hmem => hi (hs.fresh i hmem)
      have hlt := ht.fresh _ hmem
      have hparse : (Shift.id ⟨s.parses, t.parses - s.parses⟩ i).parse =
          i.parse + (t.parses - s.parses) := Shift.parse_of_le (Nat.not_lt.mp hi)
      omega
  begun := le_rfl
  fresh := hs.fresh
  budget_lt := hs.budget_lt
  offset_le := hs.offset_le
  framed_eq := rfl
  error_eq := rfl
  kept _ _ _ := Iff.rfl

end Restored

theorem Shifted.proper (h : Shifted inp u mark gap s t) : Proper inp s :=
  ⟨h.fresh, h.budget_lt, h.offset_le⟩

theorem Held.handle (h : Held inp s v) : ShiftedHandle inp s v gap s.parses v v :=
  ⟨(Shift.handle_of_lt h.nodes).symm, h.sound, fun i hi => ⟨h.nodes i hi, .inl hi⟩⟩

theorem ShiftedHandle.held (h : ShiftedHandle inp u mark gap s.parses v w) (hs : Proper inp s) :
    Held inp s v := ⟨hs, h.sound, fun i hi => (h.nodes i hi).1⟩

theorem Held.below (h : Held inp s v) (hw : Below inp w v) : Held inp s w :=
  ⟨h.proper, hw.sound h.sound, fun i hi => h.nodes i (hw.nodes i hi)⟩

theorem Held.later (h : Held inp s v) (ht : Proper inp t) (hle : s.parses ≤ t.parses) :
    Held inp t v := ⟨ht, h.sound, fun i hi => (h.nodes i hi).trans_le hle⟩

/-- **A read is rolled back**, however much of the document it has consumed. -/
theorem restored_of_read (hs : Proper inp s) (h : Shifted inp s v gap t u) :
    Restored s (restore (checkpoint s v) t) ∧ Proper inp (restore (checkpoint s v) t) := by
  refine ⟨⟨rfl, rfl, h.framed_eq, h.error_eq, h.begun, fun i hi => ?_⟩, ?_, hs.budget_lt,
    hs.offset_le⟩
  · rw [mem_restore]
    by_cases hmem : i ∈ nodes v
    · simp [hmem]
    · simp [hmem, h.kept i hi hmem]
  · intro i hi
    obtain ⟨-, hi⟩ | ⟨-, hi⟩ := mem_restore.mp hi
    · exact h.fresh i hi
    · exact (hs.fresh i hi).trans_le h.begun

/-! ## Handles that a user of the Reader has -/

/-- The operations of the Reader that change its state. -/
inductive Operation
  | toBasicType (T : Arithmetic)
  | toBasicString
  | isEmpty
  | readFixed (T : Arithmetic) (size : ℕ)
  | next

/-- The state after an operation on a handle. -/
def Operation.after (inp : Input) (v : InputValue) (s : State) : Operation → State
  | .toBasicType T => leaves (Reader.toBasicType inp T v) s
  | .toBasicString => leaves (Reader.toBasicString inp v) s
  | .isEmpty => leaves (Reader.isEmpty inp v) s
  | .readFixed T size => leaves (Reader.readFixed inp T v size) s
  | .next => leaves (Reader.next inp v) s

/-- A user of the Reader has the handle `v` in the state `s`: it comes from the root, which may be
read raw, by any operations on handles that the user has, and by going back to checkpoints. -/
inductive Reached (inp : Input) : State → InputValue → Prop
  | root {s t : State} {v : InputValue} :
    s = init inp ∨ s = { init inp with framed := false, offset := 0 } →
    Returns (root inp) s v t → Reached inp t v
  | element {s : State} {v : InputValue} (index : ℕ) : Reached inp s v →
    Reached inp s (arrayElement inp s v index)
  | field {s : State} {v c : InputValue} {name : Bytes} : Reached inp s v →
    objectField inp s v name = .ok c → Reached inp s c
  | member {s : State} {v : InputValue} {m : Member InputValue} : Reached inp s v →
    m ∈ v.members → Reached inp s m.value
  | next {s t : State} {v w : InputValue} : Reached inp s v → Returns (next inp v) s w t →
    Reached inp t w
  | after {s : State} {v w : InputValue} (op : Operation) : Reached inp s v → Reached inp s w →
    Reached inp (op.after inp w s) v
  | restored {s t : State} {v w : InputValue} : Reached inp t v → Reached inp s w →
    s.parses ≤ t.parses → Reached inp (restore (checkpoint s w) t) v

theorem Proper.shifted (h : Proper inp s) : Shifted inp s mark (s.parses - s.parses) s s :=
  Restored.refl.shifted h h

/-- An operation that does not make a handle. -/
theorem Proper.leaves {α β : Type} {A : ℕ → α → β → Prop} {x : ReadM α} {y : ReadM β}
    (h : Proper inp s)
    (hx : Together inp s mark (s.parses - s.parses) A s.parses x y) :
    Proper inp (leaves x s) ∧ s.parses ≤ (Outcome.leaves x s).parses := by
  obtain ⟨hst, hle⟩ := TwoRuns.Lockstep.leaves hx h.shifted le_rfl
  exact ⟨hst.proper, hle⟩

/-- A handle that an operation makes. -/
theorem Proper.returns {x : ReadM InputValue} (h : Proper inp s)
    (hx : Together inp s mark (s.parses - s.parses)
      (ShiftedHandle inp s mark (s.parses - s.parses)) s.parses x x)
    (hreturns : Returns x s v t) : Held inp t v := by
  obtain ⟨a, b, s', t', ha, hb, hv, hst, -⟩ | ⟨e, s', t', ha, -⟩ := hx.runs h.shifted le_rfl
  · obtain ⟨rfl, rfl⟩ := Returns.unique hreturns ha
    exact hv.held hst.proper
  · cases ha.symm.trans hreturns

theorem init_proper : Proper inp (init inp) := by
  refine ⟨?_, ?_, ?_⟩
  · unfold init
    split_ifs <;> exact nofun
  · rw [init_budget]
    exact inp.limits_lt.budget
  · unfold init
    split_ifs with _ _ hmagic
    · exact Nat.zero_le _
    · exact Nat.zero_le _
    · have hlength := congrArg List.length hmagic
      rw [List.length_take] at hlength
      exact (Nat.le_min.mp hlength.ge).2
    · exact Nat.zero_le _

theorem root_held (hs : Proper inp s) (h : Returns (root inp) s v t) : Held inp t v := by
  cases herror : s.error with
  | some e =>
    cases (root_error herror).symm.trans h
    exact ⟨hs, trivial, nofun⟩
  | none =>
    unfold Returns at h
    rw [root_eq herror] at h
    by_cases hframed : s.framed = true
    · rw [if_pos hframed] at h
      have hparse := @parseAt_together inp s v (s.parses - s.parses) s.parses s.offset 0
        (Nat.zero_le _) (Nat.zero_le _)
      exact hs.returns hparse h
    · rw [if_neg hframed] at h
      have hraw := @rawValue_together inp s v (s.parses - s.parses) s.parses
      exact hs.returns hraw h

theorem Held.after (h : Held inp s v) (op : Operation) :
    Proper inp (op.after inp v s) ∧ s.parses ≤ (op.after inp v s).parses := by
  cases op with
  | toBasicType T => exact h.proper.leaves (toBasicType_together h.handle T)
  | toBasicString => exact h.proper.leaves (toBasicString_together h.handle)
  | isEmpty => exact h.proper.leaves (isEmpty_together h.handle)
  | readFixed T size => exact h.proper.leaves (readFixed_together h.handle T)
  | next => exact h.proper.leaves (next_together h.handle)

/-- **All handles that a user has** were made before, and from trees that the parser accepts. -/
theorem Reached.held (h : Reached inp s v) : Held inp s v := by
  induction h with
  | root hs h =>
    refine root_held ?_ h
    obtain rfl | rfl := hs
    · exact init_proper
    · exact { init_proper with offset_le := Nat.zero_le _ }
  | element index h ih =>
    exact (arrayElement_shifted ih.proper.shifted ih.handle index).held ih.proper
  | @field s v c name h hc ih =>
    have hfound := objectField_shifted ih.proper.shifted ih.handle name
    rw [hc] at hfound
    cases hfound with
    | found hv => exact hv.held ih.proper
  | member h hm ih => exact ih.below (below_member hm)
  | next h hreturns ih =>
    exact ih.proper.returns (next_together ih.handle) hreturns
  | after op h hw ih ihw =>
    obtain ⟨hproper, hle⟩ := ihw.after op
    exact ih.later hproper hle
  | @restored s t v w h hw hle ih ihw =>
    refine ih.later ⟨?_, ihw.proper.budget_lt, ihw.proper.offset_le⟩ le_rfl
    intro i hi
    obtain ⟨-, hi⟩ | ⟨-, hi⟩ := mem_restore.mp hi
    · exact ih.proper.fresh i hi
    · exact (ihw.proper.fresh i hi).trans_le hle

end NekoProto.Binary.Reader

namespace NekoProto.Generic

open Binary Parsing InPlace Outcome TwoRuns
open Binary.Reader (Held Proper Restored Reached)

/-! ## The readers -/

section

variable {inp : Input} {P : Program} {s s' t : State} {v : InputValue} {T : Ty} {tags : Tags}

/-- **A try is rolled back** by the Binary Reader. -/
theorem tryAlternative_restored {found : Bool} (h : Held inp s v)
    (htry : Returns ((binary inp).tryAlternative
      (dropping ((binary inp).parserRead P T tags v (P.default T))) v) s found t) :
    Restored s t ∧ Proper inp t := by
  have hread := (@Coupling.parserRead _ (shiftCoupling inp s v (s.parses - s.parses)) P T tags
    _ _ _ (P.default T) h.handle).dropping
  have hsafe := (hread.safe h.proper.shifted le_rfl).1
  have hleft := (hread.leaves h.proper.shifted le_rfl).1
  obtain ⟨found', t', hreturns, -, hrestore⟩ := @tryAlternative_of_errors (binary inp) v s _ _ hsafe
  obtain ⟨-, rfl⟩ := hreturns.unique htry
  rw [hrestore _ rfl]
  exact Reader.restored_of_read h.proper hleft

theorem binary_retries (h : Held inp s v) :
    Retries (binary inp) P (fun t => Restored s t ∧ Proper inp t) v s where
  coupled hs := ⟨shiftCoupling inp s v _, hs.1.shifted h.proper hs.2, h.handle⟩
  kept hs htry := by
    obtain ⟨hrestored, hproper⟩ := tryAlternative_restored (h.later hs.2 hs.1.parses) htry
    exact ⟨hs.1.trans hrestored, hproper⟩

end

section

variable {conv : Json.Conversions} {P : Program}

/-- Two runs of a computation without a state. -/
abbrev Repeats {α : Type} (n : ℕ) (x y : EStateM Stop Unit α) : Prop :=
  Lockstep (fun _ _ : Unit => True) (fun _ => 0) IsError (fun _ : ℕ => Eq) n x y

theorem ofExcept_repeats {α : Type} {r : Except Error α} {n : ℕ} :
    Repeats n (ofExcept r) (ofExcept r) := by
  cases r with
  | ok a => exact .same
  | error e => exact .throw trivial

theorem forEachJsonMember_repeats {β : Type} {n : ℕ}
    {fn fn' : Bytes → Json.JsonValue → β → EStateM Stop Unit (Bool × β)}
    (h : ∀ m name v w acc, n ≤ m → v = w → Repeats m (fn name v acc) (fn' name w acc))
    (members : List (Bytes × Json.JsonValue)) : ∀ {m : ℕ} {acc : β}, n ≤ m →
    Repeats m (forEachJsonMember fn members acc) (forEachJsonMember fn' members acc) := by
  induction members with
  | nil => exact fun _ => .same
  | cons member members ih =>
    intro m acc hm
    refine (h m _ _ _ acc hm rfl).bind_same fun k r hk => ?_
    exact .ite (fun _ => ih (hm.trans hk)) fun _ => .same

/-- The reader of RapidJSON documents gives the same from the same value. -/
def jsonCoupling (conv : Json.Conversions) : Coupling (json conv) where
  clock _ := 0
  states _ _ := True
  values _ := Eq
  arrays _ := Eq
  objects _ := Eq
  values_mono _ := id
  arrays_mono _ := id
  objects_mono _ := id
  toArray _ hv := hv ▸ ofExcept_repeats
  toObject _ hv := hv ▸ ofExcept_repeats
  toBasicType T _ hv := hv ▸ ofExcept_repeats
  toBasicString _ hv := hv ▸ ofExcept_repeats
  isEmpty _ hv := hv ▸ .same
  arraySize hv := hv ▸ .same
  arrayElement index hv := hv ▸ .same
  objectField _ name hv := by
    subst hv
    refine .pure fun _ _ => ?_
    cases jsonField name _ with
    | ok v => exact .found rfl
    | error e => exact .missing e
  forEachObjectMember _ acc hv h := by
    subst hv
    exact forEachJsonMember_repeats h _ le_rfl
  toFixedBasicType T _ size heq hv := by cases heq
  isRaw heq hv := by cases heq
  isFramedObject heq hv := by cases heq
  next heq hv := by cases heq
  restore heq hst hst' hle hv := by cases heq

theorem json_retries {v : Json.JsonValue} : Retries (json conv) P (fun _ => True) v () where
  coupled _ := ⟨jsonCoupling conv, trivial, rfl⟩
  kept _ _ := trivial

end

/-! ## The main result -/

/-- **A variant without a tag** is read if and only if exactly one alternative reads the value on
its own, with the value that it reads, and keeps its value otherwise. The Binary Reader goes back to
its checkpoint after each try. -/
theorem untagged_variant (P : Program) (Ts : Alternatives) (tags : Tags)
    (htags : tags.unionEncoding = .untagged) (old : Ts.Value) :
    (∀ (inp : Input) (s : State) (v : InputValue), Reached inp s v →
      (binary inp).ReadsUnique P Ts tags v old s ∧
      ∀ k, Restored ((binary inp).tried P tags.payload v Ts k s)
        ((binary inp).tried P tags.payload v Ts (k + 1) s)) ∧
    ∀ (conv : Json.Conversions) (v : Json.JsonValue),
      (json conv).ReadsUnique P Ts tags v old () := by
  refine ⟨fun inp s v hreached => ?_, fun conv v => json_retries.readsUnique Ts htags old trivial⟩
  have hheld := hreached.held
  have hretries := @binary_retries inp P s v hheld
  have hstart : Restored s s ∧ Proper inp s := ⟨.refl, hheld.proper⟩
  refine ⟨hretries.readsUnique Ts htags old hstart, fun k => ?_⟩
  obtain ⟨hrestored, hproper⟩ := @Retries.like_tried _ _ _ _ _ _ hretries tags.payload Ts hstart k
  obtain hsame | ⟨T, htry⟩ := @tried_succ (binary inp) P v tags.payload Ts k s
  · rw [hsame]
    exact .refl
  · obtain ⟨found, t, hreturns, -⟩ :=
      @Retries.try_returns _ _ _ _ _ _ hretries tags.payload T ⟨hrestored, hproper⟩
    rw [htry, hreturns.leaves_eq]
    exact (tryAlternative_restored (hheld.later hproper hrestored.parses) hreturns).1

/-- A document that holds a null. -/
def nullDocument : Input where
  data := binaryMagic ++ [ValueTag.null.toByte]
  size_lt := by decide
  limits_lt := ParseLimits.sized_default

/-- A `std::variant<bool, std::monostate>` that holds true gets the null. -/
theorem untagged_variant_null : ∃ s v value t, Reached nullDocument s v ∧
    Returns ((binary nullDocument).parserRead (Program.ofEnv Env.zero)
      (.variant (.cons (.arithmetic .bool) (.one (.null true)))) { unionEncoding := .untagged } v
      (.inl true)) s value t := by
  have hroot : Reached nullDocument _ _ := .root (.inl rfl) rfl
  refine ⟨_, _, ((((untagged_variant (Program.ofEnv Env.zero)
    (.cons (.arithmetic .bool) (.one (.null true))) { unionEncoding := .untagged } rfl
    (.inl true)).1 nullDocument _ _ hroot).1.succeeds_iff.mpr ?_).imp fun value hvalue =>
      hvalue.imp fun t ht => ⟨hroot, ht⟩)⟩
  refine ⟨1, ⟨.inr (), (), rfl, rfl, _, rfl⟩, fun index hindex => ?_⟩
  obtain ⟨value, hvalue⟩ := hindex
  cases index with
  | zero =>
    obtain ⟨a, -, t, ht⟩ := hvalue
    cases ht
  | succ index =>
    obtain ⟨a, -, hindex, -⟩ := hvalue
    rw [hindex]

end NekoProto.Generic
