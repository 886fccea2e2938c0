import NekoProto.Lib.Lockstep
import NekoProto.Binary.Parse
import Mathlib.Order.CompletePartialOrder

/-!
# The budget of a parse

A parse never adds to the allocation budget, whether it succeeds or fails (`parseNode_le`).
A budget that stays below a bound is a run in step with itself, so the rules are those of two runs.
-/

namespace NekoProto.Binary

open TwoRuns

/-! ## Operations that only compute -/

section

variable {σ τ ω : Type} [Preorder ω] {S : σ → τ → Prop} {world : σ → ω} {w : ω} {inp : Input}

/-- Two runs of what does not look at the state. -/
abbrev Computes {α : Type} (S : σ → τ → Prop) (world : σ → ω) (w : ω) (x : EStateM Stop σ α)
    (y : EStateM Stop τ α) : Prop :=
  Lockstep S world (fun _ => True) (fun _ => Eq) w x y

theorem addSize_computes {a b : ℕ} : Computes S world w (addSize a b) (addSize a b) :=
  .ite (fun _ => .same) fun _ => .throw trivial

theorem subSize_computes {a b : ℕ} : Computes S world w (subSize a b) (subSize a b) :=
  .ite (fun _ => .same) fun _ => .throw trivial

theorem byteAt_computes {i : ℕ} : Computes S world w (byteAt inp i) (byteAt inp i) := by
  unfold byteAt
  cases inp.data[i]? with
  | none => exact .throw trivial
  | some byte => exact .same

theorem bytesAt_computes {i n : ℕ} : Computes S world w (bytesAt inp i n) (bytesAt inp i n) :=
  .ite (fun _ => .same) fun _ => .throw trivial

theorem readUlebLoop_computes {bits start limit : ℕ} (fuel : ℕ) :
    ∀ {cursor shift value : ℕ} {w : ω},
    Computes S world w (readUlebLoop inp bits start limit fuel cursor shift value)
      (readUlebLoop inp bits start limit fuel cursor shift value) := by
  induction fuel with
  | zero => exact .ite (fun _ => .throw trivial) fun _ => .throw trivial
  | succ fuel ih =>
    intro cursor shift value w
    refine .ite (fun _ => ?_) fun _ => .throw trivial
    refine byteAt_computes.bind_same fun _ byte _ => addSize_computes.bind_same fun _ next _ => ?_
    refine .ite (fun _ => .throw trivial) fun _ => .ite (fun _ => ?_) fun _ => ih
    exact subSize_computes.bind_same fun _ _ _ => .ite (fun _ => .throw trivial) fun _ => .same

theorem readUleb_computes {bits cursor limit : ℕ} :
    Computes S world w (readUleb inp bits cursor limit) (readUleb inp bits cursor limit) :=
  readUlebLoop_computes _

end

/-! ## Parses -/

/-- From a budget of at most `bound` the computation leaves one of at most `bound`. -/
abbrev WithinBudget {α : Type} (bound : ℕ) (x : ParseM α) : Prop :=
  Computes (fun s t : ℕ => s = t ∧ s ≤ bound) (fun _ => ()) () x x

variable {α : Type} {inp : Input} {bound : ℕ}

namespace WithinBudget

theorem throw {stop : Stop} : WithinBudget bound (throw stop : ParseM α) := Lockstep.throw trivial

theorem pure {a : α} : WithinBudget bound (pure a : ParseM α) := .same

theorem fail {code : ErrorCode} {msg : String} : WithinBudget bound (fail code msg : ParseM α) :=
  throw

theorem charge {bytes : ℕ} : WithinBudget bound (charge bytes) := by
  refine .get_bind fun s t hst _ => ?_
  obtain ⟨rfl, hs⟩ := hst
  refine .ite (fun _ => fail) fun hle => ?_
  rw [show Binary.subSize s bytes = _ from if_pos (Nat.not_lt.mp hle), pure_bind]
  intro s' t' _ _
  exact .ok trivial rfl ⟨rfl, (Nat.sub_le s bytes).trans hs⟩

theorem chargeProduct {count elementSize : ℕ} :
    WithinBudget bound (chargeProduct count elementSize) :=
  .ite (fun _ => fail) fun _ => .ite (fun _ => charge) fun _ => throw

theorem readCount {cursor limit maximum : ℕ} {kind : String} :
    WithinBudget bound (readCount inp cursor limit maximum kind) :=
  readUleb_computes.bind_same fun _ _ _ => .ite (fun _ => fail) fun _ => pure

theorem takeString {size cursor limit : ℕ} {msg : String} :
    WithinBudget bound (takeString inp size cursor limit msg) := by
  refine .ite (fun _ => fail) fun _ => subSize_computes.bind_same fun _ rest _ => ?_
  refine .ite (fun _ => fail) fun _ => bytesAt_computes.bind_same fun _ bytes _ => ?_
  exact addSize_computes.bind_same fun _ _ _ => pure

theorem parseMemberKey {tag : ValueTag} {members : List (Member Node)} {cursor limit : ℕ} :
    WithinBudget bound (parseMemberKey inp tag members cursor limit) := by
  refine .ite (fun _ => ?_) fun _ => ?_
  · refine readUleb_computes.bind_same fun _ size _ => takeString.bind_same fun _ name _ => ?_
    exact .ite (fun _ => fail) fun _ => pure
  · refine readUleb_computes.bind_same fun _ key _ => .ite (fun _ => ?_) fun _ => ?_
    · refine takeString.bind_same fun _ name _ => ?_
      exact .ite (fun _ => fail) fun _ => pure
    · exact .ite (fun _ => fail) fun _ => .ite (fun _ => fail) fun _ => pure

section

variable {child : ℕ → ℕ → ℕ → ParseM (Node × ℕ)}
  (hchild : ∀ {cursor limit depth}, WithinBudget bound (child cursor limit depth))

include hchild

theorem parseElements {limit depth : ℕ} (count : ℕ) : ∀ {cursor : ℕ} {elements : List Node},
    WithinBudget bound (parseElements child limit depth count cursor elements) := by
  induction count with
  | zero => exact pure
  | succ count ih =>
    intro cursor elements
    exact addSize_computes.bind_same fun _ _ _ => hchild.bind_same fun _ _ _ => ih

theorem parseMembers {tag : ValueTag} {limit depth : ℕ} (count : ℕ) :
    ∀ {cursor : ℕ} {members : List (Member Node)},
    WithinBudget bound (parseMembers child inp tag limit depth count cursor members) := by
  induction count with
  | zero => exact pure
  | succ count ih =>
    intro cursor members
    refine parseMemberKey.bind_same fun _ key _ => addSize_computes.bind_same fun _ depth' _ => ?_
    exact hchild.bind_same fun _ _ _ => ih

theorem parsePayload {tag : ValueTag} {fr : Frame} :
    WithinBudget bound (parsePayload child inp tag fr) := by
  have hobject : ∀ tag, WithinBudget bound (parseObject child inp tag fr) := fun tag =>
    readCount.bind_same fun _ count _ => chargeProduct.bind_same fun _ _ _ =>
      (parseMembers hchild _).bind_same fun _ _ _ => pure
  have hfixed : ∀ tag, WithinBudget bound (parseFixed tag fr) := fun tag =>
    subSize_computes.bind_same fun _ rest _ => .ite (fun _ => fail) fun _ =>
      addSize_computes.bind_same fun _ _ _ => pure
  cases tag
  case null => exact pure
  case false => exact pure
  case true => exact pure
  case signedInteger => exact readUleb_computes.bind_same fun _ _ _ => pure
  case unsignedInteger => exact readUleb_computes.bind_same fun _ _ _ => pure
  case string =>
    exact readUleb_computes.bind_same fun _ size _ => takeString.bind_same fun _ _ _ => pure
  case array =>
    exact readCount.bind_same fun _ count _ => chargeProduct.bind_same fun _ _ _ =>
      (parseElements hchild _).bind_same fun _ _ _ => pure
  case namedObject => exact hobject _
  case idObject => exact hobject _
  all_goals exact hfixed _

end

end WithinBudget

theorem parseNode_within (fuel : ℕ) : ∀ {cursor limit depth : ℕ},
    WithinBudget bound (parseNode inp fuel cursor limit depth) := by
  induction fuel with
  | zero => exact .throw
  | succ fuel ih =>
    intro cursor limit depth
    refine .ite (fun _ => WithinBudget.fail) fun _ => .ite (fun _ => WithinBudget.fail) fun _ => ?_
    refine WithinBudget.charge.bind_same fun _ _ _ => ?_
    refine byteAt_computes.bind_same fun _ byte _ => ?_
    refine addSize_computes.bind_same fun _ next _ => ?_
    cases ValueTag.ofByte byte with
    | none => exact WithinBudget.fail
    | some tag => exact WithinBudget.parsePayload ih

/-- **A parse does not add to the budget.** -/
theorem parseNode_le {fuel cursor limit depth s t : ℕ} :
    (∀ {r}, parseNode inp fuel cursor limit depth s = .ok r t → t ≤ s) ∧
      ∀ {stop}, parseNode inp fuel cursor limit depth s = .error stop t → t ≤ s := by
  have hwithin : WithinBudget s (parseNode inp fuel cursor limit depth) := parseNode_within fuel
  constructor
  · intro r hr
    obtain ⟨u, -, hst, -⟩ := hwithin.returns ⟨rfl, le_rfl⟩ trivial hr
    exact hst.2
  · intro stop hstop
    obtain ⟨u, -, -, hst, -⟩ := hwithin.fails ⟨rfl, le_rfl⟩ trivial hstop
    exact hst.2

end NekoProto.Binary
