import NekoProto.Generic.BinaryDocument
import NekoProto.Generic.UntaggedVariant

/-!
# Reading Binary documents has no faults

`reading_never_faults`: whatever bytes a buffer holds, and wherever in it the Reader is, a read into
a target of any type ends with a value or with an error of the library. It never reads outside the
buffer, never leaves the range of `std::size_t` and never runs without an end, and the Reader is
left with its cursor inside the buffer.

1. A read from a handle that was made before is a run in step with itself (`shiftCoupling` without a
   shift), so it has no faults and keeps the state proper (`parserRead_safe`).
2. A document begins with a handle of its root (`documentRoot_safe`).
3. The serializer is left with a proper state by every read (`readDocument_safe`).
-/

namespace NekoProto.Generic

open Binary Parsing InPlace Outcome
open Binary.Reader (Held Proper root_held root_error root_eq parseAt_safe init_proper)

/-! ## Reads without faults -/

/-- A computation of the Reader that only fails with errors, and leaves a proper state. -/
structure Safe {ε α : Type} (stop : ε → Stop) (inp : Input) (x : EStateM ε State α) (s : State) :
    Prop where
  errors : FailsOnly (fun e => IsError (stop e)) x s
  proper : Proper inp (leaves x s)

section

variable {inp : Input} {P : Program} {T : Ty} {tags : Tags} {s : State} {v : InputValue}
  {old : T.Value} {ε α β χ : Type} {stop : ε → Stop}

namespace Safe

theorem pure {a : α} (hs : Proper inp s) : Safe stop inp (pure a) s := ⟨.pure, hs⟩

/-- **Sequencing.** What follows is run from the states that the first part leaves. -/
theorem bind {x : EStateM ε State α} {f : α → EStateM ε State β} (hx : Safe stop inp x s)
    (hf : ∀ a t, Returns x s a t → Proper inp t → Safe stop inp (f a) t) :
    Safe stop inp (x >>= f) s := by
  have hproper : ∀ a t, Returns x s a t → Proper inp t := by
    intro a t h
    rw [← h.leaves_eq]
    exact hx.proper
  refine ⟨hx.errors.bind fun a t h => (hf a t h (hproper a t h)).errors, ?_⟩
  rcases hx.errors.cases with ⟨a, t, h⟩ | ⟨e, t, h, -⟩
  · have hrest := (hf a t h (hproper a t h)).proper
    have hleaves : leaves (x >>= f) s = leaves (f a) t := by
      show leaves (x.bind f) s = _
      unfold leaves EStateM.bind
      rw [show x s = _ from h]
    rwa [hleaves]
  · have hleaves : leaves (x >>= f) s = leaves x s := by
      show leaves (x.bind f) s = _
      unfold leaves EStateM.bind
      rw [h]
    rw [hleaves]
    exact hx.proper

/-- The failures with other data beside the error. -/
theorem adaptExcept {ε' : Type} {stop' : ε' → Stop} {f : ε → ε'} {x : EStateM ε State α}
    (hf : ∀ e, stop' (f e) = stop e) (hx : Safe stop inp x s) :
    Safe stop' inp (EStateM.adaptExcept f x) s := by
  have hproper := hx.proper
  rcases hx.errors.cases with ⟨a, t, h⟩ | ⟨e, t, h, he⟩
  · unfold leaves at hproper
    rw [show x s = _ from h] at hproper
    have hrun : EStateM.adaptExcept f x s = .ok a t := by
      unfold EStateM.adaptExcept
      rw [show x s = _ from h]
    refine ⟨fun e u hu => ?_, ?_⟩
    · cases hrun.symm.trans hu
    · unfold leaves
      rwa [hrun]
  · unfold leaves at hproper
    rw [h] at hproper
    have hrun : EStateM.adaptExcept f x s = .error (f e) t := by
      unfold EStateM.adaptExcept
      rw [h]
    refine ⟨fun e' u hu => ?_, ?_⟩
    · cases hrun.symm.trans hu
      rwa [hf e]
    · unfold leaves
      rwa [hrun]

theorem keeping {x : ReadM α} {old : χ} (hx : Safe id inp x s) :
    Safe Failure.stop inp (keeping old x) s := hx.adaptExcept fun _ => rfl

theorem dropping {x : TargetM Stop State χ α} (hx : Safe Failure.stop inp x s) :
    Safe id inp (dropping x) s := hx.adaptExcept fun _ => rfl

end Safe

/-- **A read from a handle** has no faults, whatever the type is. -/
theorem parserRead_safe (h : Held inp s v) :
    Safe Failure.stop inp ((binary inp).parserRead P T tags v old) s := by
  have hread := @Coupling.parserRead _ (shiftCoupling inp s v (s.parses - s.parses)) P T tags
    _ _ _ old h.handle
  refine ⟨(hread.safe h.proper.shifted le_rfl).1, ?_⟩
  exact (hread.leaves h.proper.shifted le_rfl).1.proper

/-! ## Documents -/

/-- The root of a document is a handle. -/
theorem root_safe (hs : Proper inp s) : Safe id inp (Reader.root inp) s := by
  obtain ⟨v, t, hroot⟩ : ∃ v t, Returns (Reader.root inp) s v t := by
    unfold Returns
    cases herror : s.error with
    | some e => exact ⟨_, _, root_error herror⟩
    | none =>
      rw [root_eq herror]
      by_cases hframed : s.framed = true
      · rw [if_pos hframed]
        exact parseAt_safe hs.budget_lt (Nat.zero_le _) (Nat.zero_le _)
      · rw [if_neg hframed]
        exact ⟨_, _, rfl⟩
  refine ⟨fun e u hu => ?_, ?_⟩
  · cases hu.symm.trans hroot
  · rw [hroot.leaves_eq]
    exact (root_held hs hroot).proper

theorem documentRoot_safe (hs : Proper inp s) : Safe id inp (documentRoot inp T tags) s := by
  unfold documentRoot
  cases tags.rawFixedData with
  | false => exact root_safe hs
  | true =>
    cases T.isObject with
    | false => exact ⟨.throw trivial, hs⟩
    | true =>
      have hraw : Proper inp { s with framed := false, offset := 0 } :=
        { hs with offset_le := Nat.zero_le _ }
      exact ⟨(root_safe hraw).errors, (root_safe hraw).proper⟩

/-- The handle that a document begins with. -/
theorem documentRoot_held (hs : Proper inp s) {t : State}
    (h : Returns (documentRoot inp T tags) s v t) : Held inp t v := by
  unfold documentRoot at h
  cases hraw : tags.rawFixedData with
  | false =>
    rw [hraw] at h
    exact root_held hs h
  | true =>
    rw [hraw] at h
    cases hobject : T.isObject with
    | false =>
      rw [hobject] at h
      cases h
    | true =>
      rw [hobject] at h
      exact root_held (s := { s with framed := false, offset := 0 })
        { hs with offset_le := Nat.zero_le _ } h

theorem finishDocument_safe (hs : Proper inp s) : Safe id inp (finishDocument inp) s := by
  show Safe id inp (get >>= fun s => orThrow (Reader.finish inp s)) s
  refine ⟨?_, ?_⟩
  · intro e t h
    rw [get_bind_apply] at h
    cases hfinish : Reader.finish inp s with
    | ok u =>
      rw [hfinish] at h
      cases h
    | error e' =>
      rw [hfinish] at h
      cases h
      exact trivial
  · unfold leaves
    rw [get_bind_apply]
    cases Reader.finish inp s <;> exact hs

theorem binaryRead_safe {passing : Passing} (hs : Proper inp s) :
    Safe Failure.stop inp (binaryRead inp P T passing old) s := by
  refine (documentRoot_safe hs).keeping.bind fun v t hroot _ => ?_
  have hheld := documentRoot_held hs (keeping_returns.mp hroot)
  unfold readRoot
  by_cases hcommitted : passing.committed P T = true
  · rw [if_pos hcommitted]
    refine Safe.keeping ((parserRead_safe hheld).dropping.bind fun value u _ hu => ?_)
    exact (finishDocument_safe hu).bind fun _ _ _ hw => .pure hw
  · rw [if_neg hcommitted]
    refine (parserRead_safe hheld).bind fun value u _ hu => ?_
    exact (finishDocument_safe hu).keeping.bind fun _ _ _ hw => .pure hw

end

/-! ## Serializers -/

section

variable {inp : Input} {P : Program} {T : Ty} {passing : Passing} {old : T.Value}
  {serializer : InputSerializer}

/-- One call. -/
theorem readDocument_safe (hs : Proper inp serializer.state) :
    FailsOnly (fun failure => IsError failure.stop) (readDocument inp P T passing old) serializer ∧
    Proper inp (leaves (readDocument inp P T passing old) serializer).state := by
  unfold FailsOnly leaves readDocument
  cases serializer.initResult with
  | error e =>
    refine ⟨fun failure t h => ?_, hs⟩
    cases h
    exact trivial
  | ok u =>
    cases serializer.documentAttempted with
    | true =>
      refine ⟨fun failure t h => ?_, hs⟩
      cases h
      exact trivial
    | false =>
      have hread := @binaryRead_safe inp P T serializer.state old passing hs
      have hproper := hread.proper
      unfold leaves at hproper
      cases hrun : binaryRead inp P T passing old serializer.state with
      | error failure s =>
        rw [hrun] at hproper
        refine ⟨fun failure' t h => ?_, hproper⟩
        cases h
        exact hread.errors failure s hrun
      | ok value s =>
        rw [hrun] at hproper
        simp only [Bool.false_eq_true, if_false, binaryRead_finished hrun]
        refine ⟨fun failure t h => ?_, hproper⟩
        cases h

end

/-- **Reading has no faults**: from any bytes, with any limits, from any offset and with any budget,
into any type, by the backend alone and by a serializer whatever it has been asked for before. What
a read leaves is a state to read from again, and so is what a new serializer begins with. -/
theorem reading_never_faults (inp : Input) (P : Program) (T : Ty) (passing : Passing)
    (old : T.Value) (s : State) (hs : Proper inp s) :
    FailsOnly (fun failure => IsError failure.stop) (binaryRead inp P T passing old) s ∧
    Proper inp (leaves (binaryRead inp P T passing old) s) ∧
    (∀ serializer : InputSerializer, serializer.state = s →
      FailsOnly (fun failure => IsError failure.stop) (readDocument inp P T passing old)
        serializer ∧
      Proper inp (leaves (readDocument inp P T passing old) serializer).state) ∧
    Proper inp (InputSerializer.make inp).state := by
  have hread : Safe Failure.stop inp (binaryRead inp P T passing old) s := binaryRead_safe hs
  refine ⟨hread.errors, hread.proper, ?_, init_proper⟩
  rintro serializer rfl
  exact readDocument_safe hs

/-- A raw record from a buffer that is too long for it, and from the second byte of it. -/
theorem reading_trailing_byte_never_faults :
    FailsOnly (fun failure => IsError failure.stop)
        (readDocument trailingByte (Program.ofEnv Env.zero) byteRecord
          (.referenced { rawFixedData := true }) (0#8, ())) (.make trailingByte) ∧
      FailsOnly (fun failure => IsError failure.stop)
        (binaryRead trailingByte (Program.ofEnv Env.zero) byteRecord .plain (0#8, ()))
        { offset := 1, remainingAllocation := 3 } := by
  have hmake : Proper trailingByte (InputSerializer.make trailingByte).state := init_proper
  have hsecond : Proper trailingByte { offset := 1, remainingAllocation := 3 } :=
    ⟨nofun, by decide, by decide⟩
  exact ⟨((reading_never_faults trailingByte (Program.ofEnv Env.zero) byteRecord
      (.referenced { rawFixedData := true }) (0#8, ()) _ hmake).2.2.1 _ rfl).1,
    (reading_never_faults trailingByte (Program.ofEnv Env.zero) byteRecord .plain (0#8, ()) _
      hsecond).1⟩

end NekoProto.Generic
