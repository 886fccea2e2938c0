import NekoProto.Generic.Atomicity
import NekoProto.Generic.BinaryReader
import NekoProto.Parsing.Headerless

/-!
# What a failed read of a Binary document leaves in its target

`BinaryInputSerializer` reads into a copy of the target if the target can be copied and assigned. A
class that cannot be copied is read in the target itself, and so is an object that is passed as a
`make_tags` wrapper with a reference to it; only then the document is checked for bytes that are
left (`failed_document_keeps_iff`).
-/

namespace NekoProto.Generic

open Binary Parsing InPlace Outcome

/-! ## The serializer -/

/-- How a target is passed: the object itself, or a `TaggedField` that holds it or refers to it. -/
inductive Passing
  | plain
  | held (tags : Tags)
  | referenced (tags : Tags)

namespace Passing

/-- The tags of the target. -/
def tags : Passing → Tags
  | plain => {}
  | held tags => tags
  | referenced tags => tags

/-- `std::is_copy_constructible_v<T> && std::is_move_assignable_v<T>` of the target. -/
def committed (P : Program) (T : Ty) : Passing → Bool
  | referenced _ => false
  | _ => P.copyConstructible T && P.moveAssignable T

end Passing

section

variable (inp : Input) (P : Program)

/-- The root of a document, after the tags of the target have been looked at. -/
def documentRoot (T : Ty) (tags : Tags) : ReadM InputValue := do
  if tags.rawFixedData then
    if T.isObject then modify fun s => { s with framed := false, offset := 0 }
    else
      fail .invalidType "raw_fixed_data requires a reflected object with named fixed-width fields"
  Reader.root inp

/-- `reader.finish()`. -/
def finishDocument : ReadM Unit := do
  let s ← get
  orThrow (Reader.finish inp s)

/-- The read of the root: into a copy, which is committed when the document is complete, or in the
target. -/
def readRoot (T : Ty) (passing : Passing) (v : InputValue) (old : T.Value) :
    TargetM Stop State T.Value T.Value :=
  if passing.committed P T then
    keeping old do
      let parsed ← dropping ((binary inp).parserRead P T passing.tags v old)
      finishDocument inp
      pure parsed
  else do
    let value ← (binary inp).parserRead P T passing.tags v old
    keeping value (finishDocument inp)
    pure value

/-- `BinaryBackend::read`. -/
def binaryRead (T : Ty) (passing : Passing) (old : T.Value) :
    TargetM Stop State T.Value T.Value := do
  let v ← keeping old (documentRoot inp T passing.tags)
  readRoot inp P T passing v old

/-- `InputSerializerAdapter`. -/
structure InputSerializer where
  state : State
  initResult : Except Error Unit
  documentAttempted : Bool := false

/-- The constructor. -/
def InputSerializer.make : InputSerializer :=
  ⟨Reader.init inp, Reader.inputResult (Reader.init inp), false⟩

/-- `operator()`, which reads a document once. -/
def readDocument (T : Ty) (passing : Passing) (old : T.Value) :
    TargetM Stop InputSerializer T.Value T.Value := fun serializer =>
  match serializer.initResult with
  | .error e => .error ⟨.error e, old⟩ serializer
  | .ok () =>
    if serializer.documentAttempted then
      .error ⟨.error ⟨.invalidLength, "A document deserializer cannot read the root value twice"⟩,
        old⟩ serializer
    else
      match binaryRead inp P T passing old serializer.state with
      | .error failure s => .error failure ⟨s, .ok (), true⟩
      | .ok value s =>
        match Reader.finish inp s with
        | .error e => .error ⟨.error e, value⟩ ⟨s, .ok (), true⟩
        | .ok () => .ok value ⟨s, .ok (), true⟩

end

variable {inp : Input} {P : Program} {T : Ty} {passing : Passing} {old : T.Value}

/-! ## Documents -/

theorem finishDocument_returns {s t : State} {u : Unit} :
    Returns (finishDocument inp) s u t ↔ Reader.finish inp s = .ok () ∧ t = s := by
  unfold finishDocument
  rw [returns_get_bind]
  cases Reader.finish inp s with
  | ok u => simp [orThrow, returns_pure]
  | error e => simp [orThrow]

theorem finishDocument_fails {s : State} :
    Fails (finishDocument inp) s ↔ Reader.finish inp s ≠ .ok () := by
  show (∃ e t, orThrow (Reader.finish inp s) s = .error e t) ↔ _
  generalize Reader.finish inp s = r
  cases r with
  | ok u =>
    refine iff_of_false ?_ fun hne => hne rfl
    rintro ⟨e, t, h⟩
    cases h
  | error e =>
    refine iff_of_true ⟨.error e, s, rfl⟩ ?_
    intro h
    cases h

theorem dropping_readRoot {env : Env} {v : InputValue} :
    dropping (readRoot inp (Program.ofEnv env) T passing v old) = (do
      let value ← Parsing.parserRead inp env T passing.tags v old
      finishDocument inp
      pure value) := by
  unfold readRoot
  rw [dropping_ite, dropping_keeping, dropping_bind, binary_parserRead]
  split
  · rfl
  · refine congrArg _ (funext fun value => ?_)
    exact dropping_keeping_bind

/-- **The read of a Binary document**, without what a failed one leaves. -/
theorem dropping_binaryRead {env : Env} :
    dropping (binaryRead inp (Program.ofEnv env) T passing old) =
      Parsing.read inp env T passing.tags old := by
  refine dropping_keeping_bind.trans ?_
  refine (congrArg (documentRoot inp T passing.tags >>= ·)
    (funext fun v => dropping_readRoot)).trans ?_
  unfold documentRoot Parsing.read
  cases passing.tags.rawFixedData with
  | false => rfl
  | true =>
    cases T.isObject with
    | false => rfl
    | true => rfl

/-! ## Failed documents -/

/-- The document would show in a target that is read in place: the input disturbs it, or its new
value is followed by bytes that are left. -/
def Exposed (inp : Input) (P : Program) (T : Ty) (tags : Tags) (old : T.Value) : State → Prop :=
  After (documentRoot inp T tags) fun v t =>
    (binary inp).Disturbed P T tags v old t ∨
      After ((binary inp).parserRead P T tags v old)
        (fun value u => value ≠ old ∧ Reader.finish inp u ≠ .ok ()) t

theorem spoils_readRoot {v : InputValue} {t : State} :
    Spoils (readRoot inp P T passing v old) old t ↔ passing.committed P T = false ∧
      ((binary inp).Disturbed P T passing.tags v old t ∨
        After ((binary inp).parserRead P T passing.tags v old)
          (fun value u => value ≠ old ∧ Reader.finish inp u ≠ .ok ()) t) := by
  unfold readRoot
  cases passing.committed P T with
  | true => simpa using not_spoils_keeping
  | false =>
    simp only [Bool.false_eq_true, if_false, true_and]
    rw [spoils_bind, Backend.spoils_parserRead]
    refine or_congr_right (exists_congr fun value => exists_congr fun u =>
      and_congr_right fun _ => ?_)
    rw [spoils_bind, spoils_keeping, finishDocument_fails]
    simp only [not_spoils_pure, and_false, exists_false, or_false]

theorem spoils_binaryRead {s : State} :
    Spoils (binaryRead inp P T passing old) old s ↔
      passing.committed P T = false ∧ Exposed inp P T passing.tags old s := by
  refine (spoils_keeping_bind fun v t => spoils_readRoot).trans ?_
  constructor
  · rintro ⟨v, t, hroot, hcommitted, h⟩
    exact ⟨hcommitted, v, t, hroot, h⟩
  · rintro ⟨hcommitted, v, t, hroot, h⟩
    exact ⟨v, t, hroot, hcommitted, h⟩

/-- What is returned has been checked for bytes that are left. -/
theorem binaryRead_finished {s t : State} {value : T.Value}
    (h : Returns (binaryRead inp P T passing old) s value t) : Reader.finish inp t = .ok () := by
  unfold binaryRead readRoot at h
  obtain ⟨v, u, -, h⟩ := returns_bind.mp h
  cases hcommitted : passing.committed P T with
  | true =>
    rw [if_pos hcommitted, keeping_returns] at h
    obtain ⟨parsed, w, -, hrest⟩ := returns_bind.mp h
    obtain ⟨_, w', hfinish, hend⟩ := returns_bind.mp hrest
    obtain ⟨hok, rfl⟩ := finishDocument_returns.mp hfinish
    cases hend
    exact hok
  | false =>
    rw [if_neg (hcommitted ▸ Bool.false_ne_true)] at h
    obtain ⟨parsed, w, -, hrest⟩ := returns_bind.mp h
    obtain ⟨_, w', hfinish, hend⟩ := returns_bind.mp hrest
    obtain ⟨hok, rfl⟩ := finishDocument_returns.mp (keeping_returns.mp hfinish)
    cases hend
    exact hok

section

variable {serializer : InputSerializer}

/-- A document that is read now. -/
theorem readDocument_ready (hinit : serializer.initResult = .ok ())
    (hattempted : serializer.documentAttempted = false) :
    (∀ failure t, readDocument inp P T passing old serializer = .error failure t →
      failure.left = old) ↔ ¬Spoils (binaryRead inp P T passing old) old serializer.state := by
  unfold readDocument
  rw [hinit, hattempted]
  cases h : binaryRead inp P T passing old serializer.state with
  | error failure s =>
    obtain ⟨stop, left⟩ := failure
    rw [spoils_of_error h, not_not]
    constructor
    · intro hkeeps
      exact hkeeps ⟨stop, left⟩ ⟨s, .ok (), true⟩ rfl
    · rintro rfl failure t heq
      cases heq
      rfl
  | ok value s =>
    refine iff_of_true (fun failure t heq => ?_) (not_spoils_of_returns h)
    simp only [Bool.false_eq_true, if_false, binaryRead_finished h] at heq
    cases heq

/-- A document that is refused before it is read. -/
theorem readDocument_refused
    (h : serializer.initResult ≠ .ok () ∨ serializer.documentAttempted = true)
    {failure : Failure Stop T.Value} {t : InputSerializer}
    (hfailure : readDocument inp P T passing old serializer = .error failure t) :
    failure.left = old := by
  unfold readDocument at hfailure
  cases hinit : serializer.initResult with
  | error e =>
    rw [hinit] at hfailure
    cases hfailure
    rfl
  | ok u =>
    rcases h with hne | hattempted
    · exact absurd hinit hne
    · rw [hinit, hattempted] at hfailure
      cases hfailure
      rfl

end

/-- **A failed document** leaves the target as it was, unless the target is read in place, the
document is read at all, and it shows there. -/
theorem failed_document_keeps_iff (inp : Input) (P : Program) (T : Ty) (passing : Passing)
    (old : T.Value) (serializer : InputSerializer) :
    (∀ failure t, readDocument inp P T passing old serializer = .error failure t →
      failure.left = old) ↔
    passing.committed P T = true ∨ serializer.initResult ≠ .ok () ∨
      serializer.documentAttempted = true ∨
      ¬Exposed inp P T passing.tags old serializer.state := by
  by_cases hrefused : serializer.initResult ≠ .ok () ∨ serializer.documentAttempted = true
  · refine iff_of_true (fun failure t => readDocument_refused hrefused) ?_
    rcases hrefused with hinit | hattempted
    · exact .inr (.inl hinit)
    · exact .inr (.inr (.inl hattempted))
  · obtain ⟨hinit, hattempted⟩ := not_or.mp hrefused
    rw [readDocument_ready (not_not.mp hinit) (Bool.not_eq_true _ ▸ hattempted), spoils_binaryRead,
      not_and_or, Bool.not_eq_false]
    constructor
    · rintro (hcommitted | hexposed)
      · exact .inl hcommitted
      · exact .inr (.inr (.inr hexposed))
    · rintro (hcommitted | h | h | hexposed)
      · exact .inl hcommitted
      · exact absurd h hinit
      · exact absurd h hattempted
      · exact .inr hexposed

/-- Two bytes without a header. -/
def trailingByte : Input where
  data := [5, 0]
  size_lt := by decide
  limits_lt := ParseLimits.sized_default

/-- A class with one `std::uint8_t` of one byte. -/
def byteRecord : Ty :=
  .object false
    (.cons [0x61] { fixedLength := some 1 } (.arithmetic (.integer false .w8)) .nil)

/-- A raw record behind a reference, with a byte behind its only field: the field is stored before
the document is found to be too long. -/
theorem trailing_byte_stored : ¬∀ failure t, readDocument trailingByte (Program.ofEnv Env.zero)
    byteRecord (.referenced { rawFixedData := true }) (0#8, ()) (.make trailingByte) =
      .error failure t → failure.left = ((0#8, ()) : byteRecord.Value) := by
  intro h
  have heq := h ⟨_, (5#8, ())⟩ _ rfl
  have hfield : (5#8 : BitVec 8) = 0#8 := congrArg Prod.fst heq
  exact absurd hfield (by decide)

end NekoProto.Generic
