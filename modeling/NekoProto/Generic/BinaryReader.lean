import NekoProto.Generic.Read

/-!
# The Binary Reader as a reader

The Binary Reader is a reader for `parser_read` (`binary`), and with it `parser_read` is the read
of values from Binary documents (`binary_parserRead`), which does not keep what a failed read
leaves.
-/

namespace NekoProto.Generic

open Binary Parsing InPlace
open Binary.Reader (nameText)

/-- The Binary Reader over an input. -/
abbrev binary (inp : Input) : Backend where
  State := State
  InputValue := InputValue
  InputArray := InputValue
  InputObject := InputValue
  toArray _ v := Reader.toArray inp v
  toObject _ v := Reader.toObject inp v
  toBasicType T _ v := Reader.toBasicType inp T v
  toBasicString _ v := Reader.toBasicString inp v
  isEmpty _ v := Reader.isEmpty inp v
  arraySize array := pure (Reader.arraySize array)
  arrayElement array index := do
    let s ← get
    pure (Reader.arrayElement inp s array index)
  objectField _ object name := do
    let s ← get
    pure (Reader.objectField inp s object name)
  forEachObjectMember _ object fn acc := Reader.forEachObjectMember inp object fn acc
  toFixedBasicType := some fun T _ v size => Reader.readFixed inp T v size
  stream := some ⟨Reader.isRaw, Reader.isFramedObject, Reader.next inp⟩
  restore := some fun s v => Reader.restore (Reader.checkpoint s v)

/-! ## Errors -/

section

variable {α β : Type} {x : ReadM α}

theorem context_eq {text : String} : context text x = Parsing.context text x := by
  funext s
  unfold context Parsing.context EStateM.adaptExcept describe
  cases x s with
  | ok a t => rfl
  | error stop t => cases stop <;> rfl

theorem dropping_contextOf {text : String} {y : TargetM Stop State β α} :
    dropping (contextOf text y) = Parsing.context text (dropping y) :=
  dropping_rename.trans context_eq

theorem get_pure_bind {f : State → β} {g : β → ReadM α} :
    ((do let s ← get; pure (f s)) >>= g) = get >>= fun s => g (f s) := rfl

theorem result_eq : result x = Parsing.result x := by
  funext s
  unfold result Parsing.result
  cases x s with
  | ok a t => rfl
  | error stop t => cases stop <;> rfl

end

variable {inp : Input} {tags : Tags} {v : InputValue}

/-! ## Scalars -/

theorem binary_readArithmetic {T : Arithmetic} :
    (binary inp).readArithmetic T tags v = Parsing.readArithmetic inp T tags v := by
  unfold Backend.readArithmetic Parsing.readArithmetic
  cases tags.fixedLengthOf T with
  | none => rfl
  | some size => rfl

theorem binary_readEnumeration {signed : Bool} {width : Width}
    {names : List (Bytes × BitVec width.bits)} :
    (binary inp).readEnumeration signed width names tags v =
      Parsing.readEnumeration inp signed width names tags v := by
  unfold Backend.readEnumeration Parsing.readEnumeration
  simp only [binary_readArithmetic, context_eq, result_eq]
  rfl

theorem binary_readNullable {α : Type} {text : String} {read : ReadM α} :
    (binary inp).readNullable text tags read v = Parsing.readNullable inp text read v := by
  unfold Backend.readNullable Parsing.readNullable
  simp only [context_eq]

/-! ## Arrays -/

theorem binary_readItems {α : Type} {read : InputValue → α → ReadM α} {initial : α}
    {insert : List α → α → Option (List α)} {array : InputValue} :
    ∀ {count index : ℕ} {parsed : List α},
    (binary inp).readItems (fun v => read v initial) insert array count index parsed =
      Parsing.readItems inp read initial insert array count index parsed
  | 0, _, _ => rfl
  | count + 1, index, parsed => by
    have ih := @binary_readItems α read initial insert array count
    unfold Backend.readItems Parsing.readItems
    simp only [context_eq, ih]
    rfl

theorem binary_readSequence {α : Type} {read : InputValue → α → ReadM α} {initial : α}
    {insert : List α → α → Option (List α)} :
    (binary inp).readSequence tags (fun v => read v initial) insert v =
      Parsing.readSequence inp read initial insert v := by
  unfold Backend.readSequence Parsing.readSequence
  simp only [binary_readItems]
  rfl

section

variable {α : Type} {read : InputValue → α → TargetM Stop State α α}
  {read' : InputValue → α → ReadM α} {array : InputValue}

theorem binary_readElement {text : String} {index : ℕ} {old : α}
    (h : ∀ v, dropping (read v old) = read' v old) :
    dropping ((binary inp).readElement text array index read old) = (do
      let s ← get
      Parsing.context text (read' (Reader.arrayElement inp s array index) old)) := by
  unfold Backend.readElement
  simp only [dropping_bind, dropping_keeping, dropping_contextOf, h]
  rfl

theorem binary_readArrayItems (h : ∀ v old, dropping (read v old) = read' v old) :
    ∀ {index : ℕ} {values : List α},
    dropping ((binary inp).readArrayItems read array index values) =
      Parsing.readArrayItems inp read' array index values
  | _, [] => rfl
  | index, old :: olds => by
    have ih := @binary_readArrayItems h (index + 1) olds
    rw [Backend.readArrayItems_cons]
    unfold Parsing.readArrayItems
    simp only [dropping_inTurn, binary_readElement fun v => h v old, ih]
    rfl

theorem binary_readArray (h : ∀ v old, dropping (read v old) = read' v old) {size : ℕ}
    {old : Backend.Fixed α size} :
    dropping ((binary inp).readArray tags read v old) = Parsing.readArray inp read' v old := by
  unfold Backend.readArray Parsing.readArray
  simp only [dropping_bind, dropping_within, dropping_pure, dropping_keeping, dropping_ite,
    binary_readArrayItems h]
  rfl

end

/-! ## Objects with fixed fields -/

section

variable {α β : Type} {read : InputValue → α → TargetM Stop State α α}
  {read' : InputValue → ReadM α} {readSecond : InputValue → β → TargetM Stop State β β}
  {readSecond' : InputValue → ReadM β} {object : InputValue}

theorem binary_readRequired {name : Bytes} {missing text : String} {old : α}
    (h : ∀ v, dropping (read v old) = read' v) :
    dropping ((binary inp).readRequired object name missing text read old) =
      Parsing.readRequired inp object name missing text read' := by
  unfold Backend.readRequired Parsing.readRequired
  simp only [dropping_bind, dropping_keeping, get_pure_bind]
  congr 1
  funext s
  cases Reader.objectField inp s object name with
  | error e => exact dropping_keeping
  | ok field => exact dropping_contextOf.trans (congrArg _ (h field))

theorem binary_readPair {old : α × β} (h : ∀ v, dropping (read v old.1) = read' v)
    (hsecond : ∀ v, dropping (readSecond v old.2) = readSecond' v) :
    dropping ((binary inp).readPair tags read readSecond v old) =
      Parsing.readPair inp read' readSecond' v := by
  unfold Backend.readPair Parsing.readPair
  simp only [dropping_bind, dropping_inTurn, dropping_keeping, binary_readRequired h,
    binary_readRequired hsecond, id]

/-! ## Maps -/

theorem binary_readEntries {initial : α} {initialSecond : β}
    (h : ∀ v, dropping (read v initial) = read' v)
    (hsecond : ∀ v, dropping (readSecond v initialSecond) = readSecond' v) {unique : Bool}
    {equivalent : α → α → Bool} {array : InputValue} : ∀ {count index : ℕ} {parsed : List (α × β)},
    (binary inp).readEntries read initial readSecond initialSecond unique equivalent array count
        index parsed =
      Parsing.readEntries inp read' readSecond' unique equivalent array count index parsed
  | 0, _, _ => rfl
  | count + 1, index, parsed => by
    have ih := @binary_readEntries initial initialSecond h hsecond unique equivalent array count
    unfold Backend.readEntries Parsing.readEntries
    simp only [context_eq, binary_readRequired h, binary_readRequired hsecond, ih]
    rfl

theorem binary_readEntryMap {initial : α} {initialSecond : β}
    (h : ∀ v, dropping (read v initial) = read' v)
    (hsecond : ∀ v, dropping (readSecond v initialSecond) = readSecond' v) {unique : Bool}
    {equivalent : α → α → Bool} :
    (binary inp).readEntryMap tags read initial readSecond initialSecond unique equivalent v =
      Parsing.readEntryMap inp read' readSecond' unique equivalent v := by
  unfold Backend.readEntryMap Parsing.readEntryMap
  simp only [binary_readEntries h hsecond]
  rfl

theorem binary_readMember :
    (binary inp).readMember read' = Parsing.readMember read' := by
  funext name field acc
  obtain ⟨outcome, parsed⟩ := acc
  cases outcome with
  | error e => rfl
  | ok u =>
    unfold Backend.readMember
    rw [context_eq, result_eq]
    rfl

theorem binary_readStringMap :
    (binary inp).readStringMap tags read' v = Parsing.readStringMap inp read' v := by
  unfold Backend.readStringMap Parsing.readStringMap
  simp only [binary_readMember]
  rfl

/-! ## Fields of reflected classes -/

theorem binary_readReflectField {T : Ty} {P : Program} (hnull : P.setNull T = T.setNull)
    {name : Bytes} {read : InputValue → T.Value → TargetM Stop State T.Value T.Value}
    {read' : InputValue → T.Value → ReadM T.Value} {old : T.Value}
    (h : ∀ v, dropping (read v old) = read' v old) :
    dropping ((binary inp).readReflectField (P.setNull T) name tags read v old) =
      Parsing.readReflectField inp T name tags read' v old := by
  unfold Backend.readReflectField Parsing.readReflectField
  simp only [dropping_bind, dropping_keeping, hnull, get_pure_bind]
  congr 1
  funext object
  congr 1
  funext s
  cases Reader.objectField inp s object (tags.fieldName name) with
  | error e =>
    unfold Backend.readMissingField Parsing.readMissingField
    rw [dropping_ite]
    cases T.setNull with
    | none => rfl
    | some null => rfl
  | ok field =>
    unfold Backend.readPresentField Parsing.readPresentField
    simp only [dropping_bind, dropping_keeping]
    congr 2
    funext empty
    cases empty with
    | false => exact dropping_contextOf.trans (congrArg _ (h field))
    | true =>
      cases T.setNull with
      | none => exact dropping_contextOf.trans (congrArg _ (h field))
      | some null => rfl

end

/-! ## Values one after the other -/

section

variable {α β : Type}

theorem result_dropping {y : TargetM Stop State α α} :
    Parsing.result (dropping y) = (do
      let (outcome, value) ← dropping (settle y)
      pure (outcome.map fun _ => value)) := by
  funext s
  change _ = (EStateM.bind _ _) s
  unfold Parsing.result EStateM.bind dropping settle EStateM.adaptExcept
  cases h : y s with
  | ok a t =>
    simp only [h]
    rfl
  | error failure t =>
    obtain ⟨stop, left⟩ := failure
    simp only [h]
    cases stop <;> rfl

theorem orThrow_map_bind {outcome : Except Error Unit} {value : α} {g : α → ReadM β} :
    (Parsing.orThrow (outcome.map fun _ => value) >>= g) =
      orThrow outcome >>= fun _ => g value := by
  cases outcome <;> rfl

/-- The stream of the Binary Reader. -/
abbrev binaryStream (inp : Input) : Stream State InputValue :=
  ⟨Reader.isRaw, Reader.isFramedObject, Reader.next inp⟩

theorem binary_readUnframedField {read : InputValue → α → TargetM Stop State α α}
    {read' : InputValue → α → ReadM α} {old : α} {name : Bytes} (hignore : tags.ignore = false)
    (h : dropping (read v old) = read' v old) {g : α × InputValue → ReadM β} :
    (dropping ((binary inp).readUnframedField (binaryStream inp) name tags read v old) >>= g) =
      (do
        let value ← Parsing.result (Parsing.context
          ("Failed to parse field '" ++ nameText name ++ "': ") (read' v old))
        let v ← Reader.next inp v
        let value ← Parsing.orThrow value
        g (value, v)) := by
  rw [← h, ← dropping_contextOf, result_dropping]
  unfold Backend.readUnframedField
  simp only [hignore, Bool.false_eq_true, if_false, dropping_bind, dropping_keeping,
    dropping_pure, bind_assoc, pure_bind, orThrow_map_bind]

theorem binary_readRawField {name : Bytes} {T : Ty} :
    (binary inp).readRawField name tags v T = Parsing.readRawField inp name tags v T := by
  cases T with
  | arithmetic T => exact (congrArg (context _) binary_readArithmetic).trans context_eq
  | enumeration signed width names =>
    exact (congrArg (context _) binary_readArithmetic).trans context_eq
  | _ => rfl

theorem binary_readRawFieldNext {name : Bytes} {T : Ty} {old : T.Value}
    (hignore : tags.ignore = false) {g : T.Value × InputValue → ReadM β} :
    (dropping ((binary inp).readRawFieldNext (binaryStream inp) name tags T v old) >>= g) =
      if tags.fixedLength.isNone then
        fail .invalidLength ("raw_fixed_data field '" ++ nameText name ++ "' requires fixed_length")
      else (do
        let value ← Parsing.readRawField inp name tags v T
        let v ← Reader.next inp v
        g (value, v)) := by
  unfold Backend.readRawFieldNext
  rw [hignore, if_neg Bool.false_ne_true]
  by_cases hlength : tags.fixedLength.isNone = true
  · rw [if_pos hlength, if_pos hlength]
    rfl
  · rw [if_neg hlength, if_neg hlength]
    simp only [dropping_bind, dropping_keeping, dropping_pure, bind_assoc, pure_bind,
      binary_readRawField]

theorem binary_readRawFields : (fields : Fields) → {v : InputValue} → {olds : fields.Values} →
    dropping ((binary inp).readRawFields (binaryStream inp) fields v olds) =
      Parsing.readRawFields inp fields v olds
  | .nil, _, _ => rfl
  | .cons name tags T rest, v, (old, olds) => by
    have ih := fun w => @binary_readRawFields rest w olds
    refine dropping_inTurn.trans ?_
    simp only [ih]
    show _ = if tags.ignore = true then _ else _
    cases hignore : tags.ignore with
    | true =>
      unfold Backend.readRawFieldNext
      rw [hignore]
      rfl
    | false => exact binary_readRawFieldNext hignore

theorem binary_tryAlternative {x : ReadM α} :
    (binary inp).tryAlternative x v = Parsing.tryAlternative x v := by
  unfold Backend.tryAlternative
  rw [result_eq]
  rfl

end

/-! ## All types -/

section

variable {env : Env}

theorem ofEnv_setNull : (T : Ty) → (Program.ofEnv env).setNull T = T.setNull := by
  intro T
  cases T <;> rfl

theorem dropping_readReflected {T : Ty} {read : T.Value → TargetM Stop State T.Value T.Value}
    {old : T.Value} : dropping ((Program.ofEnv env).readReflected T read old) =
      dropping (read (if T.copyable then old else env.default T)) := by
  unfold Program.readReflected Program.strategy
  cases h : T.copyable with
  | true => simp [Program.ofEnv, h]
  | false => simp [Program.ofEnv, h]

theorem binary_layout {unframed : Bool} :
    (binary inp).layout unframed tags v =
      if tags.rawFixedData then if Reader.isRaw v then .raw (binaryStream inp) else .refused
      else if unframed && !Reader.isFramedObject v then .unframed (binaryStream inp)
      else .framed := rfl

/-- An array of a fixed size. -/
theorem binary_sized {α : Type} {size : ℕ} {text : ℕ → String} {old : α}
    {read : InputValue → TargetM Stop State α α} {read' : InputValue → ReadM α}
    (h : ∀ array, dropping (read array) = read' array) :
    dropping (do
      let array ← keeping old ((binary inp).toArray tags v)
      let actualSize ← keeping old ((binary inp).arraySize array)
      if actualSize ≠ size then keeping old (fail .invalidLength (text actualSize))
      else read array) =
    (do
      let array ← Reader.toArray inp v
      if Reader.arraySize array ≠ size then
        Binary.fail .invalidLength (text (Reader.arraySize array))
      else read' array) := by
  simp only [dropping_keeping_bind, pure_bind, dropping_ite, dropping_keeping, h]
  rfl

mutual

/-- **The read of Binary values** is `parser_read` over the Binary Reader. -/
theorem binary_parserRead : (T : Ty) → (tags : Tags) → (v : InputValue) → (old : T.Value) →
    dropping ((binary inp).parserRead (Program.ofEnv env) T tags v old) =
      Parsing.parserRead inp env T tags v old
  | .arithmetic T, tags, v, old => dropping_keeping.trans binary_readArithmetic
  | .string, tags, v, old => dropping_keeping.trans context_eq
  | .enumeration signed width names, tags, v, old => dropping_keeping.trans binary_readEnumeration
  | .null monostate, tags, v, old => dropping_keeping
  | .optional T, tags, v, old => by
    refine dropping_keeping.trans (binary_readNullable.trans ?_)
    exact congrArg (fun read => Parsing.readNullable inp _ read v)
      (binary_parserRead T tags v (env.default T))
  | .pointer shared T, tags, v, old => by
    refine dropping_keeping.trans (binary_readNullable.trans ?_)
    exact congrArg (fun read => Parsing.readNullable inp _ read v)
      (binary_parserRead T tags v (env.default T))
  | .sequence unique T, tags, v, old => by
    have ih := funext fun w => binary_parserRead T {} w (env.default T)
    refine dropping_keeping.trans (Eq.trans ?_ (@binary_readSequence inp tags v _ _ _ _))
    exact congrArg (fun read => (binary inp).readSequence tags read _ v) ih
  | .array size T, tags, v, old => binary_readArray (binary_parserRead T {})
  | .tuple Ts, tags, v, old => binary_sized fun array => binary_readTuple Ts array 0 old
  | .pair T U, tags, v, old =>
    binary_readPair (fun w => binary_parserRead T {} w old.1)
      fun w => binary_parserRead U {} w old.2
  | .variant Ts, tags, v, old => by
    have hfind := binary_findAlternatives Ts tags.payload
    have hread := binary_readAlternative Ts tags.payload
    refine dropping_keeping.trans ?_
    simp only [hfind, hread, context_eq, binary_readArithmetic]
    rfl
  | .stringMap T, tags, v, old => by
    have ih := funext fun w => binary_parserRead T {} w (env.default T)
    refine dropping_keeping.trans (Eq.trans ?_ (@binary_readStringMap inp tags v _ _))
    exact congrArg (fun read => (binary inp).readStringMap tags read v) ih
  | .entryMap unique K T, tags, v, old =>
    dropping_keeping.trans (binary_readEntryMap (fun w => binary_parserRead K {} w (env.default K))
      fun w => binary_parserRead T {} w (env.default T))
  | .object unframed fields, tags, v, old => by
    have hraw := fun olds => @binary_readRawFields inp fields v olds
    have hfields := binary_readFields fields v
    have hunframed := binary_readUnframed fields v
    refine dropping_readReflected.trans ?_
    rw [binary_layout]
    show _ = if tags.rawFixedData = true then _ else _
    cases tags.rawFixedData with
    | true =>
      cases Reader.isRaw v with
      | true => exact hraw _
      | false => exact dropping_keeping
    | false =>
      cases unframed && !Reader.isFramedObject v with
      | true => exact hunframed _
      | false =>
        exact dropping_keeping_bind.trans
          (congrArg (Reader.toObject inp v >>= ·) (funext fun _ => hfields _))
  | .record fields, tags, v, old =>
    dropping_readReflected.trans
      (binary_sized fun array => binary_readRecord fields array 0 0 _)

theorem binary_readTuple : (Ts : Tys) → (array : InputValue) → (index : ℕ) → (olds : Ts.Values) →
    dropping ((binary inp).readTuple (Program.ofEnv env) Ts array index olds) =
      Parsing.readTuple inp env Ts array index olds
  | .nil, _, _, _ => rfl
  | .cons T Ts, array, index, (old, olds) => by
    have hrest := binary_readTuple Ts array (index + 1) olds
    have hfirst := fun w => binary_parserRead T {} w old
    refine dropping_inTurn.trans ?_
    rw [binary_readElement hfirst, hrest]
    rfl

theorem binary_findAlternatives : (Ts : Alternatives) → (tags : Tags) → (v : InputValue) →
    (index matchCount matchIndex : ℕ) →
    (binary inp).findAlternatives (Program.ofEnv env) Ts tags v index matchCount matchIndex =
      Parsing.findAlternatives inp env Ts tags v index matchCount matchIndex
  | .one T, tags, v, index, matchCount, matchIndex => by
    have ih := congrArg (fun read => (binary inp).tryAlternative read v)
      (binary_parserRead T tags v (env.default T))
    exact congrArg (· >>= fun found => pure
      (if found then (matchCount + 1, index) else (matchCount, matchIndex)))
      (ih.trans binary_tryAlternative)
  | .cons T Ts, tags, v, index, matchCount, matchIndex => by
    have ih := congrArg (fun read => (binary inp).tryAlternative read v)
      (binary_parserRead T tags v (env.default T))
    have hrest := binary_findAlternatives Ts tags v (index + 1)
    refine congrArg₂ (· >>= ·) (ih.trans binary_tryAlternative) (funext fun found => ?_)
    cases found with
    | true => exact hrest (matchCount + 1) index
    | false => exact hrest matchCount matchIndex

theorem binary_readAlternative : (Ts : Alternatives) → (tags : Tags) → (v : InputValue) →
    (index : ℕ) → (binary inp).readAlternative (Program.ofEnv env) Ts tags v index =
      Parsing.readAlternative inp env Ts tags v index
  | .one T, tags, v, 0 => context_eq.trans (congrArg _ (binary_parserRead T tags v (env.default T)))
  | .one _, _, _, _ + 1 => rfl
  | .cons T _, tags, v, 0 => by
    have ih := context_eq.trans (congrArg (Parsing.context "Failed to parse variant alternative: ")
      (binary_parserRead T tags v (env.default T)))
    exact congrArg (fun x : ReadM T.Value => x >>= fun value => pure (Sum.inl value)) ih
  | .cons _ Ts, tags, v, index + 1 =>
    congrArg (fun x : ReadM Ts.Value => x >>= fun value => pure (Sum.inr value))
      (binary_readAlternative Ts tags v index)

theorem binary_readFields : (fields : Fields) → (v : InputValue) → (olds : fields.Values) →
    dropping ((binary inp).readFields (Program.ofEnv env) fields v olds) =
      Parsing.readFields inp env fields v olds
  | .nil, _, _ => rfl
  | .cons name tags T rest, v, (old, olds) => by
    have hrest := binary_readFields rest v olds
    have hflat := binary_readFlat T v old
    have hfirst :=
      @binary_readReflectField inp tags v T (Program.ofEnv env) (ofEnv_setNull T) name _ _ old
      fun w => binary_parserRead T tags w old
    refine dropping_inTurn.trans ?_
    simp only [dropping_ite, dropping_pure, hrest, hflat, hfirst]
    rw [Parsing.readFields]
    cases tags.ignore with
    | true => rfl
    | false =>
      cases tags.flat && T.isObject with
      | true => rfl
      | false => rfl

theorem binary_readFlat : (T : Ty) → (v : InputValue) → (old : T.Value) →
    dropping ((binary inp).readFlat (Program.ofEnv env) T v old) =
      Parsing.readFlat inp env T v old
  | .object _ fields, v, old => by
    have ih := binary_readFields fields v old
    exact dropping_keeping_bind.trans (congrArg (Reader.toObject inp v >>= ·) (funext fun _ => ih))
  | .arithmetic _, _, _ => rfl
  | .string, _, _ => rfl
  | .enumeration _ _ _, _, _ => rfl
  | .null _, _, _ => rfl
  | .optional _, _, _ => rfl
  | .pointer _ _, _, _ => rfl
  | .sequence _ _, _, _ => rfl
  | .array _ _, _, _ => rfl
  | .tuple _, _, _ => rfl
  | .pair _ _, _, _ => rfl
  | .variant _, _, _ => rfl
  | .stringMap _, _, _ => rfl
  | .entryMap _ _ _, _, _ => rfl
  | .record _, _, _ => rfl

theorem binary_readUnframed : (fields : Fields) → (v : InputValue) → (olds : fields.Values) →
    dropping ((binary inp).readUnframed (Program.ofEnv env) (binaryStream inp) fields v olds) =
      Parsing.readUnframed inp env fields v olds
  | .nil, _, _ => rfl
  | .cons name tags T rest, v, (old, olds) => by
    have hrest := fun w => binary_readUnframed rest w olds
    have hfirst := binary_parserRead T tags v old
    refine dropping_inTurn.trans ?_
    simp only [hrest]
    show _ = if tags.ignore = true then _ else _
    cases hignore : tags.ignore with
    | true =>
      unfold Backend.readUnframedField
      rw [hignore]
      rfl
    | false => exact binary_readUnframedField hignore hfirst

theorem binary_readRecord : (fields : Fields) → (array : InputValue) →
    (index elementIndex : ℕ) → (olds : fields.Values) →
    dropping ((binary inp).readRecord (Program.ofEnv env) fields array index elementIndex olds) =
      Parsing.readRecord inp env fields array index elementIndex olds
  | .nil, _, _, _, _ => rfl
  | .cons _ tags T rest, array, index, elementIndex, (old, olds) => by
    have hrest := fun i => binary_readRecord rest array (index + 1) i olds
    have hfirst := fun w => binary_parserRead T tags w old
    refine dropping_inTurn.trans ?_
    simp only [hrest, dropping_ite, dropping_pure, binary_readElement hfirst]
    show _ = if tags.ignore = true then _ else _
    cases hignore : tags.ignore with
    | true => rfl
    | false => rfl

end

end

end NekoProto.Generic
