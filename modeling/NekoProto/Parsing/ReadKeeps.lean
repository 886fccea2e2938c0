import NekoProto.Parsing.ReadRules

/-!
# What reads leave alone

A read never sets the error of the Reader (`parserRead_keeps`). That holds of a read that fails as
well, since the alternatives of a variant and the names of an enumeration go on after a failure. The
scalars keep the offset too, unless they read a raw handle.
-/

namespace NekoProto.Binary.Reader

open Outcome

variable {inp : Input} {s : State} {v w : InputValue} {γ : Type} {g : State → γ}

/-! ## Operations that only compute -/

section

variable {σ : Type} {h : σ → γ} {t : σ}

theorem addSize_keeps {a b : ℕ} : Keeps h (addSize a b) t := .ite (fun _ => .pure) fun _ => .throw

theorem subSize_keeps {a b : ℕ} : Keeps h (subSize a b) t := .ite (fun _ => .pure) fun _ => .throw

theorem byteAt_keeps {i : ℕ} : Keeps h (byteAt inp i) t := by
  unfold byteAt
  cases inp.data[i]? with
  | none => exact .throw
  | some byte => exact .pure

theorem bytesAt_keeps {i n : ℕ} : Keeps h (bytesAt inp i n) t :=
  .ite (fun _ => .pure) fun _ => .throw

theorem fail_keeps {α : Type} {code : ErrorCode} {text : String} :
    Keeps h (fail code text : EStateM Stop σ α) t := .throw

theorem readUlebLoop_keeps {bits start limit : ℕ} (fuel : ℕ) : ∀ {cursor shift value : ℕ} {t : σ},
    Keeps h (readUlebLoop inp bits start limit fuel cursor shift value) t := by
  induction fuel with
  | zero => exact .ite (fun _ => .throw) fun _ => fail_keeps
  | succ fuel ih =>
    intro cursor shift value t
    refine .ite (fun _ => .bind byteAt_keeps fun byte _ _ => .bind addSize_keeps fun next _ _ => ?_)
      fun _ => fail_keeps
    refine .ite (fun _ => fail_keeps) fun _ => .ite (fun _ => ?_) fun _ => ih
    exact .bind subSize_keeps fun _ _ _ => .ite (fun _ => fail_keeps) fun _ => .pure

theorem readUleb_keeps {bits cursor limit : ℕ} : Keeps h (readUleb inp bits cursor limit) t :=
  readUlebLoop_keeps _

end

theorem bitsAt_keeps {n offset size : ℕ} : Keeps g (bitsAt inp n offset size) s :=
  .bind bytesAt_keeps fun _ _ _ => .pure

theorem requireValid_keeps : Keeps g (requireValid inp v) s := by
  refine .get_bind ?_
  cases validate inp s v with
  | none => exact .pure
  | some e => exact .throw

theorem toArray_keeps : Keeps g (toArray inp v) s :=
  .bind requireValid_keeps fun _ _ _ => .ite (fun _ => fail_keeps) fun _ => .pure

theorem toObject_keeps : Keeps g (toObject inp v) s :=
  .bind requireValid_keeps fun _ _ _ => .ite (fun _ => .pure) fun _ => fail_keeps

/-! ## Operations on the state -/

/-- What the read of a handle leaves alone: the error, and the offset unless the handle is raw. -/
def kept (raw : Bool) (s : State) : Option Error × Option ℕ :=
  (s.error, if raw then none else some s.offset)

theorem keeps_kept {α : Type} {x : ReadM α} (raw : Bool) (h : Keeps (kept false) x s) :
    Keeps (kept raw) x s := by
  cases raw with
  | false => exact h
  | true => exact h.comp fun observed => (observed.1, none)

variable {raw : Bool}

theorem consume_keeps : Keeps (kept raw) (consume v) s := by
  refine .get_bind ?_
  cases v.id with
  | none => exact .pure
  | some id => exact .set rfl

theorem onBudget_keeps {α : Type} {x : ParseM α} : Keeps (kept raw) (onBudget x) s := by
  unfold Keeps leaves onBudget
  cases x s.remainingAllocation with
  | ok a r => rfl
  | error e r => rfl

theorem isEmpty_keeps : Keeps (kept raw) (isEmpty inp v) s :=
  .get_bind (.ite (fun _ => .pure) fun _ => .bind consume_keeps fun _ _ _ => .pure)

theorem consumeRaw_keeps {stop : ℕ} : Keeps (kept true) (consumeRaw v stop) s :=
  .bind consume_keeps fun _ _ _ => .get_bind (.set rfl)

/-! ## Restoring -/

/-- The nodes of a checkpoint get their flags back, the others keep theirs. -/
theorem mem_restore {i : NodeId} {s' : State} :
    i ∈ (restore (checkpoint s v) s').consumed ↔
      i ∉ nodes v ∧ i ∈ s'.consumed ∨ i ∈ nodes v ∧ i ∈ s.consumed := by
  have hentries : (checkpoint s v).entries.map Prod.fst = nodes v := by
    unfold checkpoint
    rw [List.map_map]
    exact List.map_id _
  unfold restore
  rw [hentries, List.mem_append, List.mem_filter]
  refine or_congr ?_ ?_
  · rw [decide_eq_true_eq, and_comm]
  · unfold checkpoint
    constructor
    · intro h
      obtain ⟨⟨j, marked⟩, hj, rfl⟩ := List.mem_map.mp h
      obtain ⟨hj, hmarked⟩ := List.mem_filter.mp hj
      obtain ⟨l, hl, heq⟩ := List.mem_map.mp hj
      cases heq
      exact ⟨hl, of_decide_eq_true hmarked⟩
    · rintro ⟨hi, hconsumed⟩
      refine List.mem_map.mpr ⟨(i, true), List.mem_filter.mpr ⟨?_, rfl⟩, rfl⟩
      exact List.mem_map.mpr ⟨i, hi, by rw [decide_eq_true hconsumed]⟩

/-! ## Scalars -/

theorem decodeInteger_keeps {n : ℕ} {signed : Bool} {encoded : BitVec n} :
    Keeps g (decodeInteger signed encoded) s := by
  unfold decodeInteger
  refine .ite (fun _ => .ite (fun _ => .ite (fun _ => fail_keeps) fun _ => ?_)
    fun _ => .ite (fun _ => fail_keeps) fun _ => .pure) fun _ => .pure
  exact .ite (fun _ => .pure) fun _ => .pure

theorem readFloating_keeps {tag : ValueTag} {kind : String} {n : ℕ} {node : Node} :
    Keeps (kept raw) (readFloating inp tag kind n v node) s :=
  .ite (fun _ => fail_keeps) fun _ => .bind bitsAt_keeps fun _ _ _ =>
    .bind consume_keeps fun _ _ _ => .pure

theorem toBasicNode_keeps {node : Node} {T : Arithmetic} :
    Keeps (kept raw) (toBasicNode inp v node T) s := by
  cases T with
  | bool =>
    exact .ite (fun _ => fail_keeps) fun _ => .bind consume_keeps fun _ _ _ => .pure
  | integer signed w =>
    refine .ite (fun _ => fail_keeps) fun _ => .bind readUleb_keeps fun decoded _ _ => ?_
    exact .bind consume_keeps fun _ _ _ => decodeInteger_keeps
  | float => exact readFloating_keeps
  | double => exact readFloating_keeps

theorem requireRaw_keeps {T : Arithmetic} {size : ℕ} : Keeps g (requireRaw inp T size) s :=
  .get_bind (.bind subSize_keeps fun _ _ _ => .ite (fun _ => fail_keeps) fun _ => .pure)

theorem readRawBits_keeps {n size : ℕ} : Keeps (kept true) (readRawBits inp n v size) s :=
  .get_bind (.bind bitsAt_keeps fun _ _ _ => .bind addSize_keeps fun _ _ _ =>
    .bind consumeRaw_keeps fun _ _ _ => .pure)

theorem readRawBool_keeps : Keeps (kept true) (readRawBool inp v) s :=
  .get_bind (.bind byteAt_keeps fun _ _ _ => .bind addSize_keeps fun _ _ _ =>
    .bind consumeRaw_keeps fun _ _ _ => .ite (fun _ => fail_keeps) fun _ => .pure)

theorem readRawFixed_keeps {size : ℕ} {T : Arithmetic} :
    Keeps (kept true) (readRawFixed inp v size T) s := by
  cases T with
  | bool => exact .bind requireRaw_keeps fun _ _ _ => readRawBool_keeps
  | integer signed w => exact .bind requireRaw_keeps fun _ _ _ => readRawBits_keeps
  | float => exact .bind requireRaw_keeps fun _ _ _ => readRawBits_keeps
  | double => exact .bind requireRaw_keeps fun _ _ _ => readRawBits_keeps

theorem readRawString_keeps : Keeps (kept true) (readRawString inp v) s := by
  refine .get_bind (.bind readUleb_keeps fun decoded _ _ => .bind subSize_keeps fun _ _ _ => ?_)
  refine .ite (fun _ => fail_keeps) fun _ => .bind onBudget_keeps fun _ _ _ => ?_
  exact .bind bytesAt_keeps fun _ _ _ => .bind addSize_keeps fun _ _ _ =>
    .bind consumeRaw_keeps fun _ _ _ => .pure

theorem toBasicType_keeps {T : Arithmetic} :
    Keeps (kept (isRaw v)) (toBasicType inp T v) s := by
  refine .bind requireValid_keeps fun _ _ _ => ?_
  cases v with
  | node p n => exact toBasicNode_keeps
  | raw p e => exact readRawFixed_keeps
  | error e => exact .throw

theorem toBasicString_keeps : Keeps (kept (isRaw v)) (toBasicString inp v) s := by
  refine .bind requireValid_keeps fun _ _ _ => ?_
  cases v with
  | node p n =>
    refine .ite (fun _ => fail_keeps) fun _ => .bind subSize_keeps fun _ _ _ => ?_
    exact .bind onBudget_keeps fun _ _ _ => .bind consume_keeps fun _ _ _ => bytesAt_keeps
  | raw p e => exact readRawString_keeps
  | error e => exact .throw

theorem readFixedNode_keeps {p : ℕ} {n node : Node} {size : ℕ} {T : Arithmetic} :
    Keeps (kept false) (readFixedNode inp (.node p n) node size T) s := by
  cases T with
  | bool => exact toBasicType_keeps (v := .node p n)
  | integer signed w =>
    exact .ite (fun _ => fail_keeps) fun _ => .bind bitsAt_keeps fun _ _ _ =>
      .bind consume_keeps fun _ _ _ => .pure
  | float => exact .ite (fun _ => fail_keeps) fun _ => readFloating_keeps
  | double => exact .ite (fun _ => fail_keeps) fun _ => readFloating_keeps

theorem readFixed_keeps {T : Arithmetic} {size : ℕ} :
    Keeps (kept (isRaw v)) (readFixed inp T v size) s := by
  refine .bind requireValid_keeps fun _ _ _ => ?_
  cases v with
  | node p n => exact readFixedNode_keeps
  | raw p e => exact readRawFixed_keeps
  | error e => exact .throw

end NekoProto.Binary.Reader

namespace NekoProto.Parsing

open Binary Binary.Reader Outcome

variable {inp : Input} {s : State} {v w : InputValue} {γ : Type} {g : State → γ} {raw : Bool}
  {α β : Type} {x : ReadM α}

/-! ## Results -/

theorem context_keeps {text : String} (h : Keeps g x s) : Keeps g (context text x) s := by
  unfold Keeps leaves at *
  simp only [context]
  cases hx : x s with
  | ok a t => rwa [hx] at h
  | error stop t =>
    rw [hx] at h
    cases stop <;> exact h

theorem result_keeps (h : Keeps g x s) : Keeps g (result x) s := by
  unfold Keeps leaves at *
  simp only [result]
  cases hx : x s with
  | ok a t => rwa [hx] at h
  | error stop t =>
    rw [hx] at h
    cases stop <;> exact h

theorem orThrow_keeps {r : Except Error α} : Keeps g (orThrow r) s := by
  cases r with
  | ok a => exact .pure
  | error e => exact .throw

theorem readArithmetic_keeps {T : Arithmetic} {tags : Tags} :
    Keeps (kept (isRaw v)) (readArithmetic inp T tags v) s := by
  unfold readArithmetic
  cases tags.fixedLengthOf T with
  | none => exact toBasicType_keeps
  | some size => exact .ite (fun _ => fail_keeps) fun _ => readFixed_keeps

theorem readEnumeration_keeps {signed : Bool} {width : Width}
    {names : List (Bytes × BitVec width.bits)} {tags : Tags} :
    Keeps (kept (isRaw v)) (readEnumeration inp signed width names tags v) s := by
  refine .bind (result_keeps toBasicString_keeps) fun name _ _ => ?_
  cases name with
  | error e => exact context_keeps readArithmetic_keeps
  | ok name =>
    simp only
    cases names.reverse.find? fun entry => entry.1 = name with
    | none => exact fail_keeps
    | some entry => exact .pure

theorem readNull_keeps {monostate : Bool} : Keeps (kept raw) (readNull inp monostate v) s :=
  .bind isEmpty_keeps fun _ _ _ => .ite (fun _ => .pure) fun _ => fail_keeps

theorem readNullable_keeps {text : String} {read : ReadM α}
    (hread : ∀ s, Keeps (kept raw) read s) : Keeps (kept raw) (readNullable inp text read v) s :=
  .bind isEmpty_keeps fun _ _ _ => .ite (fun _ => .pure) fun _ =>
    .bind (context_keeps (hread _)) fun _ _ _ => .pure

/-! ## Containers -/

theorem keeps_raw (h : Keeps (kept raw) x s) : Keeps (kept true) x s := by
  cases raw with
  | false => exact keeps_kept true h
  | true => exact h

/-- A read that leaves the error alone, of whatever handle. -/
def KeepsAll (read : InputValue → ReadM α) : Prop := ∀ w s, Keeps (kept true) (read w) s

section

variable {read : InputValue → α → ReadM α} (hread : ∀ a, KeepsAll fun w => read w a)

include hread

theorem readItems_keeps {initial : α} {insert : List α → α → Option (List α)}
    {array : InputValue} (count : ℕ) : ∀ {index : ℕ} {parsed : List α} {s : State},
    Keeps (kept true) (readItems inp read initial insert array count index parsed) s := by
  induction count with
  | zero => exact .pure
  | succ count ih =>
    intro index parsed s
    refine .get_bind (.bind (context_keeps (hread _ _ _)) fun item _ _ => ?_)
    cases insert parsed item with
    | none => exact fail_keeps
    | some parsed => exact ih

theorem readSequence_keeps {initial : α} {insert : List α → α → Option (List α)} :
    Keeps (kept true) (readSequence inp read initial insert v) s :=
  .bind toArray_keeps fun _ _ _ => readItems_keeps hread _

theorem readArrayItems_keeps {array : InputValue} (values : List α) : ∀ {index : ℕ} {s : State},
    Keeps (kept true) (readArrayItems inp read array index values) s := by
  induction values with
  | nil => exact .pure
  | cons value values ih =>
    intro index s
    refine .get_bind (.bind (context_keeps (hread _ _ _)) fun item _ _ => ?_)
    exact .bind ih fun rest _ _ => .pure

theorem readArray_keeps {size : ℕ} {old : { values : List α // values.length = size }} :
    Keeps (kept true) (readArray inp read v old) s :=
  .bind toArray_keeps fun _ _ _ => .ite (fun _ => fail_keeps) fun _ =>
    .bind (readArrayItems_keeps hread _) fun _ _ _ => .pure

end

section

variable {readFirst : InputValue → ReadM α} {readSecond : InputValue → ReadM β}

theorem readRequired_keeps {object : InputValue} {name : Bytes} {missing text : String}
    (hread : KeepsAll readFirst) :
    Keeps (kept true) (readRequired inp object name missing text readFirst) s := by
  refine .get_bind ?_
  cases objectField inp s object name with
  | error e => exact fail_keeps
  | ok field => exact context_keeps (hread _ _)

variable (hfirst : KeepsAll readFirst) (hsecond : KeepsAll readSecond)

include hfirst

theorem readMember_keeps {name : Bytes} {field : InputValue} {outcome : Except Error Unit}
    {parsed : Entries α} :
    Keeps (kept true) (readMember readFirst name field (outcome, parsed)) s := by
  cases outcome with
  | error e => exact .pure
  | ok u =>
    refine .bind (result_keeps (context_keeps (hfirst _ _))) fun value _ _ => ?_
    cases value with
    | error e => exact .pure
    | ok value =>
      simp only
      cases parsed.emplace name value with
      | none => exact .pure
      | some parsed => exact .pure

theorem forEachMember_keeps {ms : List (Member InputValue)} :
    ∀ {s : State} {acc : Except Error Unit × Entries α},
      Keeps (kept true) (forEachMember (readMember readFirst) ms acc) s := by
  induction ms with
  | nil => exact .pure
  | cons m ms ih =>
    exact .bind (readMember_keeps hfirst) fun _ _ _ => .ite (fun _ => ih) fun _ => .pure

theorem readStringMap_keeps : Keeps (kept true) (readStringMap inp readFirst v) s := by
  refine .bind toObject_keeps fun object _ _ => .bind (.get_bind ?_) fun r _ _ =>
    .bind orThrow_keeps fun _ _ _ => .pure
  cases validateHandle inp _ object with
  | some e => exact .pure
  | none => exact .ite (fun _ => .pure) fun _ => forEachMember_keeps hfirst

include hsecond

theorem readPair_keeps : Keeps (kept true) (readPair inp readFirst readSecond v) s :=
  .bind toObject_keeps fun _ _ _ => .bind (readRequired_keeps hfirst) fun _ _ _ =>
    .bind (readRequired_keeps hsecond) fun _ _ _ => .pure

theorem readEntries_keeps {unique : Bool} {equivalent : α → α → Bool} {array : InputValue}
    (count : ℕ) : ∀ {index : ℕ} {parsed : List (α × β)} {s : State},
    Keeps (kept true)
      (readEntries inp readFirst readSecond unique equivalent array count index parsed) s := by
  induction count with
  | zero => exact .pure
  | succ count ih =>
    intro index parsed s
    refine .get_bind (.bind (context_keeps toObject_keeps) fun object _ _ => ?_)
    refine .bind (readRequired_keeps hfirst) fun key _ _ => ?_
    refine .bind (readRequired_keeps hsecond) fun value _ _ => ?_
    exact .ite (fun _ => fail_keeps) fun _ => ih

theorem readEntryMap_keeps {unique : Bool} {equivalent : α → α → Bool} :
    Keeps (kept true) (readEntryMap inp readFirst readSecond unique equivalent v) s :=
  .bind toArray_keeps fun _ _ _ => readEntries_keeps hfirst hsecond _

end

/-! ## Fields -/

theorem next_keeps : Keeps (kept true) (next inp v) s := by
  refine .get_bind ?_
  cases validateHandle inp s v with
  | some e => exact .pure
  | none =>
    cases v with
    | raw p e => exact .get_bind (.bind (.set rfl) fun _ _ _ => .pure)
    | error e => exact .get_bind (.bind (.set rfl) fun _ _ _ => .pure)
    | node p n =>
      unfold Keeps leaves
      simp only [parseAt, onBudget]
      cases parseNode inp (nodeFuel inp.limits n.depth) n.end inp.size n.depth
        s.remainingAllocation with
      | ok r t => rfl
      | error stop t => cases stop <;> rfl

theorem readRawField_keeps {name : Bytes} {tags : Tags} {T : Ty} :
    Keeps (kept true) (readRawField inp name tags v T) s := by
  cases T
  case arithmetic T => exact context_keeps (keeps_raw readArithmetic_keeps)
  case enumeration signed width names => exact context_keeps (keeps_raw readArithmetic_keeps)
  all_goals exact fail_keeps

theorem readRawFields_keeps : ∀ {fields : Fields} {v : InputValue} {olds : fields.Values}
    {s : State}, Keeps (kept true) (readRawFields inp fields v olds) s
  | .nil, _, _, _ => .pure
  | .cons _ _ _ _, _, (_, _), _ =>
    .ite (fun _ => .bind readRawFields_keeps fun _ _ _ => .pure) fun _ =>
      .ite (fun _ => fail_keeps) fun _ => .bind readRawField_keeps fun _ _ _ =>
        .bind next_keeps fun _ _ _ => .bind readRawFields_keeps fun _ _ _ => .pure

section

variable {T : Ty} {name : Bytes} {tags : Tags} {old : T.Value}

theorem readMissingField_keeps : Keeps g (readMissingField T name tags old) s := by
  refine .ite (fun _ => .pure) fun _ => ?_
  cases T.setNull with
  | none => exact fail_keeps
  | some null => exact .pure

variable {read : InputValue → T.Value → ReadM T.Value} (hread : ∀ a, KeepsAll fun w => read w a)

include hread

theorem readPresentField_keeps : Keeps (kept true) (readPresentField inp T name read w old) s := by
  refine .bind isEmpty_keeps fun empty _ _ => ?_
  split
  · exact .pure
  · exact context_keeps (hread _ _ _)

theorem readReflectField_keeps :
    Keeps (kept true) (readReflectField inp T name tags read v old) s := by
  refine .bind toObject_keeps fun object t _ => .get_bind ?_
  cases objectField inp t object (tags.fieldName name) with
  | error e => exact readMissingField_keeps
  | ok field => exact readPresentField_keeps hread

end

/-! ## Variants -/

theorem tryAlternative_keeps (h : Keeps (kept true) x s) :
    Keeps (kept true) (tryAlternative x v) s := by
  refine .get_bind (.bind (result_keeps h) fun tried t ht => .bind (.modify rfl) fun _ _ _ => ?_)
  cases tried with
  | error e => exact .pure
  | ok a => exact .pure

/-! ## All types -/

variable (env : Env)

mutual

theorem parserRead_keeps : ∀ (T : Ty) (tags : Tags) (v : InputValue) (old : T.Value) {s : State},
    Keeps (kept true) (parserRead inp env T tags v old) s
  | .arithmetic _, _, _, _, _ => keeps_raw readArithmetic_keeps
  | .string, _, _, _, _ => context_keeps (keeps_raw toBasicString_keeps)
  | .enumeration _ _ _, _, _, _, _ => keeps_raw readEnumeration_keeps
  | .null _, _, _, _, _ => readNull_keeps
  | .optional T, tags, v, old, s =>
    readNullable_keeps fun _ => parserRead_keeps T tags v (env.default T)
  | .pointer shared T, tags, v, old, s =>
    readNullable_keeps fun _ => parserRead_keeps T tags v (env.default T)
  | .sequence unique T, tags, v, old, s =>
    readSequence_keeps fun a w s => parserRead_keeps T {} w a
  | .array size T, tags, v, old, s => readArray_keeps fun a w s => parserRead_keeps T {} w a
  | .tuple Ts, tags, v, old, s =>
    .bind toArray_keeps fun array _ _ => .ite (fun _ => fail_keeps) fun _ =>
      readTuple_keeps Ts array 0 old
  | .pair T U, tags, v, old, s =>
    readPair_keeps (fun w s => parserRead_keeps T {} w old.1) fun w s =>
      parserRead_keeps U {} w old.2
  | .variant Ts, tags, v, old, s => by
    refine .ite (fun _ => ?_) fun _ => ?_
    · refine .bind (findAlternatives_keeps Ts tags.payload v 0 0 0) fun found _ _ => ?_
      refine .ite (fun _ => fail_keeps) fun _ => .ite (fun _ => fail_keeps) fun _ => ?_
      exact readAlternative_keeps Ts tags.payload v _
    · refine .bind (context_keeps toArray_keeps) fun array _ _ => ?_
      refine .ite (fun _ => fail_keeps) fun _ => .get_bind ?_
      refine .bind (context_keeps (keeps_raw readArithmetic_keeps)) fun index _ _ => .get_bind ?_
      exact readAlternative_keeps Ts tags.payload _ _
  | .stringMap T, tags, v, old, s =>
    readStringMap_keeps fun w s => parserRead_keeps T {} w (env.default T)
  | .entryMap unique K T, tags, v, old, s =>
    readEntryMap_keeps (fun w s => parserRead_keeps K {} w (env.default K)) fun w s =>
      parserRead_keeps T {} w (env.default T)
  | .object unframed fields, tags, v, old, s =>
    .ite (fun _ => .ite (fun _ => readRawFields_keeps) fun _ => fail_keeps) fun _ =>
      .ite (fun _ => readUnframed_keeps fields v _) fun _ =>
        .bind toObject_keeps fun _ _ _ => readFields_keeps fields v _
  | .record fields, tags, v, old, s =>
    .bind toArray_keeps fun array _ _ => .ite (fun _ => fail_keeps) fun _ =>
      readRecord_keeps fields array 0 0 _

theorem readTuple_keeps : ∀ (Ts : Tys) (array : InputValue) (index : ℕ) (olds : Ts.Values)
    {s : State}, Keeps (kept true) (readTuple inp env Ts array index olds) s
  | .nil, _, _, _, _ => .pure
  | .cons T Ts, array, _, (old, olds), _ =>
    .get_bind (.bind (context_keeps (parserRead_keeps T {} _ old)) fun _ _ _ =>
      .bind (readTuple_keeps Ts array _ olds) fun _ _ _ => .pure)

theorem findAlternatives_keeps : ∀ (Ts : Alternatives) (tags : Tags) (v : InputValue)
    (index matchCount matchIndex : ℕ) {s : State},
      Keeps (kept true) (findAlternatives inp env Ts tags v index matchCount matchIndex) s
  | .one T, tags, v, _, _, _, _ =>
    .bind (tryAlternative_keeps (parserRead_keeps T tags v (env.default T))) fun _ _ _ => .pure
  | .cons T Ts, tags, v, _, _, _, _ =>
    .bind (tryAlternative_keeps (parserRead_keeps T tags v (env.default T))) fun _ _ _ =>
      .ite (fun _ => findAlternatives_keeps Ts tags v _ _ _) fun _ =>
        findAlternatives_keeps Ts tags v _ _ _

theorem readAlternative_keeps : ∀ (Ts : Alternatives) (tags : Tags) (v : InputValue) (index : ℕ)
    {s : State}, Keeps (kept true) (readAlternative inp env Ts tags v index) s
  | .one T, tags, v, 0, _ => context_keeps (parserRead_keeps T tags v (env.default T))
  | .one _, _, _, _ + 1, _ => fail_keeps
  | .cons T _, tags, v, 0, _ =>
    .bind (context_keeps (parserRead_keeps T tags v (env.default T))) fun _ _ _ => .pure
  | .cons _ Ts, tags, v, index + 1, _ =>
    .bind (readAlternative_keeps Ts tags v index) fun _ _ _ => .pure

theorem readFields_keeps : ∀ (fields : Fields) (v : InputValue) (olds : fields.Values)
    {s : State}, Keeps (kept true) (readFields inp env fields v olds) s
  | .nil, v, olds, s => .pure
  | .cons name tags T rest, v, (old, olds), s => by
    have htail : ∀ (value : T.Value) (t : State), Keeps (kept true)
        (readFields inp env rest v olds >>= fun values => pure (value, values)) t :=
      fun value t => .bind (readFields_keeps rest v olds) fun _ _ _ => .pure
    refine .ite (fun _ => .bind .pure fun _ _ _ => htail _ _) fun _ =>
      .ite (fun _ => .bind (readFlat_keeps T v old) fun _ _ _ => htail _ _) fun _ =>
        .bind ?_ fun _ _ _ => htail _ _
    exact readReflectField_keeps fun a w s => parserRead_keeps T tags w a

theorem readFlat_keeps : ∀ (T : Ty) (v : InputValue) (old : T.Value) {s : State},
    Keeps (kept true) (readFlat inp env T v old) s
  | .object _ fields, v, old, _ =>
    .bind toObject_keeps fun _ _ _ => readFields_keeps fields v old
  | .arithmetic _, _, _, _ => .pure
  | .string, _, _, _ => .pure
  | .enumeration _ _ _, _, _, _ => .pure
  | .null _, _, _, _ => .pure
  | .optional _, _, _, _ => .pure
  | .pointer _ _, _, _, _ => .pure
  | .sequence _ _, _, _, _ => .pure
  | .array _ _, _, _, _ => .pure
  | .tuple _, _, _, _ => .pure
  | .pair _ _, _, _, _ => .pure
  | .variant _, _, _, _ => .pure
  | .stringMap _, _, _, _ => .pure
  | .entryMap _ _ _, _, _, _ => .pure
  | .record _, _, _, _ => .pure

theorem readUnframed_keeps : ∀ (fields : Fields) (v : InputValue) (olds : fields.Values)
    {s : State}, Keeps (kept true) (readUnframed inp env fields v olds) s
  | .nil, _, _, _ => .pure
  | .cons _ tags T rest, v, (old, olds), _ =>
    .ite (fun _ => .bind (readUnframed_keeps rest v olds) fun _ _ _ => .pure) fun _ =>
      .bind (result_keeps (context_keeps (parserRead_keeps T tags v old))) fun _ _ _ =>
        .bind next_keeps fun w _ _ => .bind orThrow_keeps fun _ _ _ =>
          .bind (readUnframed_keeps rest w olds) fun _ _ _ => .pure

theorem readRecord_keeps : ∀ (fields : Fields) (array : InputValue) (index elementIndex : ℕ)
    (olds : fields.Values) {s : State},
      Keeps (kept true) (readRecord inp env fields array index elementIndex olds) s
  | .nil, _, _, _, _, _ => .pure
  | .cons _ tags T rest, array, _, _, (old, olds), _ =>
    .ite (fun _ => .bind (readRecord_keeps rest array _ _ olds) fun _ _ _ => .pure) fun _ =>
      .get_bind (.bind (context_keeps (parserRead_keeps T tags _ old)) fun _ _ _ =>
        .bind (readRecord_keeps rest array _ _ olds) fun _ _ _ => .pure)

end

end NekoProto.Parsing
