import NekoProto.Binary.Tree

/-!
# Emitting a tree

Emitting a value through a parent appends the key of the parent and the encoding of the tree, and
the Writer is without error exactly when no hash was repeated in an `IdObject` (`emit_grown`). The
induction is on the value; the scope of an open `IdObject` holds the hashes of the keys so far.
-/

namespace NekoProto.Binary

/-! ## Growth of a Writer -/

/-- The Writer has appended these bytes inside a framed document, without a new error exactly when
`clean` holds. -/
structure Grown (bytes : Bytes) (clean : Prop) (w w' : Writer) : Prop where
  buffer : w'.buffer = w.buffer ++ bytes
  started : w'.documentStarted = true
  framed : w'.rawRoot = false
  error : w'.error = none ↔ w.error = none ∧ clean

namespace Grown

variable {as bs : Bytes} {p q : Prop} {w w' w'' : Writer}

theorem refl (hstarted : w.documentStarted = true) (hframed : w.rawRoot = false) :
    Grown [] True w w :=
  ⟨(List.append_nil _).symm, hstarted, hframed, by simp⟩

theorem trans (h : Grown as p w w') (k : Grown bs q w' w'') : Grown (as ++ bs) (p ∧ q) w w'' := by
  refine ⟨?_, k.started, k.framed, ?_⟩
  · rw [k.buffer, h.buffer, List.append_assoc]
  · rw [k.error, h.error, and_assoc]

theorem congr (h : Grown as p w w') (hbytes : as = bs) (hclean : p ↔ q) : Grown bs q w w' := by
  rw [← hbytes]
  exact ⟨h.buffer, h.started, h.framed, h.error.trans (and_congr_right fun _ => hclean)⟩

end Grown

namespace Parent

variable {parent : Parent} {w : Writer}

theorem mark_error : (parent.mark w).error = none ↔ w.error = none ∧ ¬parent.Collides := by
  unfold mark Writer.setError
  by_cases h : parent.Collides
  · simp only [h, if_true, not_true_eq_false, and_false, iff_false]
    split
    · next e he => simp [he]
    · simp
  · simp [h]

theorem mark_buffer : (parent.mark w).buffer = w.buffer := by
  unfold mark Writer.setError
  split_ifs
  · split <;> rfl
  · rfl

theorem added_grown (hready : parent.Ready w) (bytes : Bytes) :
    Grown (parent.keyBytes ++ bytes) (¬parent.Collides) w.ensureDocumentHeader
      (parent.added bytes w) := by
  unfold added
  refine ⟨?_, ?_, ?_, ?_⟩
  · by_cases h : w.documentStarted = true
    · simp [Writer.put, Writer.ensureDocumentHeader, h, Writer.appendBytes, mark_buffer]
    · simp [Writer.put, Writer.ensureDocumentHeader, h, Writer.appendBytes, mark_buffer,
        hready.framed]
  · unfold Writer.put Writer.ensureDocumentHeader
    split_ifs with h
    · simpa [hready.framed, Writer.appendBytes] using h
    · rfl
  · unfold Writer.put Writer.ensureDocumentHeader
    split_ifs with h <;> exact (mark_rawRoot _ w).trans hready.framed
  · rw [Writer.put_error, mark_error, Writer.ensureDocumentHeader_error]

end Parent

theorem Writer.ensureDocumentHeader_of_started {w : Writer} (h : w.documentStarted = true) :
    w.ensureDocumentHeader = w := by
  simp [ensureDocumentHeader, h]

/-! ## Hashes of an open object -/

/-- No key is a hash that was there before or that is repeated among them. -/
def FreshFrom (ids : List UInt32) (keys : List Key) : Prop :=
  (∀ k ∈ keys, ¬Parent.Repeats ids k) ∧ keys.Pairwise fun k l => ¬Key.SameHash k l

theorem repeats_remember {ids : List UInt32} {k l : Key} :
    Parent.Repeats (Parent.remember ids k) l ↔ Parent.Repeats ids l ∨ Key.SameHash k l := by
  cases k with
  | literal n => simp [Parent.remember, Key.SameHash]
  | hash i =>
    cases l with
    | literal n => simp [Parent.Repeats, Key.SameHash]
    | hash j =>
      simp only [Parent.remember, Parent.Repeats, Key.SameHash]
      split_ifs with h
      · exact ⟨.inl, fun h' => h'.elim id (fun h' => h' ▸ h)⟩
      · rw [List.mem_cons, or_comm, eq_comm]

theorem freshFrom_cons {ids : List UInt32} {k : Key} {ks : List Key} :
    FreshFrom ids (k :: ks) ↔ ¬Parent.Repeats ids k ∧ FreshFrom (Parent.remember ids k) ks := by
  unfold FreshFrom
  simp only [List.forall_mem_cons, List.pairwise_cons, repeats_remember, not_or, imp_and,
    forall_and]
  tauto

theorem freshFrom_nil {keys : List Key} :
    FreshFrom [] keys ↔ keys.Pairwise fun k l => ¬Key.SameHash k l := by
  refine and_iff_right fun k _ => ?_
  cases k <;> simp [Parent.Repeats]

/-! ## The emission -/

namespace Tree

variable {limits : ParseLimits}

theorem length_wireList (ts : List Tree) : (wireList ts).length = ts.length := by
  induction ts with
  | nil => rfl
  | cons t ts ih => simp only [wireList, List.length_cons, ih]

theorem length_wireMembers (named : Bool) (ms : List (Bytes × Tree)) :
    (wireMembers named ms).length = ms.length := by
  induction ms with
  | nil => rfl
  | cons m ms ih => simp only [wireMembers, List.length_cons, ih]

theorem literal_of_mem {k : Key} (ms : List (Bytes × Tree))
    (h : k ∈ (wireMembers true ms).map Prod.fst) : ∃ n, k = .literal n := by
  induction ms with
  | nil => cases h
  | cons m ms ih =>
    obtain rfl | h := List.mem_cons.mp h
    · exact ⟨m.1, rfl⟩
    · exact ih h

theorem finish_of_eq {kind : ContainerKind} {scope : Scope kind} {w : Writer}
    (h : scope.actual = scope.expected) : w.finish scope = w := by
  simp [Writer.finish, h]

theorem hashesOk_value (v : BasicValue) : v.wire.HashesOk := by
  cases v with
  | string bytes => trivial
  | arithmetic T value => cases T <;> trivial

theorem sized_value (hlimits : limits.Sized) {v : BasicValue} {depth : ℕ}
    (h : v.wire.Within limits depth) : v.Sized := by
  cases v with
  | string bytes => exact lt_of_le_of_lt h.2 hlimits.string
  | arithmetic T value => trivial

theorem sized_object (hlimits : limits.Sized) {name : Bytes} {scope : Scope .namedObject}
    (h : (memberKey true name).Fits limits true) : (Parent.object name scope).Sized :=
  lt_of_le_of_lt h.1 hlimits.string

theorem sized_idObject {name : Bytes} {scope : Scope .idObject}
    (h : (memberKey false name).Fits limits false) : (Parent.idObject name scope).Sized := by
  intro hhash
  have hkey : memberKey false name = .literal name := by simp [memberKey, idKey, hhash]
  rw [hkey] at h
  exact h.2 rfl

mutual

/-- **Emission.** A value adds its key and its encoding, and an error exactly for a repeated
hash. -/
theorem emit_grown (hlimits : limits.Sized) : (t : Tree) → (parent : Parent) → {w : Writer} →
    {depth : ℕ} → t.wire.Within limits depth → parent.Ready w → parent.Sized →
    (t.emit parent w).1 = parent.advance ∧
      Grown (parent.keyBytes ++ t.wire.encode) (¬parent.Collides ∧ t.wire.HashesOk)
        w.ensureDocumentHeader (t.emit parent w).2
  | .null, parent, w, depth, _, hready, hsized => by
    rw [emit, Parent.addNull_eq hready hsized]
    exact ⟨rfl, (Parent.added_grown hready _).congr rfl (by simp [wire, Wire.HashesOk])⟩
  | .value v, parent, w, depth, hwithin, hready, hsized => by
    rw [emit, Parent.addValue_eq hready hsized (sized_value hlimits hwithin)]
    exact ⟨rfl, (Parent.added_grown hready _).congr rfl (by simp [wire, hashesOk_value])⟩
  | .fixed signed width v, parent, w, depth, _, hready, hsized => by
    have heq := Parent.addFixedValue_eq hready hsized (.integer signed width) v
    rw [emit, show width.bytes = (Arithmetic.integer signed width).size from rfl, heq]
    exact ⟨rfl, (Parent.added_grown hready _).congr rfl
      (by simp [wire, Arithmetic.fixedWire, Wire.HashesOk])⟩
  | .array ts, parent, w, depth, ⟨_, hcount, hwithin⟩, hready, hsized => by
    rw [length_wireList] at hcount
    have hheader := Parent.addContainer_eq .array hready hsized (lt_of_le_of_lt hcount
      hlimits.elements)
    have hadded := Parent.added_grown hready
      (ContainerKind.array.tag.toByte :: Leb128.encode ts.length)
    obtain ⟨hscope, hgrown⟩ := emitElements_grown hlimits ts { expected := ts.length } hwithin
      hadded.started hadded.framed
    simp only [emit, Parent.addArray_eq, hheader]
    refine ⟨trivial, ?_⟩
    rw [finish_of_eq (by rw [hscope]; exact Nat.zero_add _)]
    refine (hadded.trans hgrown).congr ?_ Iff.rfl
    simp only [wire, Wire.encode, length_wireList, List.append_assoc, List.cons_append]
    rfl
  | .object true ms, parent, w, depth, ⟨_, hcount, hwithin⟩, hready, hsized => by
    rw [length_wireMembers] at hcount
    have hheader := Parent.addContainer_eq .namedObject hready hsized (lt_of_le_of_lt hcount
      hlimits.fields)
    have hadded := Parent.added_grown hready
      (ContainerKind.namedObject.tag.toByte :: Leb128.encode ms.length)
    obtain ⟨hscope, hgrown⟩ := emitMembers_grown hlimits ms { expected := ms.length } hwithin
      hadded.started hadded.framed
    simp only [emit, Parent.addObject_eq, hheader]
    refine ⟨trivial, ?_⟩
    rw [finish_of_eq (by rw [hscope]; exact Nat.zero_add _)]
    refine (hadded.trans hgrown).congr ?_ ?_
    · simp only [wire, Wire.encode, length_wireMembers, List.append_assoc, List.cons_append]
      rfl
    · have hliteral : ((wireMembers true ms).map Prod.fst).Pairwise
          fun k l => ¬Key.SameHash k l := by
        refine List.pairwise_of_forall_mem_list fun k hk l _ => ?_
        obtain ⟨n, rfl⟩ := literal_of_mem ms hk
        exact fun h => h
      simp only [wire, Wire.HashesOk, hliteral, true_and]
  | .object false ms, parent, w, depth, ⟨_, hcount, hwithin⟩, hready, hsized => by
    rw [length_wireMembers] at hcount
    have hheader := Parent.addContainer_eq .idObject hready hsized (lt_of_le_of_lt hcount
      hlimits.fields)
    have hadded := Parent.added_grown hready
      (ContainerKind.idObject.tag.toByte :: Leb128.encode ms.length)
    obtain ⟨hscope, hgrown⟩ := emitIdMembers_grown hlimits ms { expected := ms.length } hwithin
      hadded.started hadded.framed
    simp only [emit, Parent.addIdObject_eq, hheader]
    refine ⟨trivial, ?_⟩
    rw [finish_of_eq (by rw [hscope.1, hscope.2]; exact Nat.zero_add _)]
    refine (hadded.trans hgrown).congr ?_ ?_
    · simp only [wire, Wire.encode, length_wireMembers, List.append_assoc, List.cons_append]
      rfl
    · simp only [wire, Wire.HashesOk, freshFrom_nil]

/-- The elements of an open array. -/
theorem emitElements_grown (hlimits : limits.Sized) : (ts : List Tree) →
    (scope : Scope .array) → {w : Writer} → {depth : ℕ} →
    Wire.WithinList limits depth (wireList ts) → w.documentStarted = true → w.rawRoot = false →
    (emitElements ts scope w).1 = { scope with actual := scope.actual + ts.length } ∧
      Grown (Wire.encodeList (wireList ts)) (Wire.HashesOkList (wireList ts)) w
        (emitElements ts scope w).2
  | [], scope, w, _, _, hstarted, hframed => ⟨rfl, .refl hstarted hframed⟩
  | t :: ts, scope, w, depth, ⟨hwithin, hrest⟩, hstarted, hframed => by
    obtain ⟨hparent, hgrown⟩ := emit_grown hlimits t (.array scope) hwithin
      ⟨hframed, fun _ => hstarted⟩ trivial
    rw [Writer.ensureDocumentHeader_of_started hstarted] at hgrown
    have hemit : t.emit (.array scope) w = (.array scope.increment, (t.emit (.array scope) w).2) :=
      Prod.ext hparent rfl
    obtain ⟨hscope, hgrown'⟩ := emitElements_grown hlimits ts scope.increment hrest hgrown.started
      hgrown.framed
    rw [emitElements, hemit]
    refine ⟨hscope.trans ?_, (hgrown.trans hgrown').congr rfl ?_⟩
    · simp only [Scope.increment, List.length_cons, Scope.mk.injEq, and_true, true_and]
      omega
    · simp [Parent.Collides, wireList, Wire.HashesOkList]

/-- The members of an open `NamedObject`. -/
theorem emitMembers_grown (hlimits : limits.Sized) : (ms : List (Bytes × Tree)) →
    (scope : Scope .namedObject) → {w : Writer} → {depth : ℕ} →
    Wire.WithinMembers limits true depth (wireMembers true ms) →
    w.documentStarted = true → w.rawRoot = false →
    (emitMembers ms scope w).1 = { scope with actual := scope.actual + ms.length } ∧
      Grown (Wire.encodeMembers true (wireMembers true ms))
        (Wire.HashesOkMembers (wireMembers true ms)) w (emitMembers ms scope w).2
  | [], scope, w, _, _, hstarted, hframed => ⟨rfl, .refl hstarted hframed⟩
  | (name, t) :: ms, scope, w, depth, ⟨hkey, hwithin, hrest⟩, hstarted, hframed => by
    obtain ⟨hparent, hgrown⟩ := emit_grown hlimits t (.object name scope) hwithin
      ⟨hframed, fun _ => hstarted⟩ (sized_object hlimits hkey)
    rw [Writer.ensureDocumentHeader_of_started hstarted] at hgrown
    have hemit : t.emit (.object name scope) w =
        (.object name scope.increment, (t.emit (.object name scope) w).2) := Prod.ext hparent rfl
    obtain ⟨hscope, hgrown'⟩ := emitMembers_grown hlimits ms scope.increment hrest hgrown.started
      hgrown.framed
    rw [emitMembers, hemit]
    refine ⟨hscope.trans ?_, (hgrown.trans hgrown').congr ?_ ?_⟩
    · simp only [Scope.increment, List.length_cons, Scope.mk.injEq, and_true, true_and]
      omega
    · simp only [Parent.keyBytes, wireMembers, Wire.encodeMembers, memberKey, if_true,
        List.append_assoc]
    · simp [Parent.Collides, wireMembers, Wire.HashesOkMembers]

/-- The members of an open `IdObject`: their keys are new to the scope. -/
theorem emitIdMembers_grown (hlimits : limits.Sized) : (ms : List (Bytes × Tree)) →
    (scope : Scope .idObject) → {w : Writer} → {depth : ℕ} →
    Wire.WithinMembers limits false depth (wireMembers false ms) →
    w.documentStarted = true → w.rawRoot = false →
    ((emitIdMembers ms scope w).1.actual = scope.actual + ms.length ∧
      (emitIdMembers ms scope w).1.expected = scope.expected) ∧
      Grown (Wire.encodeMembers false (wireMembers false ms))
        (FreshFrom scope.ids ((wireMembers false ms).map Prod.fst) ∧
          Wire.HashesOkMembers (wireMembers false ms)) w (emitIdMembers ms scope w).2
  | [], scope, w, _, _, hstarted, hframed =>
    ⟨⟨rfl, rfl⟩, (Grown.refl hstarted hframed).congr rfl
      (by simp [wireMembers, FreshFrom, Wire.HashesOkMembers])⟩
  | (name, t) :: ms, scope, w, depth, ⟨hkey, hwithin, hrest⟩, hstarted, hframed => by
    obtain ⟨hparent, hgrown⟩ := emit_grown hlimits t (.idObject name scope) hwithin
      ⟨hframed, fun _ => hstarted⟩ (sized_idObject hkey)
    rw [Writer.ensureDocumentHeader_of_started hstarted] at hgrown
    have hemit : t.emit (.idObject name scope) w =
        ((Parent.idObject name scope).advance, (t.emit (.idObject name scope) w).2) :=
      Prod.ext hparent rfl
    obtain ⟨hscope, hgrown'⟩ := emitIdMembers_grown hlimits ms
      { scope.increment with ids := Parent.remember scope.ids (idKey name) } hrest
      hgrown.started hgrown.framed
    rw [emitIdMembers, hemit]
    simp only [Parent.advance]
    refine ⟨⟨hscope.1.trans ?_, hscope.2⟩, (hgrown.trans hgrown').congr ?_ ?_⟩
    · simp only [Scope.increment, List.length_cons]
      omega
    · simp only [Parent.keyBytes, wireMembers, Wire.encodeMembers, memberKey, Bool.false_eq_true,
        if_false, List.append_assoc]
    · simp only [Parent.Collides, wireMembers, Wire.HashesOkMembers, List.map_cons,
        freshFrom_cons, memberKey, Bool.false_eq_true, if_false]
      tauto

end

end Tree

end NekoProto.Binary
