import NekoProto.Binary.TreeWrite

/-!
# Reading a tree back

The accessors that match the shape of a value give it back from the layout of its tree
(`readBack_layout`). The induction is on the value; it carries that only the nodes of the value
are consumed, so that the nodes after it are still unread.
-/

namespace NekoProto.Binary

open Outcome Segment

/-! ## Keys -/

namespace Key

theorem clashes_of_sameHash {named : Bool} {k l : Key} (h : SameHash k l) : Clashes named k l := by
  cases k with
  | literal n => exact h.elim
  | hash i =>
    cases l with
    | literal n => exact h.elim
    | hash j => exact h

end Key

namespace Wire

mutual

/-- Where no keys clash, no hash is repeated. -/
theorem KeysOk.hashesOk : {w : Wire} → w.KeysOk → w.HashesOk
  | null, _ => trivial
  | bool _, _ => trivial
  | integer _ _, _ => trivial
  | fixed _ _, _ => trivial
  | string _, _ => trivial
  | array _, h => KeysOkList.hashesOk h
  | object _ _, ⟨hkeys, h⟩ =>
    ⟨hkeys.imp fun hclash hsame => hclash (Key.clashes_of_sameHash hsame), KeysOkMembers.hashesOk h⟩

theorem KeysOkList.hashesOk : {ws : List Wire} → KeysOkList ws → HashesOkList ws
  | [], _ => trivial
  | _ :: _, ⟨h, hs⟩ => ⟨KeysOk.hashesOk h, KeysOkList.hashesOk hs⟩

theorem KeysOkMembers.hashesOk : {ms : List (Key × Wire)} → KeysOkMembers ms → HashesOkMembers ms
  | [], _ => trivial
  | _ :: _, ⟨h, hs⟩ => ⟨KeysOk.hashesOk h, KeysOkMembers.hashesOk hs⟩

end

end Wire

namespace Tree

theorem keys_wireMembers (named : Bool) (ms : List (Bytes × Tree)) :
    (wireMembers named ms).map Prod.fst = (ms.map Prod.fst).map (memberKey named) := by
  induction ms with
  | nil => rfl
  | cons m ms ih => exact congrArg (memberKey named m.1 :: ·) ih

/-- The keys of names that fit do not clash. -/
theorem NamesFit.keysFit {named : Bool} {names : List Bytes} (h : NamesFit named names) :
    KeysFit named (names.map (memberKey named)) := by
  unfold KeysFit
  rw [List.pairwise_map]
  cases named with
  | true => exact h.distinct.imp fun hne hclash => hne hclash.1
  | false =>
    refine (h.distinct.and (h.hashes rfl)).imp_of_mem ?_
    rintro n m hn - ⟨hne, hhash⟩
    have hempty : n ≠ [] := fun h' => h.nonempty rfl (h' ▸ hn)
    simp only [memberKey, idKey, Bool.false_eq_true, if_false]
    split_ifs with h₁ h₂ h₂
    · exact hhash h₁ h₂
    · exact fun hclash => hclash
    · exact fun hclash => hempty hclash.1
    · exact fun hclash => hne hclash.1

theorem NamesFit.sublist {named : Bool} {names names' : List Bytes} (h : NamesFit named names)
    (hsub : names'.Sublist names) : NamesFit named names' :=
  ⟨h.distinct.sublist hsub, fun hnamed hmem => h.nonempty hnamed (hsub.subset hmem),
    fun hnamed => (h.hashes hnamed).sublist hsub⟩

mutual

/-- Where the names fit, no keys clash. -/
theorem NamesOk.keysOk : {t : Tree} → t.NamesOk → t.wire.KeysOk
  | null, _ => trivial
  | value (.string _), _ => trivial
  | value (.arithmetic T _), _ => by cases T <;> trivial
  | fixed _ _ _, _ => trivial
  | array _, h => NamesOkList.keysOk h
  | object named ms, ⟨hnames, h⟩ => by
    refine ⟨?_, NamesOkMembers.keysOk h⟩
    rw [keys_wireMembers]
    exact hnames.keysFit

theorem NamesOkList.keysOk : {ts : List Tree} → NamesOkList ts → Wire.KeysOkList (wireList ts)
  | [], _ => trivial
  | _ :: _, ⟨h, hs⟩ => ⟨NamesOk.keysOk h, NamesOkList.keysOk hs⟩

theorem NamesOkMembers.keysOk {named : Bool} : {ms : List (Bytes × Tree)} → NamesOkMembers ms →
    Wire.KeysOkMembers (wireMembers named ms)
  | [], _ => trivial
  | _ :: _, ⟨h, hs⟩ => ⟨NamesOk.keysOk h, NamesOkMembers.keysOk hs⟩

end

end Tree

/-! ## What reading changes -/

namespace Reader

variable {inp : Input} {s t u : State} {k pos mid stop cost a b : ℕ}

/-- Reading has consumed only nodes of the parse between two offsets, and has paid this much. -/
structure Reads (k pos stop cost : ℕ) (s t : State) : Prop where
  offset : t.offset = s.offset
  error : t.error = s.error
  budget : t.remainingAllocation + cost = s.remainingAllocation
  consumed : ∀ id ∈ t.consumed, id ∈ s.consumed ∨ id.parse = k ∧ pos ≤ id.begin ∧ id.begin < stop

namespace Reads

theorem refl (s : State) : Reads k pos stop 0 s s := ⟨rfl, rfl, rfl, fun _ => .inl⟩

theorem mono {pos' stop' : ℕ} (h : Reads k pos stop cost s t) (hpos : pos' ≤ pos)
    (hstop : stop ≤ stop') : Reads k pos' stop' cost s t := by
  refine ⟨h.offset, h.error, h.budget, fun id hid => ?_⟩
  obtain hid | ⟨hk, h₁, h₂⟩ := h.consumed id hid
  · exact .inl hid
  · exact .inr ⟨hk, by omega, by omega⟩

theorem trans (h : Reads k pos mid a s t) (g : Reads k mid stop b t u) (hpos : pos ≤ mid)
    (hmid : mid ≤ stop) : Reads k pos stop (a + b) s u := by
  refine ⟨g.offset.trans h.offset, g.error.trans h.error, ?_, fun id hid => ?_⟩
  · rw [← h.budget, ← g.budget]
    omega
  · obtain hid | ⟨hk, h₁, h₂⟩ := g.consumed id hid
    · exact (h.mono (le_refl _) hmid).consumed id hid
    · exact .inr ⟨hk, by omega, h₂⟩

theorem finish (h : Reads k pos stop cost s t) : finish inp t = finish inp s := by
  unfold Reader.finish
  rw [h.error, h.offset]

end Reads

theorem consumed_reads (hpos : pos < stop) : Reads k pos stop 0 s (consumed s k pos) := by
  refine ⟨rfl, rfl, rfl, fun id hid => ?_⟩
  obtain rfl | hid := List.mem_cons.mp hid
  · exact .inr ⟨rfl, le_refl _, hpos⟩
  · exact .inl hid

/-- These bytes stand at an offset, none of their nodes is consumed, and the budget pays for
reading them. -/
structure Readable (inp : Input) (k pos cost : ℕ) (bytes : Bytes) (s : State) : Prop where
  live : Live inp s
  untouched : ∀ id ∈ s.consumed, id.parse = k → ¬(pos ≤ id.begin ∧ id.begin < pos + bytes.length)
  stands : At inp.data pos bytes
  end_le : pos + bytes.length ≤ inp.size
  budget : cost ≤ s.remainingAllocation

namespace Readable

variable {as bs : Bytes}

theorem left (h : Readable inp k pos (a + b) (as ++ bs) s) : Readable inp k pos a as s := by
  have hend := h.end_le
  have hbudget := h.budget
  rw [List.length_append] at hend
  refine ⟨h.live, fun id hid hk hmem => h.untouched id hid hk ?_, (at_append.mp h.stands).1,
    by omega, by omega⟩
  rw [List.length_append]
  omega

/-- What comes after the bytes that were read is still readable. -/
theorem right (h : Readable inp k pos (a + b) (as ++ bs) s)
    (hreads : Reads k pos (pos + as.length) a s t) :
    Readable inp k (pos + as.length) b bs t := by
  have hend := h.end_le
  have hbudget := h.budget
  have hpaid := hreads.budget
  rw [List.length_append] at hend
  refine ⟨⟨h.live.data, hreads.error.trans h.live.error⟩, fun id hid hk hmem => ?_,
    (at_append.mp h.stands).2, by omega, by omega⟩
  obtain hid | ⟨-, -, hlt⟩ := hreads.consumed id hid
  · refine h.untouched id hid hk ?_
    rw [List.length_append]
    omega
  · omega

theorem drop (h : Readable inp k pos cost (as ++ bs) s) :
    Readable inp k (pos + as.length) cost bs s := by
  refine right (a := 0) ?_ (.refl s)
  rwa [Nat.zero_add]

/-- The content of a container is readable after its tag and its count. -/
theorem content {tag : UInt8} {count : ℕ}
    (h : Readable inp k pos cost (tag :: (Leb128.encode count ++ bs)) s) :
    Readable inp k (pos + 1 + (Leb128.encode count).length) cost bs s :=
  (show Readable inp k pos cost ([tag] ++ _) s from h).drop.drop

theorem unread (h : Readable inp k pos cost as s) (has : 0 < as.length) : Unread s k pos :=
  fun hid => h.untouched _ hid rfl ⟨le_refl _, Nat.lt_add_of_pos_right has⟩

end Readable

/-- The computation returns the value, and reads only the `size` bytes from an offset on. -/
def ReadsBack {α : Type} (k pos size cost : ℕ) (s : State) (x : ReadM α) (v : α) : Prop :=
  ∃ t, Returns x s v t ∧ Reads k pos (pos + size) cost s t

namespace ReadsBack

variable {α β : Type} {x : ReadM α} {v : α} {f : α → ReadM β} {w : β} {size size' : ℕ}

theorem pure (v : α) : ReadsBack k pos size 0 s (pure v : ReadM α) v :=
  ⟨s, returns_pure.mpr ⟨rfl, rfl⟩, .refl s⟩

theorem bind (hx : ReadsBack k pos size a s x v)
    (hf : ∀ t, Reads k pos (pos + size) a s t → ReadsBack k (pos + size) size' b t (f v) w) :
    ReadsBack k pos (size + size') (a + b) s (x >>= f) w := by
  obtain ⟨t, hx, hreads⟩ := hx
  obtain ⟨u, hf, hreads'⟩ := hf t hreads
  refine ⟨u, returns_bind.mpr ⟨v, t, hx, hf⟩, ?_⟩
  rw [← Nat.add_assoc]
  exact hreads.trans hreads' (Nat.le_add_right _ _) (Nat.le_add_right _ _)

/-- A computation that only looks at the state comes before. -/
theorem after (hx : Returns x s v s) (hf : ReadsBack k pos size a s (f v) w) :
    ReadsBack k pos size a s (x >>= f) w := by
  obtain ⟨t, hf, hreads⟩ := hf
  exact ⟨t, returns_bind.mpr ⟨v, s, hx, hf⟩, hreads⟩

theorem map (hx : ReadsBack k pos size a s x v) (g : α → β) :
    ReadsBack k pos size a s (x >>= fun v => Pure.pure (g v)) (g v) := by
  obtain ⟨t, hx, hreads⟩ := hx
  exact ⟨t, returns_bind.mpr ⟨v, t, hx, returns_pure.mpr ⟨rfl, rfl⟩⟩, hreads⟩

/-- Bytes before that are not read. -/
theorem skip {d : ℕ} (h : ReadsBack k (pos + d) size a s x v) :
    ReadsBack k pos (d + size) a s x v := by
  obtain ⟨t, hx, hreads⟩ := h
  exact ⟨t, hx, hreads.mono (Nat.le_add_right _ _) (by omega)⟩

/-- Of a container, only its content is read. -/
theorem content {tag : UInt8} {count : ℕ} {bs : Bytes}
    (h : ReadsBack k (pos + 1 + (Leb128.encode count).length) bs.length a s x v) :
    ReadsBack k pos (tag :: (Leb128.encode count ++ bs)).length a s x v := by
  have := skip (d := 1) (skip h)
  rwa [← List.length_append, Nat.add_comm 1, ← List.length_cons (a := tag)] at this

end ReadsBack

theorem arrayElement_eq (hlive : Live inp s) {n e : Node} {index : ℕ} (htag : n.tag = .array)
    (helement : n.elements[index]? = some e) :
    arrayElement inp s (.node k n) index = .node k e := by
  unfold arrayElement
  rw [validateHandle_node hlive]
  simp [InputValue.elements, InputValue.tag, helement, htag]

end Reader

/-! ## The read -/

theorem Wire.length_layoutList (ws : List Wire) (pos depth : ℕ) :
    (Wire.layoutList pos depth ws).length = ws.length := by
  induction ws generalizing pos with
  | nil => rfl
  | cons w ws ih => simp only [Wire.layoutList, List.length_cons, ih]

theorem Wire.length_layoutMembers (named : Bool) (ms : List (Key × Wire)) (pos depth : ℕ) :
    (Wire.layoutMembers named pos depth ms).length = ms.length := by
  induction ms generalizing pos with
  | nil => rfl
  | cons m ms ih => simp only [Wire.layoutMembers, List.length_cons, ih]

namespace Tree

open Reader Shape

variable {inp : Input} {k : ℕ}

theorem length_shapeList (ts : List Tree) : (shapeList ts).length = ts.length := by
  induction ts with
  | nil => rfl
  | cons t ts ih => simp only [shapeList, List.length_cons, ih]

theorem length_shapeMembers (ms : List (Bytes × Tree)) : (shapeMembers ms).length = ms.length := by
  induction ms with
  | nil => rfl
  | cons m ms ih => simp only [shapeMembers, List.length_cons, ih]

theorem wireMembers_append (named : Bool) (as bs : List (Bytes × Tree)) :
    wireMembers named (as ++ bs) = wireMembers named as ++ wireMembers named bs := by
  induction as with
  | nil => rfl
  | cons a as ih => simp only [List.cons_append, wireMembers, ih]

/-- Where the members of an object stand that come after the first ones. -/
def membersPos (named : Bool) (pos : ℕ) (before all : List (Bytes × Tree)) : ℕ :=
  pos + 1 + (Leb128.encode all.length).length +
    (Wire.encodeMembers named (wireMembers named before)).length

theorem encodeMembers_append (named : Bool) (as bs : List (Key × Wire)) :
    Wire.encodeMembers named (as ++ bs) =
      Wire.encodeMembers named as ++ Wire.encodeMembers named bs := by
  induction as with
  | nil => rfl
  | cons a as ih =>
    simp only [List.cons_append, Wire.encodeMembers, ih, List.append_assoc]

theorem membersPos_snoc (named : Bool) (pos : ℕ) (before all : List (Bytes × Tree))
    (name : Bytes) (t : Tree) :
    membersPos named pos (before ++ [(name, t)]) all =
      membersPos named pos before all + ((memberKey named name).encode named).length +
        t.wire.encode.length := by
  simp only [membersPos, wireMembers_append, encodeMembers_append, wireMembers,
    Wire.encodeMembers, List.length_append, List.append_nil, Nat.add_assoc]

/-- The name of a member leads to its value, whatever stands before it. -/
theorem objectField_wire {named : Bool} {before ms : List (Bytes × Tree)} {name : Bytes} {t : Tree}
    {s : State} (hlive : Live inp s) (pos depth : ℕ)
    (hfit : NamesFit named ((before ++ (name, t) :: ms).map Prod.fst)) :
    objectField inp s
        (.node k ((wire (.object named (before ++ (name, t) :: ms))).layout pos depth)) name =
      .ok (.node k (t.wire.layout
        (membersPos named pos before (before ++ (name, t) :: ms) +
          ((memberKey named name).encode named).length) (depth + 1))) := by
  have hkeys := hfit.keysFit
  rw [← keys_wireMembers] at hkeys
  rw [membersPos, ← length_wireMembers named (before ++ (name, t) :: ms)]
  refine objectField_layout hlive (wireMembers_append named before ((name, t) :: ms)) hkeys ?_ ?_
  · rintro rfl a ha
    exact literal_of_mem before (List.mem_map_of_mem ha)
  · rintro hnamed rfl
    refine hfit.nonempty hnamed ?_
    simp

mutual

/-- **Reading back.** The accessors that match the shape of a value return it from its layout. -/
theorem readBack_layout : (t : Tree) → (pos depth : ℕ) → (s : State) → t.NamesOk →
    Readable inp k pos t.stringBytes t.wire.encode s →
    ReadsBack k pos t.wire.encode.length t.stringBytes s
      (t.shape.readBack inp (.node k (t.wire.layout pos depth))) t
  | .null, pos, depth, s, _, h => by
    refine ⟨consumed s k pos, ?_, consumed_reads (Nat.lt_succ_self pos)⟩
    simp only [shape, readBack, returns_bind]
    exact ⟨true, consumed s k pos,
      (isEmpty_returns h.live (h.unread Nat.one_pos)).mpr ⟨rfl, rfl⟩, returns_pure.mpr ⟨rfl, rfl⟩⟩
  | .value (.string bytes), pos, depth, s, _, h => by
    have hpos := (Wire.string bytes).length_encode_pos
    refine ReadsBack.map ⟨_, toBasicString_layout h.live (h.unread hpos) h.stands h.end_le h.budget,
      ?_⟩ fun bytes => Tree.value (.string bytes)
    obtain ⟨hoffset, herror, -, hconsumed⟩ := consumed_reads (s := s) (k := k)
      (Nat.lt_add_of_pos_right hpos)
    exact ⟨hoffset, herror, Nat.sub_add_cancel h.budget, hconsumed⟩
  | .value (.arithmetic T v), pos, depth, s, _, h => by
    have hpos := (BasicValue.arithmetic T v).wire.length_encode_pos
    exact ReadsBack.map ⟨_, toBasicType_layout h.live (h.unread hpos) h.stands h.end_le,
      consumed_reads (Nat.lt_add_of_pos_right hpos)⟩ fun v => Tree.value (.arithmetic T v)
  | .fixed signed width v, pos, depth, s, _, h => by
    have hpos := ((Arithmetic.integer signed width).fixedWire v).length_encode_pos
    exact ReadsBack.map ⟨_, readFixed_layout h.live (h.unread hpos) h.stands h.end_le,
      consumed_reads (Nat.lt_add_of_pos_right hpos)⟩ fun v => Tree.fixed signed width v
  | .array ts, pos, depth, s, hnames, h => by
    have hunread := h.unread (Wire.length_encode_pos _)
    refine ReadsBack.after (toArray_returns h.live hunread rfl) ?_
    rw [if_neg]
    · have hread := readElements_layout ts ((wire (.array ts)).layout pos depth) 0 _ (depth + 1) s
        rfl rfl hnames h.content
      exact ReadsBack.content (hread.map Tree.array)
    · simp only [arraySize, InputValue.elements, List.length_map, wire, Wire.layout,
        Node.elements, Wire.length_layoutList, length_wireList, length_shapeList, ne_eq,
        not_true_eq_false, not_false_eq_true]
  | .object named ms, pos, depth, s, ⟨hfit, hnames⟩, h => by
    have hunread := h.unread (Wire.length_encode_pos _)
    rw [wire, Wire.encode, length_wireMembers] at h ⊢
    have htag : objectTag named = .namedObject ∨ objectTag named = .idObject := by
      cases named
      · exact .inr rfl
      · exact .inl rfl
    refine ReadsBack.after (toObject_returns h.live hunread htag) ?_
    rw [if_neg]
    · exact ReadsBack.content (ReadsBack.map (readMembers_layout named ms [] pos depth s hfit hnames
        h.content) (Tree.object named))
    · simp only [objectSize, InputValue.members, List.length_map, Wire.layout,
        Node.members, Wire.length_layoutMembers, length_wireMembers, length_shapeMembers, ne_eq,
        not_true_eq_false, not_false_eq_true]

/-- The elements of an array from an index on. -/
theorem readElements_layout : (ts : List Tree) → (n : Node) → (index pos depth : ℕ) →
    (s : State) → n.tag = .array →
    n.elements.drop index = Wire.layoutList pos depth (wireList ts) → NamesOkList ts →
    Readable inp k pos (stringBytesList ts) (Wire.encodeList (wireList ts)) s →
    ReadsBack k pos (Wire.encodeList (wireList ts)).length (stringBytesList ts) s
      (readElements inp (shapeList ts) (.node k n) index) ts
  | [], n, index, pos, depth, s, _, _, _, _ => .pure []
  | t :: ts, n, index, pos, depth, s, htag, hdrop, ⟨hname, hnames⟩, h => by
    simp only [wireList, Wire.encodeList, stringBytesList] at h
    have helement : n.elements[index]? = some (t.wire.layout pos depth) := by
      rw [← List.head?_drop, hdrop]
      rfl
    have hrest : n.elements.drop (index + 1) =
        Wire.layoutList (pos + t.wire.encode.length) depth (wireList ts) := by
      rw [← List.drop_drop, hdrop]
      rfl
    simp only [wireList, Wire.encodeList, stringBytesList, List.length_append, shapeList,
      readElements]
    refine ReadsBack.after (returns_get.mpr ⟨rfl, rfl⟩) ?_
    rw [arrayElement_eq h.live htag helement]
    refine (readBack_layout t pos depth s hname h.left).bind fun u hreads => ?_
    exact ReadsBack.map (readElements_layout ts n (index + 1) _ depth u htag hrest hnames
      (h.right hreads)) fun values => t :: values

/-- The members of an object after some that were read before. -/
theorem readMembers_layout (named : Bool) : (ms before : List (Bytes × Tree)) →
    (pos depth : ℕ) → (s : State) → NamesFit named ((before ++ ms).map Prod.fst) →
    NamesOkMembers ms →
    Readable inp k (membersPos named pos before (before ++ ms)) (stringBytesMembers ms)
      (Wire.encodeMembers named (wireMembers named ms)) s →
    ReadsBack k (membersPos named pos before (before ++ ms))
      (Wire.encodeMembers named (wireMembers named ms)).length (stringBytesMembers ms) s
      (readMembers inp (shapeMembers ms)
        (.node k ((wire (.object named (before ++ ms))).layout pos depth))) ms
  | [], before, pos, depth, s, _, _, _ => .pure []
  | (name, t) :: ms, before, pos, depth, s, hfit, ⟨hname, hnames⟩, h => by
    have happend : before ++ (name, t) :: ms = (before ++ [(name, t)]) ++ ms := by
      rw [List.append_assoc, List.singleton_append]
    simp only [wireMembers, Wire.encodeMembers, stringBytesMembers] at h
    simp only [wireMembers, Wire.encodeMembers, stringBytesMembers, List.length_append,
      shapeMembers, readMembers]
    refine ReadsBack.after (returns_get.mpr ⟨rfl, rfl⟩) ?_
    rw [objectField_wire h.live pos depth hfit]
    change ReadsBack k _ _ _ s (readBack inp t.shape _ >>= _) _
    refine ((readBack_layout t _ (depth + 1) s hname h.drop.left).bind fun u hreads => ?_).skip
    have hrest := readMembers_layout named ms (before ++ [(name, t)]) pos depth u
    rw [← happend, membersPos_snoc] at hrest
    exact ReadsBack.map (hrest hfit hnames (h.drop.right hreads)) fun values => (name, t) :: values

end

end Tree

end NekoProto.Binary
