import NekoProto.Binary.FieldLookup
import NekoProto.Binary.ReadsIff
import NekoProto.Parsing.Headerless
import NekoProto.Parsing.NullableTypes
import NekoProto.Parsing.WriterConflicts

/-!
# The round trip of nullable members

`parser_read_reflect_field` probes a member for a null before the parser of its type reads it, and
the probe consumes a null. Only an optional that can be copied is set from the probe itself; the
parser of any other type finds the node consumed.

1. A scalar is read back from its node, and a null from a node that is not consumed yet, but not
   from a consumed one (`readNullable_consumed`).
2. So a member is read back exactly if it is no null, or such an optional
   (`readPresentField_iff`).
3. By induction over the types, a value is read back exactly if this is so for the members of all
   its classes (`parserRead_iff`), and with it the document of the value (`nullable_roundTrip_iff`).
-/

namespace NekoProto.Parsing

open Binary Binary.Reader Outcome Segment

variable {inp : Input} {s t : State} {k pos depth size cost : ℕ} {α : Type}

theorem readsIff_context {x : ReadM α} {p : Prop} {a : α} {text : String}
    (h : ReadsIff k pos size cost s x p a) :
    ReadsIff k pos size cost s (context text x) p a := by
  refine ⟨fun hp hcost => ?_, fun u hu => h.only u (context_returns.mp hu)⟩
  obtain ⟨u, hu, hreads⟩ := h.reads hp hcost
  exact ⟨u, context_returns.mpr hu, hreads⟩

/-! ## Scalars -/

section

variable {n : Node} {bytes : Bytes}

theorem readArithmetic_iff {T : Arithmetic} {a : T.Value}
    (h : Readable inp k pos 0 (BasicValue.arithmetic T a).wire.encode s) :
    ReadsIff k pos (BasicValue.arithmetic T a).wire.encode.length 0 s
      (readArithmetic inp T {} (.node k ((BasicValue.arithmetic T a).wire.layout pos depth)))
      True a := by
  have hpos := (BasicValue.arithmetic T a).wire.length_encode_pos
  exact .free ⟨_, toBasicType_layout h.live (h.unread hpos) h.stands h.end_le,
    consumed_reads (Nat.lt_add_of_pos_right hpos)⟩

/-- A string that is read has been paid for. -/
theorem toBasicString_paid {b : Bytes}
    (h : Returns (toBasicString inp (.node k ((Wire.string bytes).layout pos depth))) s b t) :
    bytes.length ≤ s.remainingAllocation := by
  unfold toBasicString at h
  simp only [returns_bind, requireValid_returns, Wire.layout, Node.tag, Node.dataBegin,
    Node.dataEnd, ne_eq, not_true_eq_false, if_false, subSize_eq (Nat.le_add_right _ _),
    Nat.add_sub_cancel_left, pure_bind, onBudget_returns, charge_returns] at h
  obtain ⟨_, _, ⟨-, rfl⟩, _, _, ⟨r, hr, -⟩, -⟩ := h
  omega

theorem toBasicString_iff (h : Readable inp k pos 0 (Wire.string bytes).encode s) :
    ReadsIff k pos (Wire.string bytes).encode.length bytes.length s
      (toBasicString inp (.node k ((Wire.string bytes).layout pos depth))) True bytes := by
  have hpos := (Wire.string bytes).length_encode_pos
  refine ⟨fun _ hcost => ⟨_, toBasicString_layout h.live (h.unread hpos) h.stands h.end_le hcost,
    ?_⟩, fun u hu => ⟨trivial, toBasicString_paid hu⟩⟩
  obtain ⟨hoffset, herror, -, hconsumed⟩ := consumed_reads (s := s) (k := k)
    (Nat.lt_add_of_pos_right hpos)
  exact ⟨hoffset, herror, Nat.sub_add_cancel hcost, hconsumed⟩

/-- No string is read from any other node, and nothing is consumed. -/
theorem toBasicString_other (hvalid : validate inp s (.node k n) = none) (htag : n.tag ≠ .string) :
    ∃ e, Returns (result (toBasicString inp (.node k n))) s (.error e) s := by
  have hrun : toBasicString inp (.node k n) s = (typeError "string" : ReadM Bytes) s := by
    unfold toBasicString
    rw [bind_ok (a := ()) (requireValid_returns.mpr ⟨hvalid, rfl⟩)]
    simp only [if_pos htag]
  exact ⟨_, result_returns_error.mpr hrun⟩

/-- No integer is read from a string. -/
theorem readArithmetic_string {signed : Bool} {width : Width} {a : BitVec width.bits}
    (htag : n.tag = .string) :
    ¬Returns (readArithmetic inp (.integer signed width) {} (.node k n)) s a t := by
  change ¬Returns (toBasicType inp (.integer signed width) (.node k n)) s a t
  unfold toBasicType
  rw [returns_bind]
  rintro ⟨_, u, -, h⟩
  have hne : n.tag ≠ if signed then .signedInteger else .unsignedInteger := by
    rw [htag]
    cases signed <;> decide
  simp only [toBasicNode, if_pos hne] at h
  exact typeError_returns h

/-- The name of an enumerator leads back to it. -/
theorem find_enumerationName {w : ℕ} {names : List (Bytes × BitVec w)} {value : BitVec w}
    (hnames : (names.map Prod.fst).Nodup) (hname : enumerationName names value ≠ []) :
    names.reverse.find? (fun entry => entry.1 = enumerationName names value) =
      some (enumerationName names value, value) := by
  unfold enumerationName at hname ⊢
  cases hfind : names.find? fun entry => entry.2 = value with
  | none =>
    rw [hfind] at hname
    exact absurd rfl hname
  | some entry =>
    have hmem := List.mem_of_find?_eq_some hfind
    have hvalue : entry.2 = value := by simpa using List.find?_some hfind
    subst hvalue
    change names.reverse.find? (fun other => other.1 = entry.1) = some entry
    cases hfound : names.reverse.find? fun other => other.1 = entry.1 with
    | none =>
      have := List.find?_eq_none.mp hfound entry (List.mem_reverse.mpr hmem)
      simp at this
    | some other =>
      have hother := List.mem_reverse.mp (List.mem_of_find?_eq_some hfound)
      have hsame : other.1 = entry.1 := by simpa using List.find?_some hfound
      rw [List.inj_on_of_nodup_map hnames hother hmem hsame]

theorem readEnumeration_iff {signed : Bool} {width : Width}
    {names : List (Bytes × BitVec width.bits)} {value : BitVec width.bits} {t : Tree}
    (hnames : (names.map Prod.fst).Nodup)
    (ht : enumerationTree signed width names {} value = some t)
    (h : Readable inp k pos 0 t.wire.encode s) :
    ReadsIff k pos t.wire.encode.length t.stringBytes s
      (readEnumeration inp signed width names {} (.node k (t.wire.layout pos depth)))
      True value := by
  have hvalid : validate inp s (.node k (t.wire.layout pos depth)) = none := by
    refine validate_node h.live ?_
    rw [layout_begin]
    exact h.unread (Wire.length_encode_pos _)
  unfold enumerationTree at ht
  split_ifs at ht with hname
  · obtain rfl := Option.some.inj ht
    have hfind := find_enumerationName hnames hname
    refine ⟨fun _ hcost => ?_, fun u hu => ⟨trivial, ?_⟩⟩
    · obtain ⟨u, hread, hreads⟩ := (toBasicString_iff h).reads trivial hcost
      refine ⟨u, returns_bind.mpr ⟨_, u, result_returns_ok.mpr hread, ?_⟩, hreads⟩
      simp only [hfind]
      exact returns_pure.mpr ⟨rfl, rfl⟩
    · obtain ⟨name, u', hread, hu⟩ := returns_bind.mp hu
      cases name with
      | ok name => exact toBasicString_paid (result_returns_ok.mp hread)
      | error e => exact absurd (context_returns.mp hu) (readArithmetic_string rfl)
  · obtain rfl := Option.some.inj ht
    obtain ⟨e, he⟩ := toBasicString_other hvalid (by cases signed <;> exact nofun)
    exact .after he (readsIff_context
      (readArithmetic_iff (T := .integer signed width) (a := value) h))

end

/-! ## Nulls -/

section

variable {w : Wire} {text : String} {read : ReadM α} {v : InputValue} {p : Prop} {a : α}

/-- An unread node is consumed by the probe if it is a null. -/
theorem isEmpty_layout (h : Readable inp k pos 0 w.encode s) :
    Returns (isEmpty inp (.node k (w.layout pos depth))) s (decide (w.tag = .null))
      (if w.tag = .null then consumed s k pos else s) := by
  have hunread : Unread s k (w.layout pos depth).begin := by
    rw [layout_begin]
    exact h.unread w.length_encode_pos
  refine (isEmpty_returns h.live hunread).mpr ⟨?_, ?_⟩
  · rw [layout_tag]
  · rw [layout_tag, layout_begin]

/-- The probe does not see that a consumed node is a null. -/
theorem isEmpty_consumed (h : validate inp s v ≠ none) : Returns (isEmpty inp v) s false s := by
  unfold isEmpty
  rw [returns_get_bind, if_pos (.inl (Option.isSome_iff_ne_none.mpr h))]
  exact returns_pure.mpr ⟨rfl, rfl⟩

theorem validate_consumed (hlive : Live inp s) :
    validate inp (consumed s k pos) (.node k (w.layout pos depth)) ≠ none := by
  have hlive' : Live inp (consumed s k pos) := ⟨hlive.data, hlive.error⟩
  have hconsumed : isConsumed (consumed s k pos) (.node k (w.layout pos depth)) = true := by
    simp [isConsumed, InputValue.id, layout_begin, consumed]
  unfold validate
  simp [validateHandle_node hlive', hconsumed]

theorem readNull_iff {monostate : Bool} (h : Readable inp k pos 0 Wire.null.encode s) :
    ReadsIff k pos Wire.null.encode.length 0 s
      (readNull inp monostate (.node k (Wire.null.layout pos depth))) True () := by
  refine .free ⟨consumed s k pos, ?_, consumed_reads (Nat.lt_succ_self pos)⟩
  exact returns_bind.mpr ⟨true, _, isEmpty_layout h, returns_pure.mpr ⟨rfl, rfl⟩⟩

theorem readNullable_none (h : Readable inp k pos 0 Wire.null.encode s) :
    ReadsIff k pos Wire.null.encode.length 0 s
      (readNullable inp text read (.node k (Wire.null.layout pos depth))) True none := by
  refine .free ⟨consumed s k pos, ?_, consumed_reads (Nat.lt_succ_self pos)⟩
  exact returns_bind.mpr ⟨true, _, isEmpty_layout h, returns_pure.mpr ⟨rfl, rfl⟩⟩

theorem readNullable_some (h : Readable inp k pos 0 w.encode s) (htag : w.tag ≠ .null)
    (hread : ReadsIff k pos size cost s read p a) :
    ReadsIff k pos size cost s (readNullable inp text read (.node k (w.layout pos depth))) p
      (some a) := by
  have hempty : Returns (isEmpty inp (.node k (w.layout pos depth))) s _ _ := isEmpty_layout h
  rw [decide_eq_false htag, if_neg htag] at hempty
  exact .after hempty ((readsIff_context hread).map (Option.some_injective α))

/-- **A consumed null is not read as a null.** -/
theorem readNullable_consumed (h : validate inp s v ≠ none) :
    ¬Returns (readNullable inp text read v) s none t := by
  intro hr
  obtain ⟨empty, u, hempty, hr⟩ := returns_bind.mp hr
  obtain ⟨rfl, rfl⟩ := Returns.unique hempty (isEmpty_consumed h)
  obtain ⟨b, u, -, hr⟩ := returns_bind.mp hr
  cases (returns_pure.mp hr).1

theorem readNull_consumed {monostate : Bool} {b : Unit} (h : validate inp s v ≠ none) :
    ¬Returns (readNull inp monostate v) s b t := by
  intro hr
  obtain ⟨empty, u, hempty, hr⟩ := returns_bind.mp hr
  obtain ⟨rfl, rfl⟩ := Returns.unique hempty (isEmpty_consumed h)
  exact returns_fail hr

end

/-! ## Elements -/

section

variable {read : InputValue → α → ReadM α} {initial a : α} {p : α → Prop} {n : Node} {index : ℕ}
  {ts : List Tree} {values parsed result : List α}

/-- The node of a tree is read back as the value, for any target, exactly if `p` holds of it. -/
def NodeReads (inp : Input) (k : ℕ) (read : InputValue → α → ReadM α) (t : Tree) (p : Prop)
    (a : α) : Prop :=
  ∀ old pos depth s, Readable inp k pos 0 t.wire.encode s →
    ReadsIff k pos t.wire.encode.length t.stringBytes s
      (read (.node k (t.wire.layout pos depth)) old) p a

/-- The nodes of trees are read back as the values exactly if `p` holds of each. -/
def NodesRead (inp : Input) (k : ℕ) (read : InputValue → α → ReadM α) (p : α → Prop) :
    List Tree → List α → Prop
  | [], [] => True
  | t :: ts, a :: as => NodeReads inp k read t (p a) a ∧ NodesRead inp k read p ts as
  | _, _ => False

theorem nodesRead_of_elementTrees {tree : α → Option Tree}
    (h : ∀ a ∈ values, ∀ t, tree a = some t → NodeReads inp k read t (p a) a)
    (hts : elementTrees tree values = some ts) : NodesRead inp k read p ts values := by
  induction values generalizing ts with
  | nil =>
    obtain rfl := Option.some.inj hts
    trivial
  | cons a as ih =>
    obtain ⟨t, ht, hts⟩ := Option.bind_eq_some_iff.mp hts
    obtain ⟨ts', hts', heq⟩ := Option.bind_eq_some_iff.mp hts
    obtain rfl := Option.some.inj heq
    exact ⟨h a List.mem_cons_self t ht,
      ih (fun b hb => h b (List.mem_cons_of_mem _ hb)) hts'⟩

/-- The next element of an array, with the elements after it. -/
theorem element_drop {t : Tree}
    (hdrop : n.elements.drop index = Wire.layoutList pos depth (Tree.wireList (t :: ts))) :
    n.elements[index]? = some (t.wire.layout pos depth) ∧
      n.elements.drop (index + 1) =
        Wire.layoutList (pos + t.wire.encode.length) depth (Tree.wireList ts) := by
  constructor
  · rw [← List.head?_drop, hdrop]
    rfl
  · rw [← List.drop_drop, hdrop]
    rfl

/-- The loop over the items keeps those that it has. -/
theorem prefix_readItems {insert : List α → α → Option (List α)} {array : InputValue}
    (hinsert : ∀ parsed a result, insert parsed a = some result → result = parsed ++ [a]) :
    ∀ {count index : ℕ} {parsed result : List α} {s t : State},
      Returns (readItems inp read initial insert array count index parsed) s result t →
        parsed <+: result
  | 0, _, parsed, result, _, _, h => by
    obtain ⟨rfl, -⟩ := returns_pure.mp h
    exact List.prefix_rfl
  | count + 1, index, parsed, result, s, t, h => by
    obtain ⟨a, u, -, h⟩ := returns_bind.mp (returns_get_bind.mp h)
    cases hitem : insert parsed a with
    | none =>
      rw [hitem] at h
      exact absurd h returns_fail
    | some more =>
      rw [hitem] at h
      obtain rfl := hinsert parsed a more hitem
      exact (List.prefix_append parsed [a]).trans (prefix_readItems hinsert h)

theorem insertItem_eq {unique : Bool} {equivalent : α → α → Bool}
    (h : insertItem unique equivalent parsed a = some result) : result = parsed ++ [a] := by
  unfold insertItem at h
  split_ifs at h
  exact (Option.some.inj h).symm

theorem insertItem_of_pairwise {unique : Bool} {equivalent : α → α → Bool}
    (h : unique = true → List.Pairwise (fun b c => equivalent c b = false)
      (parsed ++ a :: values)) :
    insertItem unique equivalent parsed a = some (parsed ++ [a]) := by
  unfold insertItem
  rw [if_neg]
  intro hdouble
  obtain ⟨hunique, hany⟩ := Bool.and_eq_true_iff.mp hdouble
  obtain ⟨b, hb, hequivalent⟩ := List.any_eq_true.mp hany
  have hfalse := (List.pairwise_append.mp (h hunique)).2.2 b hb a List.mem_cons_self
  rw [hfalse] at hequivalent
  cases hequivalent

theorem readItems_iff {unique : Bool} {equivalent : α → α → Bool} :
    ∀ {ts : List Tree} {values parsed : List α} {index pos depth : ℕ} {s : State},
      NodesRead inp k read p ts values → n.tag = .array →
      n.elements.drop index = Wire.layoutList pos depth (Tree.wireList ts) →
      (unique = true → List.Pairwise (fun b c => equivalent c b = false) (parsed ++ values)) →
      Readable inp k pos 0 (Wire.encodeList (Tree.wireList ts)) s →
      ReadsIff k pos (Wire.encodeList (Tree.wireList ts)).length (Tree.stringBytesList ts) s
        (readItems inp read initial (insertItem unique equivalent) (.node k n) ts.length index
          parsed) (List.Forall p values) (parsed ++ values)
  | [], [], parsed, index, pos, depth, s, _, _, _, _, _ => by
    rw [List.append_nil]
    exact .pure parsed
  | t :: ts, a :: values, parsed, index, pos, depth, s, ⟨hread, hreads⟩, htag, hdrop, hset, h => by
    obtain ⟨helement, hrest⟩ := element_drop hdrop
    simp only [Tree.wireList, Wire.encodeList] at h
    simp only [Tree.wireList, Wire.encodeList, Tree.stringBytesList, List.length_append,
      List.length_cons, readItems]
    refine .after (returns_get.mpr ⟨rfl, rfl⟩) ?_
    rw [arrayElement_eq h.live htag helement]
    have happend : parsed ++ a :: values = (parsed ++ [a]) ++ values := by
      rw [List.append_assoc, List.singleton_append]
    refine ReadsIff.congr (.bind (readsIff_context (hread initial pos depth s h.head))
      (fun u hu => ?_) fun b u u' hb => ?_) (List.forall_cons p a values).symm
    · simp only [insertItem_of_pairwise hset]
      rw [happend]
      exact readItems_iff hreads htag hrest (by rwa [← happend]) (h.tail hu)
    · -- what is returned shows the item that was inserted
      cases hitem : insertItem unique equivalent parsed b with
      | none =>
        simp only [hitem] at hb
        exact absurd hb returns_fail
      | some more =>
        simp only [hitem] at hb
        obtain rfl := insertItem_eq hitem
        obtain ⟨rest, hrest⟩ := prefix_readItems (fun _ _ _ => insertItem_eq) hb
        rw [List.append_assoc] at hrest
        exact (List.cons.inj (List.append_cancel_left hrest)).1

theorem readArrayItems_iff :
    ∀ {ts : List Tree} {values olds : List α} {index pos depth : ℕ} {s : State}
      (hlength : values.length = olds.length),
      NodesRead inp k read p ts values → n.tag = .array →
      n.elements.drop index = Wire.layoutList pos depth (Tree.wireList ts) →
      Readable inp k pos 0 (Wire.encodeList (Tree.wireList ts)) s →
      ReadsIff k pos (Wire.encodeList (Tree.wireList ts)).length (Tree.stringBytesList ts) s
        (readArrayItems inp read (.node k n) index olds) (List.Forall p values) ⟨values, hlength⟩
  | [], [], [], index, pos, depth, s, _, _, _, _, _ => .pure _
  | t :: ts, a :: values, old :: olds, index, pos, depth, s, hlength, ⟨hread, hreads⟩, htag,
    hdrop, h => by
    obtain ⟨helement, hrest⟩ := element_drop hdrop
    simp only [Tree.wireList, Wire.encodeList] at h
    simp only [Tree.wireList, Wire.encodeList, Tree.stringBytesList, List.length_append,
      readArrayItems]
    refine .after (returns_get.mpr ⟨rfl, rfl⟩) ?_
    rw [arrayElement_eq h.live htag helement]
    refine ReadsIff.congr (.bind (readsIff_context (hread old pos depth s h.head))
      (fun u hu => ?_) fun b u u' hb => ?_) (List.forall_cons p a values).symm
    · have hinj : Function.Injective
          fun rest : { result : List α // result.length = olds.length } => (⟨a :: rest.1,
            congrArg (· + 1) rest.2⟩ :
              { result : List α // result.length = (old :: olds).length }) := by
        intro rest rest' heq
        exact Subtype.ext (List.cons.inj (congrArg Subtype.val heq)).2
      exact (readArrayItems_iff (Nat.succ.inj hlength) hreads htag hrest (h.tail hu)).map hinj
    · obtain ⟨rest, u'', -, hb⟩ := returns_bind.mp hb
      exact (List.cons.inj (congrArg Subtype.val (returns_pure.mp hb).1)).1.symm

theorem nodesRead_length : ∀ {ts : List Tree} {values : List α},
    NodesRead inp k read p ts values → ts.length = values.length
  | [], [], _ => rfl
  | _ :: _, _ :: _, h => congrArg (· + 1) (nodesRead_length h.2)

theorem arraySize_layout (ts : List Tree) :
    arraySize (.node k ((Tree.array ts).wire.layout pos depth)) = ts.length := by
  simp only [arraySize, InputValue.elements, List.length_map, Tree.wire, Wire.layout,
    Node.elements, Wire.length_layoutList, Tree.length_wireList]

theorem readSequence_iff {unique : Bool} {equivalent : α → α → Bool}
    (hreads : NodesRead inp k read p ts values)
    (hset : unique = true → List.Pairwise (fun b c => equivalent c b = false) values)
    (h : Readable inp k pos 0 (Tree.array ts).wire.encode s) :
    ReadsIff k pos (Tree.array ts).wire.encode.length (Tree.array ts).stringBytes s
      (readSequence inp read initial (insertItem unique equivalent)
        (.node k ((Tree.array ts).wire.layout pos depth))) (List.Forall p values) values := by
  refine .after (toArray_returns h.live (h.unread (Wire.length_encode_pos _)) rfl) ?_
  rw [arraySize_layout]
  exact .content (readItems_iff hreads rfl rfl hset h.content)

theorem readArray_iff {count : ℕ} {old : { values : List α // values.length = count }}
    (hcount : values.length = count) (hreads : NodesRead inp k read p ts values)
    (h : Readable inp k pos 0 (Tree.array ts).wire.encode s) :
    ReadsIff k pos (Tree.array ts).wire.encode.length (Tree.array ts).stringBytes s
      (readArray inp read (.node k ((Tree.array ts).wire.layout pos depth)) old)
      (List.Forall p values) ⟨values, hcount⟩ := by
  refine .after (toArray_returns h.live (h.unread (Wire.length_encode_pos _)) rfl) ?_
  rw [if_neg (by rw [arraySize_layout, nodesRead_length hreads]; exact not_not.mpr hcount)]
  have hitems := readArrayItems_iff (n := (Tree.array ts).wire.layout pos depth)
    (hcount.trans old.2.symm) hreads rfl (List.drop_zero) h.content
  have hinj : Function.Injective fun result : { result : List α // result.length = old.1.length } =>
      (⟨result.1, result.2.trans old.2⟩ : { result : List α // result.length = count }) := by
    intro result result' heq
    exact Subtype.ext (Subtype.mk.inj heq)
  exact .content (hitems.map hinj)

end

/-! ## Members -/

section

variable {nullForEmpty : Bool} {T : Ty} {value : T.Value} {tree : Tree} {name : Bytes}

/-- A value that is a null itself is written as a null. -/
theorem tree_of_isNull (h : T.isNull value = true) : T.tree nullForEmpty {} value = some .null := by
  cases T with
  | null monostate => rfl
  | optional T =>
    cases value with
    | none => rfl
    | some value => cases h
  | pointer shared T =>
    cases value with
    | none => rfl
    | some value => cases h
  | _ => cases h

theorem nullsOptional_of_isNull (h : T.isNull value = true) : T.NullsOptional value := by
  cases T with
  | null monostate => trivial
  | optional T =>
    cases value with
    | none => trivial
    | some value => cases h
  | pointer shared T =>
    cases value with
    | none => trivial
    | some value => cases h
  | _ => cases h

/-- A null that can be set is an optional without a value. -/
theorem setNull_of_isNull (hsimple : T.Simple) (h : T.isNull value = true)
    (hlike : T.optionalLike = true) : T.setNull = some value := by
  cases T with
  | optional T =>
    cases value with
    | some value => cases h
    | none =>
      have hnull : Ty.setNull (.optional T) = if T.copyable then some none else none := rfl
      rw [Ty.optionalLike, hnull] at hlike
      rw [hnull]
      split_ifs at hlike ⊢
      · rfl
      · cases hlike
  | variant Ts => exact hsimple.elim
  | null monostate => cases hlike
  | pointer shared T => cases hlike
  | _ => cases h

theorem isNull_of_setNull (hsimple : T.Simple) (h : T.setNull = some value) :
    T.isNull value = true := by
  cases T with
  | optional T =>
    have hnull : Ty.setNull (.optional T) = if T.copyable then some none else none := rfl
    rw [hnull] at h
    split_ifs at h
    obtain rfl := Option.some.inj h
    rfl
  | variant Ts => exact hsimple.elim
  | _ => cases h

/-- **A null on a consumed node** is not read back. -/
theorem parserRead_consumed {env : Env} {v : InputValue} {old : T.Value}
    (hnull : T.isNull value = true) (h : validate inp s v ≠ none) :
    ¬Returns (parserRead inp env T {} v old) s value t := by
  cases T with
  | null monostate => exact readNull_consumed h
  | optional T =>
    cases value with
    | none => exact readNullable_consumed h
    | some value => cases hnull
  | pointer shared T =>
    cases value with
    | none => exact readNullable_consumed h
    | some value => cases hnull
  | _ => cases hnull

theorem readPresentField_other {read : InputValue → T.Value → ReadM T.Value} {v : InputValue}
    {old : T.Value} {u : State} (hempty : Returns (isEmpty inp v) s false u) :
    Returns (readPresentField inp T name read v old) s value t ↔
      Returns (read v old) u value t := by
  unfold readPresentField
  rw [returns_bind]
  constructor
  · rintro ⟨empty, u', h', h⟩
    obtain ⟨rfl, rfl⟩ := Returns.unique hempty h'
    exact context_returns.mp h
  · intro h
    exact ⟨false, u, hempty, context_returns.mpr h⟩

/-- **A member that is there** is read back exactly if it is no null, or such an optional, and is
read back itself. -/
theorem readPresentField_iff {env : Env} {old : T.Value} (hsimple : T.Simple)
    (ht : T.tree nullForEmpty {} value = some tree)
    (hread : NodeReads inp k (parserRead inp env T {}) tree (T.NullsOptional value) value)
    (h : Readable inp k pos 0 tree.wire.encode s) :
    ReadsIff k pos tree.wire.encode.length tree.stringBytes s
      (readPresentField inp T name (parserRead inp env T {})
        (.node k (tree.wire.layout pos depth)) old)
      ((T.isNull value = true → T.optionalLike = true) ∧ T.NullsOptional value) value := by
  have hempty : Returns (isEmpty inp (.node k (tree.wire.layout pos depth))) s _ _ :=
    isEmpty_layout h
  by_cases hnull : T.isNull value = true
  · obtain rfl := Option.some.inj ((tree_of_isNull hnull).symm.trans ht)
    have hempty : Returns (isEmpty inp (.node k (Tree.null.wire.layout pos depth))) s true
        (consumed s k pos) := hempty
    by_cases hlike : T.optionalLike = true
    · -- the probe sets the optional
      have hset := setNull_of_isNull hsimple hnull hlike
      refine .congr (.free ⟨consumed s k pos, ?_, consumed_reads (Nat.lt_succ_self pos)⟩)
        (iff_of_true trivial ⟨fun _ => hlike, nullsOptional_of_isNull hnull⟩)
      refine returns_bind.mpr ⟨true, _, hempty, ?_⟩
      rw [hset]
      exact returns_pure.mpr ⟨rfl, rfl⟩
    · refine .congr (.never fun u hu => ?_) (iff_of_false id fun hp => hlike (hp.1 hnull))
      obtain ⟨empty, u', hempty', hu⟩ := returns_bind.mp hu
      obtain ⟨rfl, rfl⟩ := Returns.unique hempty hempty'
      have hset : T.setNull = none := by simpa [Ty.optionalLike] using hlike
      rw [hset] at hu
      exact parserRead_consumed hnull (validate_consumed h.live) (context_returns.mp hu)
  · have htag : tree.wire.tag ≠ .null := fun htag => hnull ((tag_eq_null_iff hsimple ht).mp htag)
    rw [decide_eq_false htag, if_neg htag] at hempty
    have hiff := hread old pos depth s h
    refine .congr ⟨fun hp hcost => ?_, fun u hu => ?_⟩ (and_iff_right fun h => absurd h hnull).symm
    · obtain ⟨u, hu, hreads⟩ := hiff.reads hp hcost
      exact ⟨u, (readPresentField_other hempty).mpr hu, hreads⟩
    · exact hiff.only u ((readPresentField_other hempty).mp hu)

/-- The name of a field that is left out is missing. -/
theorem objectField_leftOut {before ms : List (Bytes × Tree)} {names : List Bytes}
    (hlive : Live inp s) (hfit : Tree.NamesFit false (before.map Prod.fst ++ name :: names))
    (hsub : (ms.map Prod.fst).Sublist names) :
    objectField inp s (.node k ((Tree.object false (before ++ ms)).wire.layout pos depth)) name =
      .error (missingField name) := by
  have hempty : Key.literal [] ∉ (before.map Prod.fst ++ name :: names).map (memberKey false) := by
    rw [List.mem_map]
    rintro ⟨m, hm, hkey⟩
    simp only [memberKey, idKey, Bool.false_eq_true, if_false] at hkey
    split_ifs at hkey
    cases hkey
    exact hfit.nonempty rfl hm
  have hdistinct := nodup_of_keysFit hfit.keysFit hempty
  have hkeys : ((Tree.wireMembers false (before ++ ms)).map Prod.fst).Sublist
      ((before.map Prod.fst ++ names).map (memberKey false)) := by
    rw [Tree.keys_wireMembers, List.map_append]
    exact (hsub.append_left _).map _
  rw [List.map_append, List.map_cons, List.nodup_middle, ← List.map_append] at hdistinct
  refine objectField_absent hlive (fun hmem => hempty ?_) fun hmem => ?_
  · have := hkeys.subset hmem
    simp only [List.map_append, List.mem_append, List.map_cons, List.mem_cons] at this ⊢
    tauto
  · exact (List.nodup_cons.mp hdistinct).1 (hkeys.subset hmem)

theorem unread_of_reads {u : State} {start stop : ℕ} (hunread : Unread s k pos) (hpos : pos < start)
    (h : Reads k start stop cost s u) : Unread u k pos := by
  intro hid
  obtain hid | ⟨-, hle, -⟩ := h.consumed _ hid
  · exact hunread hid
  · exact absurd hle (Nat.not_le.mpr hpos)

theorem lt_membersPos {named : Bool} {before all : List (Bytes × Tree)} :
    pos < Tree.membersPos named pos before all := by
  unfold Tree.membersPos
  omega

end

/-! ## All types -/

section

variable {nullForEmpty : Bool} {env : Env}

theorem readFields_cons {name : Bytes} {T : Ty} {rest : Fields} {v : InputValue} {old : T.Value}
    {olds : rest.Values} :
    readFields inp env (.cons name {} T rest) v (old, olds) = (do
      let value ← readReflectField inp T name {} (parserRead inp env T {}) v old
      let values ← readFields inp env rest v olds
      pure (value, values)) := by
  simp only [readFields, Bool.false_eq_true, if_false, Bool.false_and]

mutual

/-- **A value is read back** from its node exactly if no member of its classes is a null, but for
the optionals that the probe can set. -/
theorem parserRead_iff : (T : Ty) → T.Simple → (value : T.Value) → T.SetsOk env value →
    (t : Tree) → T.tree nullForEmpty {} value = some t →
    NodeReads inp k (parserRead inp env T {}) t (T.NullsOptional value) value
  | .arithmetic T, _, value, _, t, ht, old, pos, depth, s, h => by
    obtain rfl := Option.some.inj ht
    exact readArithmetic_iff h
  | .string, _, value, _, t, ht, old, pos, depth, s, h => by
    obtain rfl := Option.some.inj ht
    exact readsIff_context (toBasicString_iff h)
  | .enumeration signed width names, hnames, value, _, t, ht, old, pos, depth, s, h =>
    readEnumeration_iff hnames ht h
  | .null monostate, _, value, _, t, ht, old, pos, depth, s, h => by
    obtain rfl := Option.some.inj ht
    exact readNull_iff h
  | .optional T, hT, none, _, t, ht, old, pos, depth, s, h => by
    obtain rfl := Option.some.inj ht
    exact readNullable_none h
  | .optional T, hT, some value, hsets, t, ht, old, pos, depth, s, h =>
    readNullable_some h (tag_of_nullable hT.2 hT.1 ht)
      (parserRead_iff T hT.2 value hsets t ht _ pos depth s h)
  | .pointer _ T, hT, none, _, t, ht, old, pos, depth, s, h => by
    obtain rfl := Option.some.inj ht
    exact readNullable_none h
  | .pointer _ T, hT, some value, hsets, t, ht, old, pos, depth, s, h =>
    readNullable_some h (tag_of_nullable hT.2 hT.1 ht)
      (parserRead_iff T hT.2 value hsets t ht _ pos depth s h)
  | .sequence unique T, hT, values, ⟨hset, hsets⟩, t, ht, old, pos, depth, s, h => by
    obtain ⟨ts, hts, rfl⟩ := Option.map_eq_some_iff.mp ht
    refine readSequence_iff (nodesRead_of_elementTrees (fun a ha t ht => ?_) hts) hset h
    exact parserRead_iff T hT a (List.forall_iff_forall_mem.mp hsets a ha) t ht
  | .array size T, hT, values, hsets, t, ht, old, pos, depth, s, h => by
    obtain ⟨ts, hts, rfl⟩ := Option.map_eq_some_iff.mp ht
    refine readArray_iff values.2 (nodesRead_of_elementTrees (fun a ha t ht => ?_) hts) h
    exact parserRead_iff T hT a (List.forall_iff_forall_mem.mp hsets a ha) t ht
  | .object unframed fields, hT, values, hsets, t, ht, old, pos, depth, s, h => by
    obtain ⟨ms, hms, rfl⟩ := Option.map_eq_some_iff.mp ht
    have hunread := h.unread (Wire.length_encode_pos _)
    have hobject : Returns
        (toObject inp (.node k ((Tree.object false ms).wire.layout pos depth))) s _ s :=
      toObject_returns h.live hunread (.inr rfl)
    have hframed : isFramedObject (.node k ((Tree.object false ms).wire.layout pos depth)) = true :=
      rfl
    simp only [parserRead, hframed, Bool.not_true, Bool.and_false, Bool.false_eq_true, if_false]
    refine .after hobject ?_
    rw [Tree.wire, Wire.encode, Tree.length_wireMembers] at h ⊢
    exact .content (readFields_iff fields hT.2 values hsets [] ms hms _ pos depth s hT.1 hunread
      h.content)

theorem readFields_iff : (fields : Fields) → fields.Simple → (values : fields.Values) →
    fields.SetsOk env values → (before ms : List (Bytes × Tree)) →
    fields.members nullForEmpty values = some ms → (olds : fields.Values) → (pos depth : ℕ) →
    (s : State) → Tree.NamesFit false (before.map Prod.fst ++ fields.names) → Unread s k pos →
    Readable inp k (Tree.membersPos false pos before (before ++ ms)) 0
      (Wire.encodeMembers false (Tree.wireMembers false ms)) s →
    ReadsIff k (Tree.membersPos false pos before (before ++ ms))
      (Wire.encodeMembers false (Tree.wireMembers false ms)).length (Tree.stringBytesMembers ms) s
      (readFields inp env fields
        (.node k ((Tree.object false (before ++ ms)).wire.layout pos depth)) olds)
      (fields.NullsOptional values) values
  | .nil, _, (), _, before, ms, hms, olds, pos, depth, s, _, _, _ => by
    obtain rfl := Option.some.inj hms
    exact .pure ()
  | .cons name tags T rest, ⟨htags, hT, hrest⟩, (value, values), ⟨hset, hsets⟩, before, ms, hms,
    (old, olds), pos, depth, s, hfit, hunread, h => by
    subst htags
    have hobject : Returns (toObject inp (.node k
        ((Tree.object false (before ++ ms)).wire.layout pos depth))) s _ s :=
      toObject_returns h.live hunread (.inr rfl)
    have hinj : Function.Injective fun values : rest.Values => (value, values) :=
      fun _ _ heq => (Prod.mk.inj heq).2
    rw [readFields_cons]
    obtain ⟨hnull, hmembers⟩ | ⟨t, ms', ht, hmembers, rfl⟩ := members_cons hT hms
    · -- an empty optional that was left out: the missing field sets it
      have hsub := names_members rest hrest hmembers
      have hread : Returns (readReflectField inp T name {} (parserRead inp env T {})
          (.node k ((Tree.object false (before ++ ms)).wire.layout pos depth)) old) s value s := by
        refine returns_bind.mpr ⟨_, s, hobject, returns_get_bind.mpr ?_⟩
        rw [show ({} : Tags).fieldName name = name from rfl, objectField_leftOut h.live hfit hsub]
        unfold readMissingField
        rw [if_neg (by simp), hnull]
        exact returns_pure.mpr ⟨rfl, rfl⟩
      have hiff := readFields_iff rest hrest values hsets before ms hmembers olds pos depth s
        (hfit.sublist ((List.sublist_cons_self _ _).append_left _)) hunread h
      have hvalue := isNull_of_setNull hT hnull
      refine .congr (.after hread (hiff.map hinj)) (and_iff_right ⟨fun _ => ?_, ?_⟩).symm
      · rw [Ty.optionalLike, hnull]
        rfl
      · exact nullsOptional_of_isNull hvalue
    · have hsub := (names_members rest hrest hmembers).cons_cons name
      have hfit' : Tree.NamesFit false ((before ++ (name, t) :: ms').map Prod.fst) := by
        rw [List.map_append]
        exact hfit.sublist (hsub.append_left _)
      have happend : before ++ (name, t) :: ms' = (before ++ [(name, t)]) ++ ms' := by
        rw [List.append_assoc, List.singleton_append]
      simp only [Tree.wireMembers, Wire.encodeMembers] at h
      simp only [Tree.wireMembers, Wire.encodeMembers, Tree.stringBytesMembers, List.length_append]
      have hfield : ReadsIff k (Tree.membersPos false pos before (before ++ (name, t) :: ms') +
            ((memberKey false name).encode false).length)
          t.wire.encode.length t.stringBytes s
          (readReflectField inp T name {} (parserRead inp env T {})
            (.node k ((Tree.object false (before ++ (name, t) :: ms')).wire.layout pos depth)) old)
          ((T.isNull value = true → T.optionalLike = true) ∧ T.NullsOptional value) value := by
        refine .after hobject (.after (returns_get.mpr ⟨rfl, rfl⟩) ?_)
        rw [show ({} : Tags).fieldName name = name from rfl,
          Tree.objectField_wire h.live pos depth hfit']
        exact readPresentField_iff hT ht (parserRead_iff T hT value hset t ht) h.drop.head
      refine .skip (.bind hfield (fun u hu => ?_) fun v' u u' hv => ?_)
      · have hrest := readFields_iff rest hrest values hsets (before ++ [(name, t)]) ms' hmembers
          olds pos depth u
        rw [← happend, Tree.membersPos_snoc, List.map_append, List.append_assoc] at hrest
        have hunread' := unread_of_reads hunread (Nat.lt_add_right _ lt_membersPos) hu
        exact (hrest hfit hunread' (h.drop.tail hu)).map hinj
      · obtain ⟨values', u'', -, hv⟩ := returns_bind.mp hv
        exact (Prod.mk.inj (returns_pure.mp hv).1).1.symm

end

end

/-! ## Documents -/

/-- **The round trip of nullable members.** What is written for a value of such a type is read back,
as this value, exactly if no member of its classes is a null, but for optionals that can be copied,
and the budget of the Reader pays for its strings. -/
theorem nullable_roundTrip_iff (nullForEmpty : Bool) (inp : Input) (env : Env) (T : Ty)
    (value old : T.Value) (hsimple : T.Simple) (hsets : T.SetsOk env value)
    (hdata : inp.data = (write nullForEmpty T {} value).2)
    (hlimits : ∀ t, T.tree nullForEmpty {} value = some t → WithinLimits inp t) :
    (write nullForEmpty T {} value).1 = .ok () ∧
      ((∃ s, Returns (read inp env T {} old) (init inp) value s) ↔
        T.NullsOptional value ∧ ∀ t, T.tree nullForEmpty {} value = some t →
          t.wire.charge inp.abi + t.stringBytes ≤ inp.limits.maxTotalAllocatedBytes) := by
  obtain ⟨t, ht⟩ : ∃ t, T.tree nullForEmpty {} value = some t := exists_tree T hsimple value
  have hlimit := hlimits t ht
  have hnames := tree_namesOk T hsimple value t ht
  obtain ⟨hbuffer, herror⟩ := Tree.document_grown inp.limits_lt hlimit.within
  rw [write_eq rfl ht] at hdata ⊢
  refine ⟨result_eq_ok.mpr (herror.mpr hnames.keysOk.hashesOk), ?_⟩
  have hholds : Holds inp t.wire :=
    ⟨hlimit.notNull, hlimit.size_le, hdata.trans hbuffer,
      (Wire.fits_iff _ _).mpr ⟨hlimit.within, hnames.keysOk⟩, hlimit.charge_le⟩
  obtain ⟨hroot, hfinish⟩ := root_node_iff.mpr ⟨t.wire, hholds, rfl, rfl, rfl⟩
  have hreadable : Readable inp 0 binaryMagic.length 0 t.wire.encode (opened inp t.wire) :=
    ⟨hholds.live, fun _ hid => (List.not_mem_nil hid).elim, hholds.stands, hholds.size_eq.ge,
      Nat.zero_le _⟩
  have hiff := parserRead_iff T hsimple value hsets t ht old _ 0 _ hreadable
  have hpays : (∀ t', T.tree nullForEmpty {} value = some t' →
        t'.wire.charge inp.abi + t'.stringBytes ≤ inp.limits.maxTotalAllocatedBytes) ↔
      t.stringBytes ≤ (opened inp t.wire).remainingAllocation := by
    have hcharge := hlimit.charge_le
    have hopened : (opened inp t.wire).remainingAllocation =
        inp.limits.maxTotalAllocatedBytes - t.wire.charge inp.abi := rfl
    rw [hopened, ht]
    simp only [Option.some.injEq, forall_eq']
    omega
  rw [hpays]
  constructor
  · rintro ⟨s, hread⟩
    obtain ⟨v, s', hroot', hread, -⟩ := (read_returns env rfl).mp hread
    obtain ⟨rfl, rfl⟩ := Returns.unique hroot hroot'
    exact hiff.only s hread
  · rintro ⟨hnulls, hcost⟩
    obtain ⟨s, hread, hreads⟩ := hiff.reads hnulls hcost
    exact ⟨s, (read_returns env rfl).mpr ⟨_, _, hroot, hread, hreads.finish.trans hfinish⟩⟩

/-- A class with an optional number and a pointer to a string. -/
def contact : Ty :=
  .object false (.cons [0x61] {} (.optional (.arithmetic (.integer false .w8)))
    (.cons [0x62] {} (.pointer true .string) .nil))

/-- A value without the number. -/
def contactValue : contact.Value := (none, some [0x68, 0x69], ())

/-- The tree of the value. -/
def contactTree : Tree := .object false [([0x62], .value (.string [0x68, 0x69]))]

/-- What is written for the value. -/
def contactInput : Input where
  data := (write false contact {} contactValue).2
  size_lt := by decide +kernel
  limits_lt := ParseLimits.sized_default

theorem simple_contact : contact.Simple := by
  refine ⟨⟨by decide, by decide, fun _ => ?_⟩, rfl, ⟨rfl, trivial⟩, rfl, ⟨rfl, trivial⟩, trivial⟩
  have hliteral : useHashedFieldId [0x61] = false := by decide +kernel
  refine List.pairwise_pair.mpr fun h => ?_
  cases hliteral.symm.trans h

theorem withinLimits_contact : WithinLimits contactInput contactTree := by
  have hliteral : useHashedFieldId [0x62] = false := by decide +kernel
  refine ⟨rfl, by decide +kernel, ?_, by decide +kernel⟩
  simp [contactTree, Tree.wire, Tree.wireMembers, memberKey, idKey, hliteral, Wire.Within,
    Wire.WithinMembers, Key.Fits, BasicValue.wire]
  decide

/-- The value is written, and is read back if the budget allows. -/
theorem nullable_roundTrip_contact :
    (write false contact {} contactValue).1 = .ok () ∧
      ((∃ s, Returns (read contactInput Env.zero contact {} contactValue) (init contactInput)
          contactValue s) ↔
        contact.NullsOptional contactValue ∧
          ∀ t, contact.tree false {} contactValue = some t →
            t.wire.charge contactInput.abi + t.stringBytes ≤
              contactInput.limits.maxTotalAllocatedBytes) := by
  refine nullable_roundTrip_iff false contactInput Env.zero contact contactValue contactValue
    simple_contact ⟨trivial, trivial, trivial⟩ rfl fun t ht => ?_
  obtain rfl := Option.some.inj ht
  exact withinLimits_contact

-- A pointer without a value is not read back.
example : ¬contact.NullsOptional (none, none, ()) := by
  rintro ⟨-, ⟨hnull, -⟩, -⟩
  cases hnull rfl

end NekoProto.Parsing
