import NekoProto.Json.TextWriter

/-!
# What the text writer writes is read back

1. The events of a value make its node (`emit_spec`): an event changes what is at one place of the
   tree, so that the events of an element only change that element (`place_modify`), and the handle
   of its container is still there for the next one.
2. The text of that node is parsed to the document of the value (`parseValue_render`), and it is
   UTF-8 where the strings of the value are.
3. **Together**: the text of a value denotes a document which is that value
   (`emit_denotes`).
-/

namespace NekoProto.Json.TextWriter

open Binary

/-! ## Places in a tree -/

namespace Node

theorem child_setChild {step : Step} {node c : Node} (h : node.child step = some c) (c' : Node) :
    (setChild step c' node).child step = some c' := by
  obtain ⟨kind, value, array, names, values⟩ := node
  cases step with
  | element index =>
    obtain ⟨hlt, _⟩ := List.getElem?_eq_some_iff.mp h
    exact List.getElem?_set_self hlt
  | member index =>
    obtain ⟨hlt, _⟩ := List.getElem?_eq_some_iff.mp h
    exact List.getElem?_set_self hlt

theorem setChild_setChild (step : Step) (c c' node : Node) :
    setChild step c (setChild step c' node) = setChild step c node := by
  obtain ⟨kind, value, array, names, values⟩ := node
  cases step with
  | element index => exact congrArg (fun array => mk kind value array names values) (List.set_set _)
  | member index => exact congrArg (fun values => mk kind value array names values) (List.set_set _)

theorem modify_cons_some (f : Node → Node) {step : Step} {handle : Handle} {node c : Node}
    (h : node.child step = some c) :
    node.modify f (step :: handle) = setChild step (c.modify f handle) node := by
  rw [modify, h]

theorem modify_cons_none (f : Node → Node) {step : Step} {handle : Handle} {node : Node}
    (h : node.child step = none) : node.modify f (step :: handle) = node := by
  rw [modify, h]

theorem at?_append (p q : Handle) (node : Node) :
    node.at? (p ++ q) = (node.at? p).bind (at? q) := by
  induction p generalizing node with
  | nil => rfl
  | cons step p ih =>
    show (node.child step).bind (at? (p ++ q)) = ((node.child step).bind (at? p)).bind (at? q)
    cases node.child step with
    | none => rfl
    | some c => exact ih c

/-- A change at a place shows there. -/
theorem at?_modify (f : Node → Node) {p : Handle} {node c : Node} (h : node.at? p = some c) :
    (node.modify f p).at? p = some (f c) := by
  induction p generalizing node with
  | nil => exact congrArg (fun c => some (f c)) (Option.some.inj h)
  | cons step p ih =>
    obtain ⟨d, hd, hc⟩ := Option.bind_eq_some_iff.mp h
    rw [modify_cons_some f hd]
    show ((setChild step (d.modify f p) node).child step).bind (at? p) = _
    rw [child_setChild hd, Option.bind_some]
    exact ih hc

/-- A change below a place is a change at that place. -/
theorem modify_append (f : Node → Node) (p q : Handle) (node : Node) :
    node.modify f (p ++ q) = node.modify (modify f q) p := by
  induction p generalizing node with
  | nil => rfl
  | cons step p ih =>
    cases hd : node.child step with
    | none => rw [List.cons_append, modify_cons_none f hd, modify_cons_none _ hd]
    | some d => rw [List.cons_append, modify_cons_some f hd, modify_cons_some _ hd, ih d]

/-- Two changes at a place are one. -/
theorem modify_modify (f g : Node → Node) (p : Handle) (node : Node) :
    (node.modify g p).modify f p = node.modify (f ∘ g) p := by
  induction p generalizing node with
  | nil => rfl
  | cons step p ih =>
    cases hd : node.child step with
    | none => rw [modify_cons_none g hd, modify_cons_none f hd, modify_cons_none _ hd]
    | some d =>
      rw [modify_cons_some g hd, modify_cons_some f (child_setChild hd _), modify_cons_some _ hd,
        setChild_setChild, ih d]

/-- Only what is done to the node there counts. -/
theorem modify_congr {f g : Node → Node} {p : Handle} {node c : Node}
    (h : node.at? p = some c) (hfg : f c = g c) : node.modify f p = node.modify g p := by
  induction p generalizing node with
  | nil =>
    obtain rfl := Option.some.inj h
    exact hfg
  | cons step p ih =>
    obtain ⟨d, hd, hc⟩ := Option.bind_eq_some_iff.mp h
    rw [modify_cons_some f hd, modify_cons_some g hd, ih hc]

theorem setChild_self {step : Step} {node c : Node} (h : node.child step = some c) :
    setChild step c node = node := by
  obtain ⟨kind, value, array, names, values⟩ := node
  cases step with
  | element index =>
    obtain ⟨hlt, rfl⟩ := List.getElem?_eq_some_iff.mp h
    exact congrArg (fun array => mk kind value array names values) (List.set_getElem_self hlt)
  | member index =>
    obtain ⟨hlt, rfl⟩ := List.getElem?_eq_some_iff.mp h
    exact congrArg (fun values => mk kind value array names values) (List.set_getElem_self hlt)

theorem modify_id (p : Handle) (node : Node) : node.modify id p = node := by
  induction p generalizing node with
  | nil => rfl
  | cons step p ih =>
    cases hd : node.child step with
    | none => exact modify_cons_none id hd
    | some d => rw [modify_cons_some id hd, ih d, setChild_self hd]

/-- A new element is at the end. -/
theorem modify_emplaceArray (f : Node → Node) (c node : Node) :
    (emplaceArray c node).modify f [.element node.array.length] = emplaceArray (f c) node := by
  obtain ⟨kind, value, array, names, values⟩ := node
  have hc : (emplaceArray c (mk kind value array names values)).child
      (.element array.length) = some c := List.getElem?_concat_length
  refine (modify_cons_some f hc).trans ?_
  show mk kind value ((array ++ [c]).set array.length (f c)) names values = _
  rw [List.set_append_right _ _ le_rfl, Nat.sub_self]
  rfl

/-- A new member is at the end. -/
theorem modify_emplaceObject (f : Node → Node) (name : Bytes) (c node : Node) :
    (emplaceObject name c node).modify f [.member node.objectValues.length] =
      emplaceObject name (f c) node := by
  obtain ⟨kind, value, array, names, values⟩ := node
  have hc : (emplaceObject name c (mk kind value array names values)).child
      (.member values.length) = some c := List.getElem?_concat_length
  refine (modify_cons_some f hc).trans ?_
  show mk kind value array (names ++ [name]) ((values ++ [c]).set values.length (f c)) = _
  rw [List.set_append_right _ _ le_rfl, Nat.sub_self]
  rfl

end Node

/-! ## Nodes of values -/

mutual

/-- The node of a value. -/
def nodeOf : JsonValue → Node
  | .null => .empty
  | .bool value => setValue (.bool value)
  | .integer value => setValue (.integer value.1)
  | .double _ => .empty
  | .string value => setValue (.string value)
  | .array elements => .mk .array [] (nodesOf elements) [] []
  | .object members => .mk .object [] [] (members.map Prod.fst) (valuesOf members)

/-- The nodes of the elements of an array. -/
def nodesOf : List JsonValue → List Node
  | [] => []
  | v :: vs => nodeOf v :: nodesOf vs

/-- The nodes of the values of the members of an object. -/
def valuesOf : List (Bytes × JsonValue) → List Node
  | [] => []
  | (_, v) :: members => nodeOf v :: valuesOf members

end

/-- A node with more elements. -/
def appendElements (nodes : List Node) : Node → Node
  | .mk kind value array names values => .mk kind value (array ++ nodes) names values

/-- A node with more members. -/
def appendMembers (others : List Bytes) (nodes : List Node) : Node → Node
  | .mk kind value array names values =>
    .mk kind value array (names ++ others) (values ++ nodes)

theorem appendElements_nil : appendElements [] = id := by
  funext node
  obtain ⟨kind, value, array, names, values⟩ := node
  exact congrArg (fun array => Node.mk kind value array names values) (List.append_nil _)

theorem appendMembers_nil : appendMembers [] [] = id := by
  funext node
  obtain ⟨kind, value, array, names, values⟩ := node
  exact congrArg₂ (fun names values => Node.mk kind value array names values)
    (List.append_nil _) (List.append_nil _)

theorem appendElements_comp (c : Node) (nodes : List Node) :
    appendElements nodes ∘ Node.emplaceArray c = appendElements (c :: nodes) := by
  funext node
  obtain ⟨kind, value, array, names, values⟩ := node
  exact congrArg (fun array => Node.mk kind value array names values) (List.append_assoc _ _ _)

theorem appendMembers_comp (name : Bytes) (c : Node) (others : List Bytes) (nodes : List Node) :
    appendMembers others nodes ∘ Node.emplaceObject name c =
      appendMembers (name :: others) (c :: nodes) := by
  funext node
  obtain ⟨kind, value, array, names, values⟩ := node
  exact congrArg₂ (fun names values => Node.mk kind value array names values)
    (List.append_assoc _ _ _) (List.append_assoc _ _ _)

/-! ## Events -/

/-- A handle that can be used. -/
structure Open (w : Writer) (handle : Handle) : Prop where
  live : handle ∈ w.live
  node : ∃ node, w.root.at? handle = some node

/-- A place where a value can be put. -/
def Ready (w : Writer) : Parent → Prop
  | .root => True
  | .array handle => Open w handle
  | .object _ handle => Open w handle

/-- A tree with one more node. -/
def place (c : Node) : Parent → Node → Node
  | .root, _ => c
  | .array handle, root => root.modify (Node.emplaceArray c) handle
  | .object name handle, root => root.modify (Node.emplaceObject name c) handle

/-- The handles that an event at a place does not lose. -/
def Spared (handle : Handle) : Parent → Prop
  | .root => False
  | .array parent => ¬Below parent handle
  | .object _ parent => ¬Below parent handle

/-- What an event does: the tree has a new node, and the handle of it. -/
structure Added (w : Writer) (parent : Parent) (node : Node) (w' : Writer) (handle : Handle) :
    Prop where
  root : w'.root = place node parent w.root
  live : handle ∈ w'.live
  at? : w'.root.at? handle = some node
  modify : ∀ f, (place node parent w.root).modify f handle = place (f node) parent w.root
  spares : ∀ h ∈ w.live, Spared h parent → h ∈ w'.live
  below : ∀ h, Spared h parent → ¬Below handle h

/-- What is below a new node is below its parent. -/
theorem not_below_of_spared {parent h : Handle} {step : Step} (hspared : ¬Below parent h) :
    ¬Below (parent ++ [step]) h := by
  rintro ⟨hpath, _⟩
  have hparent : parent <+: h := (List.prefix_append parent [step]).trans hpath
  have hlength := hpath.length_le
  rw [List.length_append, List.length_singleton] at hlength
  refine hspared ⟨hparent, ?_⟩
  rintro rfl
  exact absurd hlength (Nat.not_succ_le_self _)

theorem asRoot_added (node : Node) (w : Writer) :
    ∃ w' handle, Writer.asRoot node w = some (w', handle) ∧ Added w .root node w' handle :=
  ⟨_, _, rfl, rfl, List.mem_singleton_self _, rfl, fun _ => rfl, fun _ _ h => h.elim,
    fun _ h => h.elim⟩

theorem addToArray_added (node : Node) {w : Writer} {parent : Handle} (h : Open w parent) :
    ∃ w' handle, Writer.addToArray node parent w = some (w', handle) ∧
      Added w (.array parent) node w' handle := by
  obtain ⟨hlive, array, harray⟩ := h
  have hplace : ∀ f, (place node (.array parent) w.root).modify f
      (parent ++ [.element array.array.length]) = place (f node) (.array parent) w.root := by
    intro f
    show ((w.root.modify (Node.emplaceArray node) parent).modify f _) = _
    rw [Node.modify_append, Node.modify_modify]
    exact Node.modify_congr harray (Node.modify_emplaceArray f node array)
  have hat : (place node (.array parent) w.root).at?
      (parent ++ [.element array.array.length]) = some node := by
    show ((w.root.modify (Node.emplaceArray node) parent).at? _) = _
    rw [Node.at?_append, Node.at?_modify _ harray, Option.bind_some]
    obtain ⟨kind, value, elements, names, values⟩ := array
    show ((elements ++ [node])[elements.length]?).bind some = some node
    rw [List.getElem?_concat_length, Option.bind_some]
  unfold Writer.addToArray
  rw [if_pos hlive, harray]
  refine ⟨_, _, rfl, rfl, List.mem_cons_self, hat, hplace, fun h hh hspared => ?_,
    fun h hspared => not_below_of_spared hspared⟩
  exact List.mem_cons_of_mem _ (List.mem_filter.mpr ⟨hh, decide_eq_true hspared⟩)

theorem addToObject_added (name : Bytes) (node : Node) {w : Writer} {parent : Handle}
    (h : Open w parent) :
    ∃ w' handle, Writer.addToObject name node parent w = some (w', handle) ∧
      Added w (.object name parent) node w' handle := by
  obtain ⟨hlive, object, hobject⟩ := h
  have hplace : ∀ f, (place node (.object name parent) w.root).modify f
      (parent ++ [.member object.objectValues.length]) =
        place (f node) (.object name parent) w.root := by
    intro f
    show ((w.root.modify (Node.emplaceObject name node) parent).modify f _) = _
    rw [Node.modify_append, Node.modify_modify]
    exact Node.modify_congr hobject (Node.modify_emplaceObject f name node object)
  have hat : (place node (.object name parent) w.root).at?
      (parent ++ [.member object.objectValues.length]) = some node := by
    show ((w.root.modify (Node.emplaceObject name node) parent).at? _) = _
    rw [Node.at?_append, Node.at?_modify _ hobject, Option.bind_some]
    obtain ⟨kind, value, elements, names, values⟩ := object
    show ((values ++ [node])[values.length]?).bind some = some node
    rw [List.getElem?_concat_length, Option.bind_some]
  unfold Writer.addToObject
  rw [if_pos hlive, hobject]
  refine ⟨_, _, rfl, rfl, List.mem_cons_self, hat, hplace, fun h hh hspared => ?_,
    fun h hspared => not_below_of_spared hspared⟩
  exact List.mem_cons_of_mem _ (List.mem_filter.mpr ⟨hh, decide_eq_true hspared⟩)

theorem addArray_added {w : Writer} {parent : Parent} (h : Ready w parent) :
    ∃ w' handle, parent.addArray w = some (w', handle) ∧
      Added w parent .initializeArray w' handle :=
  match parent with
  | .root => asRoot_added _ w
  | .array _ => addToArray_added _ h
  | .object name _ => addToObject_added name _ h

theorem addObject_added {w : Writer} {parent : Parent} (h : Ready w parent) :
    ∃ w' handle, parent.addObject w = some (w', handle) ∧
      Added w parent .initializeObject w' handle :=
  match parent with
  | .root => asRoot_added _ w
  | .array _ => addToArray_added _ h
  | .object name _ => addToObject_added name _ h

theorem addNull_added {w : Writer} {parent : Parent} (h : Ready w parent) :
    ∃ w' handle, parent.addNull w = some (w', handle) ∧ Added w parent .empty w' handle :=
  match parent with
  | .root => asRoot_added _ w
  | .array _ => addToArray_added _ h
  | .object name _ => addToObject_added name _ h

theorem addValue_added (value : Scalar) {w : Writer} {parent : Parent} (h : Ready w parent) :
    ∃ w' handle, parent.addValue value w = some (w', handle) ∧
      Added w parent (setValue value) w' handle :=
  match parent with
  | .root => asRoot_added _ w
  | .array _ => addToArray_added _ h
  | .object name _ => addToObject_added name _ h

/-- What the events of a value do. -/
structure Emitted (w : Writer) (parent : Parent) (node : Node) (w' : Writer) : Prop where
  root : w'.root = place node parent w.root
  spares : ∀ h ∈ w.live, Spared h parent → h ∈ w'.live

theorem Added.emitted {w w' : Writer} {parent : Parent} {node : Node} {handle : Handle}
    (h : Added w parent node w' handle) : Emitted w parent node w' := ⟨h.root, h.spares⟩

/-- The events of what is in a container. -/
structure Filled (w : Writer) (handle : Handle) (f : Node → Node) (w' : Writer) : Prop where
  root : w'.root = w.root.modify f handle
  spares : ∀ h ∈ w.live, ¬Below handle h → h ∈ w'.live

theorem Added.open {w w' : Writer} {parent : Parent} {node : Node} {handle : Handle}
    (h : Added w parent node w' handle) : Open w' handle := ⟨h.live, node, h.at?⟩

theorem Added.filled {w w₁ w' : Writer} {parent : Parent} {node : Node} {handle : Handle}
    {f : Node → Node} (h : Added w parent node w₁ handle) (h' : Filled w₁ handle f w') :
    Emitted w parent (f node) w' where
  root := by rw [h'.root, h.root, h.modify]
  spares g hg hspared := h'.spares g (h.spares g hg hspared) (h.below g hspared)

theorem Filled.refl (w : Writer) (handle : Handle) : Filled w handle id w :=
  ⟨(Node.modify_id handle w.root).symm, fun _ hh _ => hh⟩

/-- One more element, and then the others. -/
theorem Emitted.cons_element {w w₁ w' : Writer} {handle : Handle} {node : Node}
    {nodes : List Node} (h : Emitted w (.array handle) node w₁)
    (h' : Filled w₁ handle (appendElements nodes) w') :
    Filled w handle (appendElements (node :: nodes)) w' where
  root := by
    rw [h'.root, h.root, ← appendElements_comp]
    exact Node.modify_modify _ _ handle w.root
  spares g hg hspared := h'.spares g (h.spares g hg hspared) hspared

/-- One more member, and then the others. -/
theorem Emitted.cons_member {w w₁ w' : Writer} {handle : Handle} {name : Bytes} {node : Node}
    {names : List Bytes} {nodes : List Node} (h : Emitted w (.object name handle) node w₁)
    (h' : Filled w₁ handle (appendMembers names nodes) w') :
    Filled w handle (appendMembers (name :: names) (node :: nodes)) w' where
  root := by
    rw [h'.root, h.root, ← appendMembers_comp]
    exact Node.modify_modify _ _ handle w.root
  spares g hg hspared := h'.spares g (h.spares g hg hspared) hspared

/-- The handle of a container is there for its next element. -/
theorem Open.emitted {w w' : Writer} {handle : Handle} {parent : Parent} {node : Node}
    {f : Node → Node} (h : Open w handle) (h' : Emitted w parent node w')
    (hplace : place node parent w.root = w.root.modify f handle) (hspared : Spared handle parent) :
    Open w' handle := by
  obtain ⟨hlive, c, hc⟩ := h
  refine ⟨h'.spares handle hlive hspared, f c, ?_⟩
  rw [h'.root, hplace]
  exact Node.at?_modify f hc

theorem not_below_self (handle : Handle) : ¬Below handle handle := fun h => h.2 rfl

mutual

/-- **The events of a value make its node.** -/
theorem emit_spec : ∀ {v : JsonValue}, v.Exact → ∀ {w : Writer} {parent : Parent},
    Ready w parent → ∃ w', emit v parent w = some w' ∧ Emitted w parent (nodeOf v) w'
  | .null, _, _, _, h => by
    obtain ⟨w', handle, hadd, hadded⟩ := addNull_added h
    exact ⟨w', by rw [emit, hadd, Option.map_some], hadded.emitted⟩
  | .bool value, _, _, _, h => by
    obtain ⟨w', handle, hadd, hadded⟩ := addValue_added (.bool value) h
    exact ⟨w', by rw [emit, hadd, Option.map_some], hadded.emitted⟩
  | .integer value, _, _, _, h => by
    obtain ⟨w', handle, hadd, hadded⟩ := addValue_added (.integer value.1) h
    exact ⟨w', by rw [emit, hadd, Option.map_some], hadded.emitted⟩
  | .double _, hexact, _, _, _ => hexact.elim
  | .string value, _, _, _, h => by
    obtain ⟨w', handle, hadd, hadded⟩ := addValue_added (.string value) h
    exact ⟨w', by rw [emit, hadd, Option.map_some], hadded.emitted⟩
  | .array elements, hexact, _, _, h => by
    obtain ⟨w₁, handle, hadd, hadded⟩ := addArray_added h
    obtain ⟨w', hemit, hfilled⟩ := emitElements_spec hexact hadded.open
    refine ⟨w', ?_, hadded.filled hfilled⟩
    rw [emit, hadd]
    exact hemit
  | .object members, hexact, _, _, h => by
    obtain ⟨w₁, handle, hadd, hadded⟩ := addObject_added h
    obtain ⟨w', hemit, hfilled⟩ := emitMembers_spec hexact hadded.open
    refine ⟨w', ?_, hadded.filled hfilled⟩
    rw [emit, hadd]
    exact hemit

/-- The events of the elements of an array add their nodes to it. -/
theorem emitElements_spec : ∀ {vs : List JsonValue}, JsonValue.ExactList vs →
    ∀ {w : Writer} {handle : Handle}, Open w handle →
      ∃ w', emitElements vs handle w = some w' ∧
        Filled w handle (appendElements (nodesOf vs)) w'
  | [], _, w, handle, _ => by
    refine ⟨w, rfl, ?_⟩
    rw [nodesOf, appendElements_nil]
    exact Filled.refl w handle
  | v :: vs, hexact, w, handle, h => by
    obtain ⟨w₁, hemit, hemitted⟩ := emit_spec hexact.1 (show Ready w (.array handle) from h)
    have hopen := h.emitted hemitted rfl (not_below_self handle)
    obtain ⟨w', hrest, hfilled⟩ := emitElements_spec hexact.2 hopen
    refine ⟨w', ?_, hemitted.cons_element hfilled⟩
    rw [emitElements, hemit]
    exact hrest

/-- The events of the members of an object add them to it. -/
theorem emitMembers_spec : ∀ {members : List (Bytes × JsonValue)},
    JsonValue.ExactMembers members → ∀ {w : Writer} {handle : Handle}, Open w handle →
      ∃ w', emitMembers members handle w = some w' ∧
        Filled w handle (appendMembers (members.map Prod.fst) (valuesOf members)) w'
  | [], _, w, handle, _ => by
    refine ⟨w, rfl, ?_⟩
    rw [valuesOf, List.map_nil, appendMembers_nil]
    exact Filled.refl w handle
  | (name, v) :: members, hexact, w, handle, h => by
    obtain ⟨w₁, hemit, hemitted⟩ := emit_spec hexact.1 (show Ready w (.object name handle) from h)
    have hopen := h.emitted hemitted rfl (not_below_self handle)
    obtain ⟨w', hrest, hfilled⟩ := emitMembers_spec hexact.2 hopen
    refine ⟨w', ?_, hemitted.cons_member hfilled⟩
    rw [emitMembers, hemit]
    exact hrest

end

/-! ## Strings -/

theorem hexDigit_hexDigit {n : UInt8} (hn : n.toNat < 16) :
    Rfc8259.hexDigit (hexDigit n) = some n.toNat := by
  have h : ∀ k < 16, Rfc8259.hexDigit (hexDigit (UInt8.ofNat k)) = some (UInt8.ofNat k).toNat := by
    decide
  have := h n.toNat hn
  rwa [UInt8.ofNat_toNat] at this

/-- A byte of a control character, its digits and its character. -/
def ControlDigits (ch : UInt8) : Prop :=
  (ch >>> 4 &&& 0x0F).toNat < 16 ∧ (ch &&& 0x0F).toNat < 16 ∧
    (ch >>> 4 &&& 0x0F).toNat * 16 + (ch &&& 0x0F).toNat = ch.toNat ∧
    Rfc8259.utf8 ch.toNat = [ch]

instance (ch : UInt8) : Decidable (ControlDigits ch) := inferInstanceAs (Decidable (_ ∧ _))

theorem controlDigits {ch : UInt8} (hch : ch.toNat < 0x20) : ControlDigits ch := by
  have h : ∀ k < 0x20, ControlDigits (UInt8.ofNat k) := by decide
  have := h ch.toNat hch
  rwa [UInt8.ofNat_toNat] at this

/-- A control character in hexadecimal digits. -/
theorem parseEscape_control {ch : UInt8} (hch : ch < 0x20) (bs : Bytes) :
    Rfc8259.parseEscape (0x75 :: 0x30 :: 0x30 :: hexDigit (ch >>> 4 &&& 0x0F) ::
      hexDigit (ch &&& 0x0F) :: bs) = some ([ch], bs) := by
  have hlt : ch.toNat < 0x20 := hch
  obtain ⟨hhigh, hlow, hvalue, hutf8⟩ := controlDigits hlt
  have hzero : Rfc8259.hexDigit 0x30 = some 0 := by decide
  have hhex : Rfc8259.parseHex4 (0x30 :: 0x30 :: hexDigit (ch >>> 4 &&& 0x0F) ::
      hexDigit (ch &&& 0x0F) :: bs) = some (ch.toNat, bs) := by
    unfold Rfc8259.parseHex4
    simp only [hzero, hexDigit_hexDigit hhigh, hexDigit_hexDigit hlow, Option.bind_eq_bind,
      Option.bind_some, Nat.zero_mul, Nat.zero_add, hvalue]
  show Rfc8259.parseUnicode _ = _
  unfold Rfc8259.parseUnicode
  simp only [hhex, Option.bind_eq_bind, Option.bind_some]
  rw [if_neg (by omega), if_neg (by omega), hutf8]

/-- An escaped character is read back. -/
theorem parseChars_escapeByte (ch : UInt8) (fuel : ℕ) (bs : Bytes) :
    Rfc8259.parseChars (fuel + 1) (escapeByte ch ++ bs) =
      (Rfc8259.parseChars fuel bs).map fun r => (ch :: r.1, r.2) := by
  have hescape : ∀ c bs', Rfc8259.parseEscape (c :: bs') = some ([ch], bs) →
      Rfc8259.parseChars (fuel + 1) (0x5C :: c :: bs') =
        (Rfc8259.parseChars fuel bs).map fun r => (ch :: r.1, r.2) := by
    intro c bs' h
    rw [Rfc8259.parseChars, if_neg (by decide), if_pos rfl, h]
    simp only [Option.bind_eq_bind, Option.bind_some]
    cases Rfc8259.parseChars fuel bs <;> rfl
  unfold escapeByte
  split_ifs with h1 h2 h3 h4 h5 h6 h7 h8
  · exact hescape _ _ (by rw [h1]; rfl)
  · exact hescape _ _ (by rw [h2]; rfl)
  · exact hescape _ _ (by rw [h3]; rfl)
  · exact hescape _ _ (by rw [h4]; rfl)
  · exact hescape _ _ (by rw [h5]; rfl)
  · exact hescape _ _ (by rw [h6]; rfl)
  · exact hescape _ _ (by rw [h7]; rfl)
  · exact hescape _ _ (parseEscape_control h8 bs)
  · rw [List.singleton_append, Rfc8259.parseChars, if_neg h1, if_neg h2, if_neg h8]
    cases Rfc8259.parseChars fuel bs <;> rfl

theorem escapeByte_ne_nil (ch : UInt8) : escapeByte ch ≠ [] := by
  unfold escapeByte
  split_ifs <;> exact List.cons_ne_nil _ _

/-- **An escaped text** is read back. -/
theorem parseChars_escape (text rest : Bytes) {fuel : ℕ} (hfuel : (escape text).length < fuel) :
    Rfc8259.parseChars fuel (escape text ++ 0x22 :: rest) = some (text, rest) := by
  induction text generalizing fuel with
  | nil =>
    obtain ⟨fuel, rfl⟩ := Nat.exists_eq_add_one_of_ne_zero (Nat.ne_of_gt hfuel)
    rfl
  | cons ch text ih =>
    have hcons : escape (ch :: text) = escapeByte ch ++ escape text := List.flatMap_cons
    have hpos := List.length_pos_of_ne_nil (escapeByte_ne_nil ch)
    rw [hcons, List.length_append] at hfuel
    obtain ⟨fuel, rfl⟩ := Nat.exists_eq_add_one_of_ne_zero (show fuel ≠ 0 by omega)
    rw [hcons, List.append_assoc, parseChars_escapeByte, ih (by omega), Option.map_some]

theorem parseString_escape (text rest : Bytes) :
    Rfc8259.parseString (0x22 :: (escape text ++ 0x22 :: rest)) = some (text, rest) := by
  refine parseChars_escape text rest ?_
  rw [List.length_append]
  omega

/-! ## Documents -/

mutual

/-- The document of a value. -/
def document : JsonValue → Rfc8259.Value
  | .null => .null
  | .bool value => .bool value
  | .integer value => .number value.1 0
  | .double _ => .null
  | .string value => .string value
  | .array elements => .array (documents elements)
  | .object members => .object (documentMembers members)

/-- The documents of the elements of an array. -/
def documents : List JsonValue → List Rfc8259.Value
  | [] => []
  | v :: vs => document v :: documents vs

/-- The documents of the members of an object. -/
def documentMembers : List (Bytes × JsonValue) → List (Bytes × Rfc8259.Value)
  | [] => []
  | (name, v) :: members => (name, document v) :: documentMembers members

end

mutual

/-- The value of a document whose numbers are integers of 64 bits. -/
def ofDocument : Rfc8259.Value → Option JsonValue
  | .null => some .null
  | .bool value => some (.bool value)
  | .number mantissa exponent =>
    if h : exponent = 0 ∧ -2 ^ 63 ≤ mantissa ∧ mantissa < 2 ^ 64 then
      some (.integer ⟨mantissa, h.2⟩)
    else none
  | .string text => some (.string text)
  | .array elements => (ofDocuments elements).map .array
  | .object members => (ofDocumentMembers members).map .object

/-- The values of the elements of an array. -/
def ofDocuments : List Rfc8259.Value → Option (List JsonValue)
  | [] => some []
  | d :: ds => do
    let v ← ofDocument d
    let vs ← ofDocuments ds
    some (v :: vs)

/-- The members of an object. -/
def ofDocumentMembers : List (Bytes × Rfc8259.Value) → Option (List (Bytes × JsonValue))
  | [] => some []
  | (name, d) :: ds => do
    let v ← ofDocument d
    let members ← ofDocumentMembers ds
    some ((name, v) :: members)

end

mutual

/-- A document is that of one value. -/
theorem ofDocument_document : ∀ {v : JsonValue}, v.Exact → ofDocument (document v) = some v
  | .null, _ => rfl
  | .bool _, _ => rfl
  | .integer value, _ => dif_pos ⟨rfl, value.2⟩
  | .double _, hexact => hexact.elim
  | .string _, _ => rfl
  | .array _, hexact => by
    rw [document, ofDocument, ofDocuments_documents hexact, Option.map_some]
  | .object _, hexact => by
    rw [document, ofDocument, ofDocumentMembers_documentMembers hexact, Option.map_some]

theorem ofDocuments_documents : ∀ {vs : List JsonValue}, JsonValue.ExactList vs →
    ofDocuments (documents vs) = some vs
  | [], _ => rfl
  | v :: vs, hexact => by
    rw [documents, ofDocuments, ofDocument_document hexact.1, ofDocuments_documents hexact.2]
    rfl

theorem ofDocumentMembers_documentMembers : ∀ {members : List (Bytes × JsonValue)},
    JsonValue.ExactMembers members →
      ofDocumentMembers (documentMembers members) = some members
  | [], _ => rfl
  | (name, v) :: members, hexact => by
    rw [documentMembers, ofDocumentMembers, ofDocument_document hexact.1,
      ofDocumentMembers_documentMembers hexact.2]
    rfl

end

/-! ## Values -/

/-- The first byte of a value: no whitespace, and not the end of an array. -/
def Starts (b : UInt8) : Prop := Rfc8259.Solid b ∧ b ≠ 0x5D

instance (b : UInt8) : Decidable (Starts b) := inferInstanceAs (Decidable (_ ∧ _))

/-- The first byte of a number is that of nothing else. -/
structure StartsNumber (b : UInt8) : Prop where
  starts : Starts b
  string : b ≠ 0x22
  array : b ≠ 0x5B
  object : b ≠ 0x7B
  null : b ≠ 0x6E
  true : b ≠ 0x74
  false : b ≠ 0x66

theorem startsNumber_of_isDigit {b : UInt8} (h : Rfc8259.isDigit b = true) : StartsNumber b := by
  obtain ⟨hlower, hupper⟩ := Rfc8259.isDigit_iff.mp h
  have hne : ∀ c : UInt8, 0x39 < c.toNat ∨ c.toNat < 0x30 → b ≠ c := by
    rintro c hc rfl
    omega
  exact ⟨⟨⟨hne _ (by decide), hne _ (by decide), hne _ (by decide), hne _ (by decide)⟩,
    hne _ (by decide)⟩, hne _ (by decide), hne _ (by decide), hne _ (by decide),
    hne _ (by decide), hne _ (by decide), hne _ (by decide)⟩

theorem integer_starts (z : ℤ) :
    ∃ b ds, Rfc8259.integerText z = b :: ds ∧ StartsNumber b := by
  obtain ⟨b, ds, hds, rfl | hb⟩ := Rfc8259.integerText_cons z
  · exact ⟨_, ds, hds, by constructor <;> decide⟩
  · exact ⟨b, ds, hds, startsNumber_of_isDigit hb⟩

/-- A value has a first byte. -/
theorem render_starts {v : JsonValue} (hexact : v.Exact) :
    ∃ b bs, render (nodeOf v) = b :: bs ∧ Starts b := by
  cases v with
  | null => exact ⟨_, _, rfl, by decide⟩
  | bool value => cases value <;> exact ⟨_, _, rfl, by decide⟩
  | integer value =>
    obtain ⟨b, ds, hds, hb⟩ := integer_starts value.1
    exact ⟨b, ds, hds, hb.starts⟩
  | double _ => exact hexact.elim
  | string value => exact ⟨_, _, rfl, by decide⟩
  | array elements => exact ⟨_, _, rfl, by decide⟩
  | object members => exact ⟨_, _, rfl, by decide⟩

/-- What may follow a value: a comma, the end of its container or of the text. -/
theorem endsNumber_cons {b : UInt8} (h : b = 0x2C ∨ b = 0x5D ∨ b = 0x7D) (bs : Bytes) :
    Rfc8259.EndsNumber (b :: bs) := by
  intro c hc
  obtain rfl := Option.some.inj hc
  rcases h with rfl | rfl | rfl <;> decide

theorem parseValue_integer (z : ℤ) (fuel : ℕ) {rest : Bytes} (hend : Rfc8259.EndsNumber rest) :
    Rfc8259.parseValue (fuel + 1) (Rfc8259.integerText z ++ rest) =
      some (.number z 0, rest) := by
  obtain ⟨b, ds, hds, hb⟩ := integer_starts z
  have hhead : (Rfc8259.integerText z ++ rest).head? = some b := by rw [hds]; rfl
  rw [Rfc8259.parseValue, hhead]
  simp only [if_neg hb.string, if_neg hb.array, if_neg hb.object, if_neg hb.null,
    if_neg hb.true, if_neg hb.false]
  exact Rfc8259.parseNumber_integer z hend

/-- The text of some elements starts with that of the first one. -/
theorem renderArray_starts {v : JsonValue} (hexact : v.Exact) (nodes : List Node) (rest : Bytes) :
    ∃ b bs, renderArray true (nodeOf v :: nodes) ++ rest = b :: bs ∧ Starts b := by
  obtain ⟨b, bs, hrender, hb⟩ := render_starts hexact
  refine ⟨b, bs ++ (renderArray false nodes ++ rest), ?_, hb⟩
  show render (nodeOf v) ++ renderArray false nodes ++ rest = _
  rw [hrender, List.append_assoc, List.cons_append]

/-- The text of some members. -/
theorem renderObject_cons (name : Bytes) (names : List Bytes) (node : Node) (nodes : List Node)
    (rest : Bytes) :
    renderObject true (name :: names) (node :: nodes) ++ rest =
      0x22 :: (escape name ++ 0x22 :: 0x3A ::
        (render node ++ (renderObject false names nodes ++ rest))) := by
  rw [renderObject, if_pos rfl, List.nil_append, List.cons_append, List.append_assoc,
    List.cons_append, List.cons_append, List.append_assoc]

theorem skipWs_renderObject (name : Bytes) (names : List Bytes) (node : Node) (nodes : List Node)
    (rest : Bytes) :
    Rfc8259.skipWs (renderObject true (name :: names) (node :: nodes) ++ rest) =
      renderObject true (name :: names) (node :: nodes) ++ rest := by
  rw [renderObject_cons]
  rfl

theorem length_renderObject_cons (name : Bytes) (names : List Bytes) (node : Node)
    (nodes : List Node) :
    (renderObject true (name :: names) (node :: nodes)).length =
      (escape name).length + (render node).length +
        (renderObject false names nodes).length + 3 := by
  have h := congrArg List.length (renderObject_cons name names node nodes [])
  simp only [List.append_nil, List.length_cons, List.length_append] at h
  omega

theorem skipWs_render {v : JsonValue} (hexact : v.Exact) (rest : Bytes) :
    Rfc8259.skipWs (render (nodeOf v) ++ rest) = render (nodeOf v) ++ rest := by
  obtain ⟨b, bs, hrender, hb⟩ := render_starts hexact
  rw [hrender, List.cons_append]
  exact Rfc8259.skipWs_cons hb.1 _

theorem length_render_pos {v : JsonValue} (hexact : v.Exact) :
    0 < (render (nodeOf v)).length := by
  obtain ⟨b, bs, hrender, _⟩ := render_starts hexact
  rw [hrender]
  exact Nat.succ_pos _

mutual

/-- **The text of a value is parsed** to its document. -/
theorem parseValue_render : ∀ {v : JsonValue}, v.Exact → ∀ {fuel : ℕ} {rest : Bytes},
    (render (nodeOf v)).length < fuel → Rfc8259.EndsNumber rest →
      Rfc8259.parseValue fuel (render (nodeOf v) ++ rest) = some (document v, rest)
  | .null, _, fuel + 1, rest, _, _ => rfl
  | .bool true, _, fuel + 1, rest, _, _ => rfl
  | .bool false, _, fuel + 1, rest, _, _ => rfl
  | .integer value, _, fuel + 1, rest, _, hend => parseValue_integer value.1 fuel hend
  | .double _, hexact, _, _, _, _ => hexact.elim
  | .string value, _, fuel + 1, rest, _, _ => by
    have htext : render (nodeOf (.string value)) ++ rest =
        0x22 :: (escape value ++ 0x22 :: rest) :=
      congrArg (List.cons 0x22) (List.append_assoc _ _ _)
    rw [htext]
    show (Rfc8259.parseString _).map _ = _
    rw [parseString_escape, Option.map_some]
    rfl
  | .array [], _, fuel + 1, rest, _, _ => rfl
  | .array (v :: vs), hexact, fuel + 1, rest, hfuel, _ => by
    have htext : render (nodeOf (.array (v :: vs))) ++ rest =
        0x5B :: (renderArray true (nodesOf (v :: vs)) ++ 0x5D :: rest) :=
      congrArg (List.cons 0x5B) (List.append_assoc _ _ _)
    have hlength : (renderArray true (nodesOf (v :: vs))).length + 1 < fuel := by
      have : (render (nodeOf (.array (v :: vs)))).length =
          (renderArray true (nodesOf (v :: vs)) ++ [0x5D]).length + 1 := rfl
      rw [this, List.length_append, List.length_singleton] at hfuel
      omega
    obtain ⟨b, bs, hbs, hb⟩ := renderArray_starts hexact.1 (nodesOf vs) (0x5D :: rest)
    rw [htext, document]
    refine Rfc8259.parseValue_array ?_ ?_
      (parseElements_render hexact (List.cons_ne_nil _ _) hlength)
    · exact hbs ▸ Rfc8259.skipWs_cons hb.1 bs
    · exact fun h => hb.2 (Option.some.inj ((congrArg List.head? hbs).symm.trans h))
  | .object [], _, fuel + 1, rest, _, _ => rfl
  | .object ((name, v) :: members), hexact, fuel + 1, rest, hfuel, _ => by
    have htext : render (nodeOf (.object ((name, v) :: members))) ++ rest =
        0x7B :: (renderObject true (name :: members.map Prod.fst)
          (valuesOf ((name, v) :: members)) ++ 0x7D :: rest) :=
      congrArg (List.cons 0x7B) (List.append_assoc _ _ _)
    have hlength : (renderObject true (name :: members.map Prod.fst)
        (valuesOf ((name, v) :: members))).length + 1 < fuel := by
      have : (render (nodeOf (.object ((name, v) :: members)))).length =
          (renderObject true (name :: members.map Prod.fst)
            (valuesOf ((name, v) :: members)) ++ [0x7D]).length + 1 := rfl
      rw [this, List.length_append, List.length_singleton] at hfuel
      omega
    rw [htext, document]
    refine Rfc8259.parseValue_object ?_ ?_
      (parseMembers_render hexact (List.cons_ne_nil _ _) hlength)
    · exact (renderObject_cons name _ _ _ _) ▸ rfl
    · rw [valuesOf, renderObject_cons]
      exact fun h => absurd (Option.some.inj h) (by decide)

/-- The elements of an array are parsed. -/
theorem parseElements_render : ∀ {vs : List JsonValue}, JsonValue.ExactList vs → vs ≠ [] →
    ∀ {fuel : ℕ} {rest : Bytes}, (renderArray true (nodesOf vs)).length + 1 < fuel →
      Rfc8259.parseElements fuel (renderArray true (nodesOf vs) ++ 0x5D :: rest) =
        some (documents vs, rest)
  | [], _, hne, _, _, _ => absurd rfl hne
  | [v], hexact, _, fuel + 1, rest, hfuel => by
    have htext : renderArray true (nodesOf [v]) = render (nodeOf v) :=
      List.append_nil _
    rw [htext] at hfuel ⊢
    exact Rfc8259.parseElements_last (parseValue_render hexact.1 (by omega)
      (endsNumber_cons (Or.inr (Or.inl rfl)) rest))
  | v :: v' :: vs, hexact, _, fuel + 1, rest, hfuel => by
    have htext : renderArray true (nodesOf (v :: v' :: vs)) =
        render (nodeOf v) ++ 0x2C :: renderArray true (nodesOf (v' :: vs)) := rfl
    obtain ⟨b, bs, hbs, hb⟩ := renderArray_starts hexact.2.1 (nodesOf vs) (0x5D :: rest)
    have hpos := length_render_pos hexact.1
    rw [htext, List.length_append, List.length_cons] at hfuel
    rw [htext, List.append_assoc, List.cons_append]
    refine Rfc8259.parseElements_more (parseValue_render hexact.1 (by omega)
      (endsNumber_cons (Or.inl rfl) _)) ?_
      (parseElements_render hexact.2 (List.cons_ne_nil _ _) (by omega))
    exact hbs ▸ Rfc8259.skipWs_cons hb.1 bs

/-- The members of an object are parsed. -/
theorem parseMembers_render : ∀ {members : List (Bytes × JsonValue)},
    JsonValue.ExactMembers members → members ≠ [] → ∀ {fuel : ℕ} {rest : Bytes},
      (renderObject true (members.map Prod.fst) (valuesOf members)).length + 1 < fuel →
      Rfc8259.parseMembers fuel
          (renderObject true (members.map Prod.fst) (valuesOf members) ++ 0x7D :: rest) =
        some (documentMembers members, rest)
  | [], _, hne, _, _, _ => absurd rfl hne
  | [(name, v)], hexact, _, fuel + 1, rest, hfuel => by
    have hlength := length_renderObject_cons name [] (nodeOf v) []
    have hfuel' : (render (nodeOf v)).length < fuel := by
      have : (renderObject true [name] [nodeOf v]).length + 1 < fuel + 1 := hfuel
      omega
    show Rfc8259.parseMembers _ (renderObject true [name] [nodeOf v] ++ 0x7D :: rest) = _
    rw [renderObject_cons]
    exact Rfc8259.parseMembers_last (parseString_escape name _) (skipWs_render hexact.1 _)
      (parseValue_render hexact.1 hfuel' (endsNumber_cons (Or.inr (Or.inr rfl)) rest))
  | (name, v) :: (name', v') :: members, hexact, _, fuel + 1, rest, hfuel => by
    have hlength := length_renderObject_cons name (name' :: members.map Prod.fst) (nodeOf v)
      (nodeOf v' :: valuesOf members)
    have hcomma : renderObject false (name' :: members.map Prod.fst)
        (nodeOf v' :: valuesOf members) = 0x2C :: renderObject true (name' :: members.map Prod.fst)
          (nodeOf v' :: valuesOf members) := rfl
    rw [hcomma, List.length_cons] at hlength
    have hfuel' : (render (nodeOf v)).length < fuel ∧ (renderObject true
        (name' :: members.map Prod.fst) (nodeOf v' :: valuesOf members)).length + 1 < fuel := by
      have : (renderObject true (name :: name' :: members.map Prod.fst)
        (nodeOf v :: nodeOf v' :: valuesOf members)).length + 1 < fuel + 1 := hfuel
      omega
    show Rfc8259.parseMembers _ (renderObject true (name :: name' :: members.map Prod.fst)
      (nodeOf v :: nodeOf v' :: valuesOf members) ++ 0x7D :: rest) = _
    rw [renderObject_cons, hcomma]
    refine Rfc8259.parseMembers_more (parseString_escape name _) (skipWs_render hexact.1 _)
      (parseValue_render hexact.1 hfuel'.1 (endsNumber_cons (Or.inl rfl) _)) ?_
      (parseMembers_render hexact.2 (List.cons_ne_nil _ _) hfuel'.2)
    exact skipWs_renderObject name' _ _ _ _

end

/-! ## UTF-8 -/

mutual

/-- The strings and the names of the value are UTF-8. -/
def Utf8 : JsonValue → Prop
  | .string value => Rfc8259.IsUtf8 value
  | .array elements => Utf8Elements elements
  | .object members => Utf8Members members
  | _ => True

/-- Those of the elements of an array. -/
def Utf8Elements : List JsonValue → Prop
  | [] => True
  | v :: vs => Utf8 v ∧ Utf8Elements vs

/-- Those of the members of an object. -/
def Utf8Members : List (Bytes × JsonValue) → Prop
  | [] => True
  | (name, v) :: members => Rfc8259.IsUtf8 name ∧ Utf8 v ∧ Utf8Members members

end

theorem escapeByte_ascii {ch : UInt8} (hch : ch.toNat < 0x80) :
    ∀ b ∈ escapeByte ch, b.toNat < 0x80 := by
  have h : ∀ k < 0x80, ((escapeByte (UInt8.ofNat k)).all fun b => b.toNat < 0x80) = true := by
    decide
  have hall := h ch.toNat hch
  rw [UInt8.ofNat_toNat] at hall
  exact fun b hb => of_decide_eq_true (List.all_eq_true.mp hall b hb)

theorem escapeByte_of_le {ch : UInt8} (hch : 0x80 ≤ ch.toNat) : escapeByte ch = [ch] := by
  have hne : ∀ c : UInt8, c.toNat < 0x80 → ch ≠ c := by
    rintro c hc rfl
    omega
  have hlt : ¬ch < 0x20 := fun h => absurd (show ch.toNat < 0x20 from h) (by omega)
  unfold escapeByte
  rw [if_neg (hne _ (by decide)), if_neg (hne _ (by decide)), if_neg (hne _ (by decide)),
    if_neg (hne _ (by decide)), if_neg (hne _ (by decide)), if_neg (hne _ (by decide)),
    if_neg (hne _ (by decide)), if_neg hlt]

theorem escape_of_le {text : Bytes} (h : ∀ b ∈ text, 0x80 ≤ b.toNat) : escape text = text := by
  induction text with
  | nil => rfl
  | cons b bs ih =>
    show escapeByte b ++ escape bs = b :: bs
    rw [escapeByte_of_le (h b List.mem_cons_self),
      ih fun c hc => h c (List.mem_cons_of_mem _ hc), List.singleton_append]

theorem isUtf8_escape {text : Bytes} (h : Rfc8259.IsUtf8 text) : Rfc8259.IsUtf8 (escape text) := by
  obtain ⟨chars, rfl⟩ := h
  induction chars with
  | nil => exact Rfc8259.isUtf8_nil
  | cons c chars ih =>
    have hcons : escape ((c :: chars).flatMap String.utf8EncodeChar) =
        escape (String.utf8EncodeChar c) ++ escape (chars.flatMap String.utf8EncodeChar) := by
      rw [List.flatMap_cons]
      exact List.flatMap_append
    rw [hcons]
    refine Rfc8259.IsUtf8.append ?_ ih
    rcases Nat.lt_or_ge 0x7F c.val.toNat with hc | hc
    · rw [escape_of_le fun b hb => Rfc8259.le_of_mem_utf8EncodeChar hc hb]
      exact ⟨[c], by rw [List.flatMap_singleton]⟩
    · have hascii : String.utf8EncodeChar c = [UInt8.ofNat c.val.toNat] := by
        unfold String.utf8EncodeChar
        exact if_pos hc
      rw [hascii]
      refine Rfc8259.isUtf8_ascii fun b hb => ?_
      rw [escape, List.flatMap_singleton] at hb
      refine escapeByte_ascii ?_ b hb
      rw [UInt8.toNat_ofNat']
      omega

mutual

/-- The text of a value is UTF-8. -/
theorem isUtf8_render : ∀ {v : JsonValue}, v.Exact → Utf8 v → Rfc8259.IsUtf8 (render (nodeOf v))
  | .null, _, _ => Rfc8259.isUtf8_of_all rfl
  | .bool true, _, _ => Rfc8259.isUtf8_of_all rfl
  | .bool false, _, _ => Rfc8259.isUtf8_of_all rfl
  | .integer value, _, _ => Rfc8259.isUtf8_integerText value.1
  | .double _, hexact, _ => hexact.elim
  | .string _, _, h =>
    ((isUtf8_escape h).append (Rfc8259.isUtf8_of_all rfl)).cons (by decide)
  | .array _, hexact, h =>
    ((isUtf8_renderArray hexact h true).append (Rfc8259.isUtf8_of_all rfl)).cons
      (by decide)
  | .object _, hexact, h =>
    ((isUtf8_renderObject hexact h true).append (Rfc8259.isUtf8_of_all rfl)).cons
      (by decide)

theorem isUtf8_renderArray : ∀ {vs : List JsonValue}, JsonValue.ExactList vs → Utf8Elements vs →
    ∀ first, Rfc8259.IsUtf8 (renderArray first (nodesOf vs))
  | [], _, _, _ => Rfc8259.isUtf8_nil
  | _ :: _, hexact, h, first => by
    have hrest := (isUtf8_render hexact.1 h.1).append (isUtf8_renderArray hexact.2 h.2 false)
    cases first with
    | true => exact hrest
    | false => exact hrest.cons (by decide)

theorem isUtf8_renderObject : ∀ {members : List (Bytes × JsonValue)},
    JsonValue.ExactMembers members → Utf8Members members →
      ∀ first, Rfc8259.IsUtf8 (renderObject first (members.map Prod.fst) (valuesOf members))
  | [], _, _, _ => Rfc8259.isUtf8_nil
  | _ :: _, hexact, h, first => by
    have hrest := (isUtf8_render hexact.1 h.2.1).append
      (isUtf8_renderObject hexact.2 h.2.2 false)
    have hname := ((isUtf8_escape h.1).append
      ((hrest.cons (b := 0x3A) (by decide)).cons (b := 0x22) (by decide))).cons
      (b := 0x22) (by decide)
    cases first with
    | true => exact hname
    | false => exact hname.cons (by decide)

end

/-! ## Round trip -/

/-- The text of a value that was written. -/
theorem parse_render {v : JsonValue} (hexact : v.Exact) :
    Rfc8259.parse (render (nodeOf v)) = some (document v) := by
  have hend : Rfc8259.EndsNumber [] := fun b hb => absurd hb.symm (Option.some_ne_none b)
  have hws := skipWs_render hexact []
  have hvalue := parseValue_render hexact (Nat.lt_succ_self _) hend
  rw [List.append_nil] at hws hvalue
  unfold Rfc8259.parse
  rw [hws, hvalue]
  rfl

/-- **What is written is read back**: the events of a value without doubles, with strings in
UTF-8, are accepted, and what is written is a JSON text of that value. -/
theorem emit_denotes {v : JsonValue} (hexact : v.Exact) (hutf8 : Utf8 v) (w : Writer) :
    ∃ w', emit v .root w = some w' ∧
      ∃ d, Rfc8259.Denotes w'.str d ∧ ofDocument d = some v := by
  obtain ⟨w', hemit, hemitted⟩ := emit_spec hexact (show Ready w .root from trivial)
  refine ⟨w', hemit, document v, ?_, ofDocument_document hexact⟩
  have hroot : w'.root = nodeOf v := hemitted.root
  rw [Writer.str, hroot]
  exact ⟨isUtf8_render hexact hutf8, parse_render hexact⟩

/-- `{"a":[-12,null],"\"":"\n"}`. -/
def sample : JsonValue :=
  .object [([0x61], .array [.integer ⟨-12, by decide⟩, .null]), ([0x22], .string [0x0A])]

theorem emit_denotes_sample :
    (sample.Exact ∧ Utf8 sample) ∧ ∃ w', emit sample .root {} = some w' ∧
      ∃ d, Rfc8259.Denotes w'.str d ∧ ofDocument d = some sample := by
  have hexact : sample.Exact := ⟨⟨trivial, trivial, trivial⟩, trivial, trivial⟩
  have hutf8 : Utf8 sample :=
    ⟨Rfc8259.isUtf8_of_all rfl, ⟨trivial, trivial, trivial⟩,
      Rfc8259.isUtf8_of_all rfl, Rfc8259.isUtf8_of_all rfl, trivial⟩
  exact ⟨⟨hexact, hutf8⟩, emit_denotes hexact hutf8 {}⟩

/-! ## A text of values without doubles -/

mutual

theorem exact_of_allDoubles : ∀ {v : JsonValue}, v.AllDoubles (fun _ => false) = true → v.Exact
  | .null, _ => trivial
  | .bool _, _ => trivial
  | .integer _, _ => trivial
  | .double _, h => absurd h Bool.false_ne_true
  | .string _, _ => trivial
  | .array _, h => exactList_of_allDoublesList h
  | .object _, h => exactMembers_of_allDoublesMembers h

theorem exactList_of_allDoublesList : ∀ {vs : List JsonValue},
    JsonValue.AllDoublesList (fun _ => false) vs = true → JsonValue.ExactList vs
  | [], _ => trivial
  | _ :: _, h => by
    obtain ⟨hv, hvs⟩ := Bool.and_eq_true_iff.mp h
    exact ⟨exact_of_allDoubles hv, exactList_of_allDoublesList hvs⟩

theorem exactMembers_of_allDoublesMembers : ∀ {members : List (Bytes × JsonValue)},
    JsonValue.AllDoublesMembers (fun _ => false) members = true → JsonValue.ExactMembers members
  | [], _ => trivial
  | _ :: _, h => by
    obtain ⟨hv, hmembers⟩ := Bool.and_eq_true_iff.mp h
    exact ⟨exact_of_allDoubles hv, exactMembers_of_allDoublesMembers hmembers⟩

end

/-- The text of the writer, which has no doubles, and the parser of the grammar. -/
def plainText : JsonText where
  print v := if v.AllDoubles fun _ => false then some (render (nodeOf v)) else none
  parse text := (Rfc8259.parse text).bind ofDocument
  carries _ := false
  reread := id
  parse_print v := by
    split_ifs with hdoubles
    · have hexact := exact_of_allDoubles hdoubles
      rw [Option.bind_some, parse_render hexact, Option.bind_some, ofDocument_document hexact,
        JsonValue.mapDoubles_of_exact id hexact]
    · rfl
  parse_nil := rfl

end NekoProto.Json.TextWriter
