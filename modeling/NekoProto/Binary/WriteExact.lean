import NekoProto.Binary.Wire
import NekoProto.Binary.Writer

/-!
# What the Writer emits

Every addition through a parent appends the key of the parent and the encoding of a tree of the
grammar (`addValue_eq` and its siblings), counts in the parent, and reports an error only when the
key collides with an earlier one.
-/

namespace NekoProto.Binary

/-! ## Varints -/

namespace Writer

@[simp] theorem appendBytes_nil (w : Writer) : w.appendBytes [] = w := by
  simp [appendBytes]

@[simp] theorem appendBytes_append (w : Writer) (as bs : Bytes) :
    (w.appendBytes as).appendBytes bs = w.appendBytes (as ++ bs) := by
  simp [appendBytes]

theorem pushByte_eq (w : Writer) (byte : UInt8) : w.pushByte byte = w.appendBytes [byte] := rfl

theorem digit_eq (value : UInt64) : (value &&& 0x7F).toUInt8 = UInt8.ofNat (value.toNat % 128) := by
  apply UInt8.toNat_inj.mp
  rw [UInt64.toNat_toUInt8, UInt64.toNat_and]
  change (value.toNat &&& 127) % 256 = _
  rw [show value.toNat &&& 127 = value.toNat % 128 from Nat.and_two_pow_sub_one_eq_mod _ 7,
    Leb128.toNat_digit (by omega), Nat.mod_eq_of_lt (by omega)]

theorem more_eq {d : ℕ} (h : d < 128) : UInt8.ofNat d ||| 0x80 = UInt8.ofNat (d + 128) := by
  have hbits : ∀ n < 128, n ||| 128 = n + 128 := by decide +kernel
  apply UInt8.toNat_inj.mp
  rw [UInt8.toNat_or, Leb128.toNat_digit (by omega), Leb128.toNat_digit (by omega)]
  exact hbits d h

theorem shift_eq (value : UInt64) : (value >>> 7).toNat = value.toNat / 128 := by
  rw [UInt64.toNat_shiftRight]
  exact Nat.shiftRight_eq_div_pow _ _

/-- The loop writes the minimal encoding of what is left of the value. -/
theorem writeUlebLoop_eq (fuel : ℕ) : ∀ {value : UInt64} {w : Writer},
    value.toNat < 128 ^ (fuel + 1) →
    writeUlebLoop (fuel + 1) value w = w.appendBytes (Leb128.encode value.toNat) := by
  induction fuel with
  | zero =>
    intro value w h
    have hrest : value >>> 7 = 0 := UInt64.toNat_inj.mp (by rw [shift_eq]; change _ = 0; omega)
    simp only [writeUlebLoop, hrest, ne_eq, not_true_eq_false, if_false, digit_eq]
    rw [Leb128.encode_of_lt (by omega), Nat.mod_eq_of_lt (by omega)]
    rfl
  | succ fuel ih =>
    intro value w h
    rw [writeUlebLoop]
    by_cases hlast : value.toNat < 128
    · have hrest : value >>> 7 = 0 := UInt64.toNat_inj.mp (by rw [shift_eq]; change _ = 0; omega)
      simp only [hrest, ne_eq, not_true_eq_false, if_false, digit_eq]
      rw [Leb128.encode_of_lt hlast, Nat.mod_eq_of_lt hlast]
      rfl
    · have hrest : value >>> 7 ≠ 0 := by
        intro h0
        have := congrArg UInt64.toNat h0
        rw [shift_eq] at this
        change _ = 0 at this
        omega
      have hdiv : (value >>> 7).toNat < 128 ^ (fuel + 1) := by
        rw [shift_eq]
        exact Nat.div_lt_of_lt_mul (by rw [Nat.mul_comm]; exact h)
      simp only [if_pos hrest, digit_eq, more_eq (Nat.mod_lt value.toNat (by omega : 0 < 128))]
      rw [ih hdiv, pushByte_eq, appendBytes_append, shift_eq,
        Leb128.encode_of_le (Nat.not_lt.mp hlast)]
      rfl

/-- The Writer writes minimal varints. -/
theorem writeUleb128_eq (w : Writer) (value : UInt64) :
    w.writeUleb128 value = w.appendBytes (Leb128.encode value.toNat) :=
  writeUlebLoop_eq 63 (lt_of_lt_of_le value.toNat_lt (by norm_num))

theorem writeUleb128_ofNat (w : Writer) {n : ℕ} (h : n < 2 ^ 64) :
    w.writeUleb128 (UInt64.ofNat n) = w.appendBytes (Leb128.encode n) := by
  rw [writeUleb128_eq, UInt64.toNat_ofNat', Nat.mod_eq_of_lt h]

/-! ## Values -/

theorem ensureDocumentHeader_error (w : Writer) : w.ensureDocumentHeader.error = w.error := by
  unfold ensureDocumentHeader
  split_ifs <;> rfl

/-- The header and then the bytes. -/
def put (bytes : Bytes) (w : Writer) : Writer := w.ensureDocumentHeader.appendBytes bytes

@[simp] theorem put_error (w : Writer) (bytes : Bytes) : (w.put bytes).error = w.error :=
  ensureDocumentHeader_error w

end Writer

/-- The tree of a value in `_writeValue`. -/
def BasicValue.wire : BasicValue → Wire
  | string bytes => .string bytes
  | arithmetic .bool value => .bool value
  | arithmetic (.integer signed _) value =>
    .integer signed (if signed then (zigzag value).toNat else value.toNat)
  | arithmetic .float value => .fixed .float32 (Arithmetic.float.bytes value)
  | arithmetic .double value => .fixed .float64 (Arithmetic.double.bytes value)

/-- The tree of a value in `_writeFixed`. -/
def Arithmetic.fixedWire : (T : Arithmetic) → T.Value → Wire
  | .bool, value => .bool value
  | .integer signed w, value =>
    .fixed (fixedTag signed w) ((Arithmetic.integer signed w).bytes value)
  | .float, value => .fixed .float32 (Arithmetic.float.bytes value)
  | .double, value => .fixed .float64 (Arithmetic.double.bytes value)

/-- The size of a string is a `size_t`. -/
def BasicValue.Sized : BasicValue → Prop
  | string bytes => bytes.length < 2 ^ 64
  | arithmetic _ _ => True

theorem Width.bits_le (w : Width) : w.bits ≤ 64 := by cases w <;> decide

theorem Width.toNat_lt {w : Width} (value : BitVec w.bits) : value.toNat < 2 ^ 64 :=
  lt_of_lt_of_le value.isLt (Nat.pow_le_pow_right (by omega) w.bits_le)

namespace Writer

theorem writeValue_eq (w : Writer) {value : BasicValue} (h : value.Sized) :
    w.writeValue value = w.put value.wire.encode := by
  unfold put
  match value, h with
  | .string bytes, h =>
    simp only [writeValue, pushByte_eq, writeUleb128_ofNat _ h, appendBytes_append,
      BasicValue.wire, Wire.encode, List.cons_append, List.nil_append]
  | .arithmetic .bool value, _ => cases value <;> rfl
  | .arithmetic (.integer true width) value, _ =>
    simp only [writeValue, pushByte_eq, writeUleb128_ofNat _ (Width.toNat_lt _),
      appendBytes_append, BasicValue.wire, Wire.encode, integerTag, if_true, List.singleton_append]
  | .arithmetic (.integer false width) value, _ =>
    simp only [writeValue, pushByte_eq, writeUleb128_ofNat _ (Width.toNat_lt _),
      appendBytes_append, BasicValue.wire, Wire.encode, integerTag, Bool.false_eq_true, if_false,
      List.singleton_append]
  | .arithmetic .float value, _ =>
    simp only [writeValue, writeFloating, pushByte_eq, appendBytes_append, BasicValue.wire,
      Wire.encode, List.singleton_append]
  | .arithmetic .double value, _ =>
    simp only [writeValue, writeFloating, pushByte_eq, appendBytes_append, BasicValue.wire,
      Wire.encode, List.singleton_append]

theorem writeFixed_eq (w : Writer) (T : Arithmetic) (value : T.Value) :
    w.writeFixed T value T.size = w.put (T.fixedWire value).encode := by
  unfold put
  match T, value with
  | .bool, value => cases value <;> rfl
  | .integer signed width, value =>
    simp only [writeFixed, ne_eq, not_true_eq_false, if_false, writeRawFixed, pushByte_eq,
      appendBytes_append, Arithmetic.fixedWire, Wire.encode, List.singleton_append]
  | .float, value =>
    simp only [writeFixed, ne_eq, not_true_eq_false, if_false, writeFloating, pushByte_eq,
      appendBytes_append, Arithmetic.fixedWire, Wire.encode, List.singleton_append]
  | .double, value =>
    simp only [writeFixed, ne_eq, not_true_eq_false, if_false, writeFloating, pushByte_eq,
      appendBytes_append, Arithmetic.fixedWire, Wire.encode, List.singleton_append]

theorem writeContainerHeader_eq (w : Writer) (tag : ValueTag) {size : ℕ} (h : size < 2 ^ 64) :
    w.writeContainerHeader tag size = w.put (tag.toByte :: Leb128.encode size) := by
  simp only [writeContainerHeader, put, pushByte_eq, writeUleb128_ofNat _ h, appendBytes_append,
    List.singleton_append]

end Writer

/-! ## Keys and parents -/

/-- The key of a member of an `IdObject`, as the Writer chooses it. -/
def idKey (name : Bytes) : Key :=
  if useHashedFieldId name then .hash (fieldId name) else .literal name

/-- The key of a member, in either kind of object. -/
def memberKey (named : Bool) (name : Bytes) : Key :=
  if named then .literal name else idKey name

namespace Parent

/-- The key that an addition writes. -/
def keyBytes : Parent → Bytes
  | root => []
  | array _ => []
  | object name _ => (Key.literal name).encode true
  | idObject name _ => (idKey name).encode false

/-- The ids of an open `IdObject` after a key. -/
def remember (ids : List UInt32) : Key → List UInt32
  | .literal _ => ids
  | .hash id => if id ∈ ids then ids else id :: ids

/-- The parent after an addition. -/
def advance : Parent → Parent
  | root => root
  | array scope => array scope.increment
  | object name scope => object name scope.increment
  | idObject name scope =>
    idObject name { scope.increment with ids := remember scope.ids (idKey name) }

/-- Whether a key is a hash that was there before. -/
def Repeats (ids : List UInt32) : Key → Prop
  | .literal _ => False
  | .hash id => id ∈ ids

instance (ids : List UInt32) : DecidablePred (Repeats ids)
  | .literal _ => isFalse (fun h => h)
  | .hash id => inferInstanceAs (Decidable (id ∈ ids))

/-- Whether an addition collides with an earlier hash. -/
def Collides : Parent → Prop
  | idObject name scope => Repeats scope.ids (idKey name)
  | _ => False

instance : DecidablePred Collides
  | root => isFalse (fun h => h)
  | array _ => isFalse (fun h => h)
  | object _ _ => isFalse (fun h => h)
  | idObject name scope => inferInstanceAs (Decidable (Repeats scope.ids (idKey name)))

/-- The error of a collision. -/
def mark (parent : Parent) (w : Writer) : Writer :=
  if parent.Collides then
    w.setError .invalidField "Reflected binary object contains colliding hashed field ids"
  else w

/-- The size of the name is a `size_t`, and so is the key of a literal one. -/
def Sized : Parent → Prop
  | object name _ => name.length < 2 ^ 64
  | idObject name _ => useHashedFieldId name = false → 2 * name.length < 2 ^ 64
  | _ => True

/-- The Writer is inside a framed document, or about to begin one. -/
structure Ready (parent : Parent) (w : Writer) : Prop where
  framed : w.rawRoot = false
  started : parent ≠ root → w.documentStarted = true

end Parent

namespace Writer

theorem beginNamedField_eq (w : Writer) {name : Bytes} (scope : Scope .namedObject)
    (h : name.length < 2 ^ 64) :
    w.beginNamedField name scope =
      (scope.increment, w.appendBytes ((Key.literal name).encode true)) := by
  simp only [beginNamedField, writeUleb128_ofNat _ h, appendBytes_append, Key.encode, if_true]

theorem hashedKey_toNat (id : UInt32) :
    ((id.toUInt64 <<< 1) ||| 1).toNat = 2 * id.toNat + 1 := by
  have hid := id.toNat_lt
  rw [UInt64.toNat_or, UInt64.toNat_shiftLeft, UInt32.toNat_toUInt64]
  change id.toNat <<< 1 % 2 ^ 64 ||| 1 = _
  rw [Nat.shiftLeft_eq, Nat.mod_eq_of_lt (by omega), ← Nat.shiftLeft_eq,
    ← Nat.shiftLeft_add_eq_or_of_lt (by norm_num : 1 < 2 ^ 1), Nat.shiftLeft_eq]
  omega

theorem namedKey_toNat {n : ℕ} (h : 2 * n < 2 ^ 64) : (UInt64.ofNat n <<< 1).toNat = 2 * n := by
  rw [UInt64.toNat_shiftLeft, UInt64.toNat_ofNat', Nat.mod_eq_of_lt (by omega : n < 2 ^ 64)]
  change n <<< 1 % 2 ^ 64 = _
  rw [Nat.shiftLeft_eq, Nat.mod_eq_of_lt (by omega)]
  omega

theorem beginIdField_eq (w : Writer) {name : Bytes} (scope : Scope .idObject)
    (h : useHashedFieldId name = false → 2 * name.length < 2 ^ 64) :
    w.beginIdField name scope =
      ({ scope.increment with ids := Parent.remember scope.ids (idKey name) },
        ((Parent.idObject name scope).mark w).appendBytes ((idKey name).encode false)) := by
  unfold beginIdField Parent.mark
  by_cases hhash : useHashedFieldId name = true
  · have hkey : idKey name = .hash (fieldId name) := if_pos hhash
    rw [if_neg (by simp [hhash])]
    simp only [writeUleb128_eq, hashedKey_toNat, hkey, Parent.Collides, Parent.Repeats,
      Parent.remember, Key.encode, Scope.rememberId, Scope.increment]
    by_cases hid : fieldId name ∈ scope.ids
    · simp [hid]
    · simp [hid]
  · have hkey : idKey name = .literal name := if_neg hhash
    rw [if_pos hhash]
    simp only [writeUleb128_eq, namedKey_toNat (h (by simpa using hhash)), appendBytes_append, hkey,
      Parent.Collides, Parent.Repeats, Parent.remember, Key.encode, Bool.false_eq_true, if_false,
      Scope.increment]

theorem put_of_started {w : Writer} (bytes : Bytes) (h : w.documentStarted = true) :
    w.put bytes = w.appendBytes bytes := by
  simp [put, ensureDocumentHeader, h]

end Writer

namespace Parent

@[simp] theorem mark_started (parent : Parent) (w : Writer) :
    (parent.mark w).documentStarted = w.documentStarted := by
  unfold mark Writer.setError
  split_ifs
  · split <;> rfl
  · rfl

@[simp] theorem mark_rawRoot (parent : Parent) (w : Writer) :
    (parent.mark w).rawRoot = w.rawRoot := by
  unfold mark Writer.setError
  split_ifs
  · split <;> rfl
  · rfl

variable {parent : Parent} {w : Writer}

/-- The Writer after an addition: the collision, if there is one, then the key and the value. -/
def added (parent : Parent) (bytes : Bytes) (w : Writer) : Writer :=
  (parent.mark w).put (parent.keyBytes ++ bytes)

@[simp] theorem added_root (bytes : Bytes) : root.added bytes w = w.put bytes := by
  simp [added, mark, Collides, keyBytes]

@[simp] theorem added_array (scope : Scope .array) (bytes : Bytes) :
    (array scope).added bytes w = w.put bytes := by
  simp [added, mark, Collides, keyBytes]

theorem added_object {name : Bytes} {scope : Scope .namedObject}
    (hstarted : w.documentStarted = true) (bytes : Bytes) :
    (object name scope).added bytes w =
      (w.appendBytes ((Key.literal name).encode true)).put bytes := by
  rw [Writer.put_of_started _ (by exact hstarted), Writer.appendBytes_append, added,
    Writer.put_of_started _ (by rw [mark_started]; exact hstarted)]
  simp [mark, Collides, keyBytes]

theorem added_idObject {name : Bytes} {scope : Scope .idObject}
    (hstarted : w.documentStarted = true) (bytes : Bytes) :
    (idObject name scope).added bytes w =
      (((idObject name scope).mark w).appendBytes ((idKey name).encode false)).put bytes := by
  rw [Writer.put_of_started _ (by exact (mark_started _ w).trans hstarted),
    Writer.appendBytes_append, added,
    Writer.put_of_started _ (by rw [mark_started]; exact hstarted)]
  rfl

theorem addNull_eq (hready : parent.Ready w) (hsized : parent.Sized) :
    parent.addNull w = (parent.advance, parent.added Wire.null.encode w) := by
  cases parent with
  | root => simp [addNull, Writer.nullAsRoot, hready.framed, advance, Writer.pushByte_eq,
      Writer.put, Wire.encode]
  | array scope => simp [addNull, Writer.addNullToArray, advance, Writer.pushByte_eq,
      Writer.put, Wire.encode]
  | object name scope =>
    have hstarted := hready.started (by simp)
    rw [added_object hstarted, Writer.put_of_started _ (by exact hstarted)]
    simp [addNull, Writer.addNullToObject, Writer.beginNamedField_eq w scope hsized, advance,
      Writer.pushByte_eq, Wire.encode]
  | idObject name scope =>
    have hstarted := hready.started (by simp)
    rw [added_idObject hstarted,
      Writer.put_of_started _ (by exact (mark_started _ w).trans hstarted)]
    simp [addNull, Writer.addNullToIdObject, Writer.beginIdField_eq w scope hsized, advance,
      Writer.pushByte_eq, Wire.encode]

theorem addValue_eq (hready : parent.Ready w) (hsized : parent.Sized) {value : BasicValue}
    (hvalue : value.Sized) :
    parent.addValue value w = (parent.advance, parent.added value.wire.encode w) := by
  cases parent with
  | root => simp [addValue, Writer.valueAsRoot, hready.framed, advance,
      Writer.writeValue_eq _ hvalue]
  | array scope => simp [addValue, Writer.addValueToArray, advance, Writer.writeValue_eq _ hvalue]
  | object name scope =>
    rw [added_object (hready.started (by simp))]
    simp [addValue, Writer.addValueToObject, Writer.beginNamedField_eq w scope hsized, advance,
      Writer.writeValue_eq _ hvalue]
  | idObject name scope =>
    rw [added_idObject (hready.started (by simp))]
    simp [addValue, Writer.addValueToIdObject, Writer.beginIdField_eq w scope hsized, advance,
      Writer.writeValue_eq _ hvalue]

theorem addFixedValue_eq (hready : parent.Ready w) (hsized : parent.Sized) (T : Arithmetic)
    (value : T.Value) :
    parent.addFixedValue T value T.size w =
      (parent.advance, parent.added (T.fixedWire value).encode w) := by
  cases parent with
  | root => simp [addFixedValue, Writer.fixedValueAsRoot, hready.framed, advance,
      Writer.writeFixed_eq]
  | array scope => simp [addFixedValue, Writer.addFixedValueToArray, advance, Writer.writeFixed_eq]
  | object name scope =>
    rw [added_object (hready.started (by simp))]
    simp [addFixedValue, Writer.addFixedValueToObject, Writer.beginNamedField_eq w scope hsized,
      advance, Writer.writeFixed_eq]
  | idObject name scope =>
    rw [added_idObject (hready.started (by simp))]
    simp [addFixedValue, Writer.addFixedValueToIdObject, Writer.beginIdField_eq w scope hsized,
      advance, Writer.writeFixed_eq]

/-- What `addArray`, `addObject` and `addIdObject` have in common. -/
def addContainer (kind : ContainerKind) (size : ℕ) (w : Writer) :
    Parent → Scope kind × Parent × Writer
  | root => ((w.containerAsRoot kind size).1, root, (w.containerAsRoot kind size).2)
  | array scope => after array (w.addContainerToArray kind size scope)
  | object name scope => after (object name) (w.addContainerToObject kind name size scope)
  | idObject name scope => after (idObject name) (w.addContainerToIdObject kind name size scope)

theorem addContainer_eq (kind : ContainerKind) {size : ℕ} (hready : parent.Ready w)
    (hsized : parent.Sized) (hsize : size < 2 ^ 64) :
    parent.addContainer kind size w = ({ expected := size }, parent.advance,
      parent.added (kind.tag.toByte :: Leb128.encode size) w) := by
  have hheader (w : Writer) := w.writeContainerHeader_eq kind.tag hsize
  cases parent with
  | root => simp [addContainer, Writer.containerAsRoot, hheader, advance]
  | array scope => simp [addContainer, Writer.addContainerToArray, hheader, advance, after]
  | object name scope =>
    rw [added_object (hready.started (by simp))]
    simp [addContainer, Writer.addContainerToObject, Writer.beginNamedField_eq w scope hsized,
      hheader, advance, after]
  | idObject name scope =>
    rw [added_idObject (hready.started (by simp))]
    simp [addContainer, Writer.addContainerToIdObject, Writer.beginIdField_eq w scope hsized,
      hheader, advance, after]

theorem addArray_eq (parent : Parent) (size : ℕ) (w : Writer) :
    parent.addArray size w = parent.addContainer .array size w := by
  cases parent <;> rfl

theorem addObject_eq (parent : Parent) (size : ℕ) (w : Writer) :
    parent.addObject size w = parent.addContainer .namedObject size w := by
  cases parent <;> rfl

theorem addIdObject_eq (parent : Parent) (size : ℕ) (w : Writer) :
    parent.addIdObject size w = parent.addContainer .idObject size w := by
  cases parent <;> rfl

end Parent

end NekoProto.Binary
