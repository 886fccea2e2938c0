import NekoProto.Binary.RoundTrip
import Mathlib.Logic.Equiv.Nat

/-!
# Integers read as other types

1. The varint of an integer depends on its value and on the sign of its type, not on its width
   (`integerCode_eq`), and a type has the value exactly when the varint fits its width
   (`code_lt_iff`).
2. So an integer that was written as one type is read as any other type of the same sign that has
   the value, and reading it as any other integer type is an error (`integer_reads_as`).
-/

namespace NekoProto.Binary

open Outcome Segment Reader

/-! ## Values and codes -/

/-- The number that the bits of an integer type stand for. -/
def integerValue (signed : Bool) {n : ℕ} (bits : BitVec n) : ℤ :=
  if signed then bits.toInt else bits.toNat

/-- The number that `_writeValue` writes as a varint. -/
def integerCode (signed : Bool) {n : ℕ} (bits : BitVec n) : ℕ :=
  if signed then (zigzag bits).toNat else bits.toNat

theorem Width.bits_pos (w : Width) : 0 < w.bits := by cases w <;> decide

theorem integerValue_inj {signed : Bool} {n : ℕ} {u v : BitVec n} :
    integerValue signed u = integerValue signed v ↔ u = v := by
  cases signed with
  | true => exact BitVec.toInt_inj
  | false => exact Int.ofNat_inj.trans BitVec.toNat_inj

/-- Zigzag is the bijection of the integers with the natural numbers, in any width. -/
theorem toNat_zigzag_eq {n : ℕ} (hn : 0 < n) (v : BitVec n) :
    (zigzag v).toNat = Equiv.intEquivNat v.toInt := by
  have htwo := two_pow_eq hn
  have hlt := v.isLt
  rw [toNat_zigzag hn]
  by_cases h : v.toNat < 2 ^ (n - 1)
  · have hint : v.toInt = Int.ofNat v.toNat := BitVec.toInt_eq_toNat_of_lt (by omega)
    rw [if_pos h, hint]
    rfl
  · have hint : v.toInt = Int.negSucc (2 ^ n - v.toNat - 1) := by
      rw [BitVec.toInt_eq_toNat_cond, if_neg (by omega), Int.negSucc_eq]
      omega
    rw [if_neg h, hint]
    change _ = 2 * (2 ^ n - v.toNat - 1) + 1
    omega

/-- The code of a number of either sign. -/
def codeOf (signed : Bool) (value : ℤ) : ℕ :=
  if signed then Equiv.intEquivNat value else value.toNat

/-- **Codes do not depend on the width.** -/
theorem integerCode_eq (signed : Bool) {n : ℕ} (hn : 0 < n) (v : BitVec n) :
    integerCode signed v = codeOf signed (integerValue signed v) := by
  cases signed with
  | true => exact toNat_zigzag_eq hn v
  | false => rfl

theorem integerCode_lt (signed : Bool) {n : ℕ} (v : BitVec n) : integerCode signed v < 2 ^ n := by
  unfold integerCode
  split_ifs <;> exact BitVec.isLt _

theorem integerCode_injective {signed : Bool} {m n : ℕ} (hm : 0 < m) (hn : 0 < n) {u : BitVec m}
    {v : BitVec n} (h : integerCode signed u = integerCode signed v) :
    integerValue signed u = integerValue signed v := by
  rw [integerCode_eq signed hm, integerCode_eq signed hn] at h
  cases signed with
  | true => exact Equiv.intEquivNat.injective h
  | false => exact congrArg Int.ofNat h

/-- Every code of a width is the code of bits of that width. -/
theorem exists_integerCode (signed : Bool) {n code : ℕ} (hn : 0 < n) (h : code < 2 ^ n) :
    ∃ u : BitVec n, integerCode signed u = code := by
  have hinj : Function.Injective fun u : BitVec n =>
      (⟨integerCode signed u, integerCode_lt signed u⟩ : Fin (2 ^ n)) := by
    intro u v huv
    exact integerValue_inj.mp (integerCode_injective hn hn (Fin.mk.inj huv))
  have hcard : Function.Bijective fun i : Fin (2 ^ n) =>
      (⟨integerCode signed (BitVec.ofFin i), integerCode_lt signed _⟩ : Fin (2 ^ n)) :=
    Finite.injective_iff_bijective.mp fun i j hij => BitVec.ofFin.inj (hinj hij)
  obtain ⟨i, hi⟩ := hcard.surjective ⟨code, h⟩
  exact ⟨BitVec.ofFin i, Fin.mk.inj hi⟩

/-- A width has the value of an integer exactly when the code fits it. -/
theorem code_lt_iff (signed : Bool) {m n : ℕ} (hm : 0 < m) (hn : 0 < n) (v : BitVec n) :
    integerCode signed v < 2 ^ m ↔
      ∃ u : BitVec m, integerValue signed u = integerValue signed v := by
  constructor
  · intro h
    obtain ⟨u, hu⟩ := exists_integerCode signed hm h
    exact ⟨u, integerCode_injective hm hn hu⟩
  · rintro ⟨u, hu⟩
    rw [integerCode_eq signed hn, ← hu, ← integerCode_eq signed hm]
    exact integerCode_lt signed u

/-! ## Reading -/

variable {inp : Input} {s : State} {k pos depth : ℕ} {signed : Bool} {I : Width}
  {v : BitVec I.bits}

theorem integer_wire (signed : Bool) (v : BitVec I.bits) :
    (BasicValue.arithmetic (.integer signed I) v).wire = .integer signed (integerCode signed v) :=
  rfl

theorem integerTag_inj {sign : Bool} (h : integerTag sign = integerTag signed) : sign = signed := by
  cases sign <;> cases signed <;> first | rfl | cases h

/-- The varint of an integer that stands at an offset is read in every width that it fits. -/
theorem readUleb_code {bits code limit n next : ℕ} {t : State} (hbits : 0 < bits)
    (hat : At inp.data pos (Leb128.encode code)) (hlimit : limit ≤ inp.size)
    (h : Returns (readUleb inp bits pos limit) s (n, next) t) : code < 2 ^ bits := by
  obtain ⟨-, hn, ⟨rest, hrest⟩, -⟩ := (readUleb_returns hbits hlimit).mp h
  obtain ⟨rest', hrest'⟩ := hat
  obtain ⟨rfl, -⟩ := Leb128.encode_append_inj n (hrest.trans hrest'.symm)
  exact hn

/-- Reading an integer from a node has no fault. -/
theorem toBasicType_integer_failsOnly {sign : Bool} {J : Width} {n : Node}
    (hn : n.dataEnd ≤ inp.size) :
    FailsOnly IsError (toBasicType inp (.integer sign J) (.node k n)) s := by
  refine .bind ?_ fun _ t _ => ?_
  · refine .bind .get fun t u _ => ?_
    cases validate inp t (.node k n) with
    | none => exact .pure
    | some e => exact .throw trivial
  · refine .ite (fun _ => failsOnly_fail) fun _ => .bind (readUleb_failsOnly hn) ?_
    rintro ⟨code, next⟩ t -
    refine .bind (.bind .get fun t u _ => ?_) fun _ _ _ => ?_
    · exact .set
    · refine .ite (fun _ => .ite (fun _ => .ite (fun _ => failsOnly_fail) fun _ => ?_) fun _ => ?_)
        fun _ => .pure
      · exact .ite (fun _ => .pure) fun _ => .pure
      · exact .ite (fun _ => failsOnly_fail) fun _ => .pure

/-- An integer is read only as a type of its sign that it fits. -/
theorem toBasicType_integer_returns {sign : Bool} {J : Width} {code : ℕ} {u : BitVec J.bits}
    {t : State} (hat : At inp.data pos (Wire.integer signed code).encode)
    (hend : pos + (Wire.integer signed code).encode.length ≤ inp.size)
    (h : Returns (toBasicType inp (.integer sign J)
      (.node k ((Wire.integer signed code).layout pos depth))) s u t) :
    sign = signed ∧ code < 2 ^ J.bits := by
  simp only [Wire.encode, at_cons, List.length_cons] at hat hend
  obtain ⟨-, t₁, -, h⟩ := returns_bind.mp h
  obtain ⟨-, h⟩ | ⟨htag, h⟩ := returns_ite.mp h
  · exact absurd h typeError_returns
  · obtain ⟨⟨n, next⟩, t₂, hread, -⟩ := returns_bind.mp h
    refine ⟨?_, readUleb_code J.bits_pos hat.2 ?_ hread⟩
    · exact integerTag_inj (not_not.mp htag).symm
    · change pos + 1 + (Leb128.encode code).length ≤ inp.size
      omega

/-- What reading an integer gives as each type: its value where the type has its sign and the
value, and an error where it does not. -/
structure ReadsAs (inp : Input) (s : State) (handle : InputValue) (signed : Bool) (number : ℤ) :
    Prop where
  value : ∀ (J : Width) (u : BitVec J.bits), integerValue signed u = number →
    ∃ t, Returns (toBasicType inp (.integer signed J) handle) s u t
  refused : ∀ (sign : Bool) (J : Width),
    (sign = signed → ∀ u : BitVec J.bits, integerValue signed u ≠ number) →
    ∃ e t, toBasicType inp (.integer sign J) handle s = .error (.error e) t

/-- An integer whose varint stands in the buffer is read by its value. -/
theorem readsAs_layout (hlive : Live inp s) (hunread : Unread s k pos)
    (hat : At inp.data pos (BasicValue.arithmetic (.integer signed I) v).wire.encode)
    (hend : pos + (BasicValue.arithmetic (.integer signed I) v).wire.encode.length ≤ inp.size) :
    ReadsAs inp s
      (.node k ((BasicValue.arithmetic (.integer signed I) v).wire.layout pos depth)) signed
      (integerValue signed v) := by
  constructor
  · intro J u hu
    have hcode : integerCode signed v = integerCode signed u := by
      rw [integerCode_eq signed I.bits_pos, integerCode_eq signed J.bits_pos, hu]
    rw [integer_wire, hcode] at hat hend ⊢
    exact ⟨_, toBasicType_layout hlive hunread hat hend⟩
  · intro sign J hnone
    rw [integer_wire] at hat hend ⊢
    have hdata : ((Wire.integer signed (integerCode signed v)).layout pos depth).dataEnd ≤
        inp.size := by
      simp only [Wire.encode, List.length_cons] at hend
      change pos + 1 + (Leb128.encode (integerCode signed v)).length ≤ inp.size
      omega
    obtain ⟨u, t, h⟩ | ⟨stop, t, h, hstop⟩ :=
      (@toBasicType_integer_failsOnly inp s k sign J _ hdata).cases
    · obtain ⟨hsign, hcode⟩ := toBasicType_integer_returns hat hend h
      obtain ⟨u', hu'⟩ := (code_lt_iff signed J.bits_pos I.bits_pos v).mp hcode
      exact absurd hu' (hnone hsign u')
    · cases stop with
      | error e => exact ⟨e, t, h⟩
      | _ => exact hstop.elim

/-- The value that a Writer appends stands in every buffer that starts as the Writer's. -/
theorem writeValue_stands {w : Writer} (value : BasicValue) (hvalue : value.Sized) {rest : Bytes}
    (hdata : inp.data = (w.writeValue value).buffer ++ rest) :
    At inp.data w.ensureDocumentHeader.buffer.length value.wire.encode ∧
      w.ensureDocumentHeader.buffer.length + value.wire.encode.length ≤ inp.size := by
  rw [Writer.writeValue_eq w hvalue] at hdata
  have happend : inp.data =
      w.ensureDocumentHeader.buffer ++ (value.wire.encode ++ rest) := by
    rw [hdata, ← List.append_assoc]
    rfl
  refine ⟨at_of_eq_append rest happend, ?_⟩
  rw [Input.size, happend, List.length_append, List.length_append]
  omega

/-- A parse of the varint of an integer gives the handle of its node and consumes nothing. -/
theorem parseAt_integer (hmax : depth ≤ inp.limits.maxDepth) (hdepth : depth ≤ pos)
    (hs : s.remainingAllocation < 2 ^ 64) (hbudget : inp.abi.nodeSize ≤ s.remainingAllocation)
    (hat : At inp.data pos (BasicValue.arithmetic (.integer signed I) v).wire.encode)
    (hend : pos + (BasicValue.arithmetic (.integer signed I) v).wire.encode.length ≤ inp.size) :
    ∃ t, Returns (parseAt inp pos depth) s (.node s.parses
        ((BasicValue.arithmetic (.integer signed I) v).wire.layout pos depth)) t ∧
      t.error = s.error ∧ t.consumed = s.consumed := by
  have hfits : (BasicValue.arithmetic (.integer signed I) v).wire.Fits inp.limits depth :=
    ⟨hmax, (integerCode_lt signed v).trans_le (Nat.pow_le_pow_right (by omega) I.bits_le)⟩
  exact ⟨_, (parseAt_node hs hdepth).mpr ⟨_, ⟨hfits, hat, hend, hbudget, rfl⟩, rfl, rfl⟩, rfl, rfl⟩

/-- **Integer widths.** Where a Writer has appended an integer, behind anything and before
anything, the Reader parses a handle. In every state where it is unread the handle gives the
integer as the type it was written as and as every type of the same sign that has its value, and
an error as every other integer type. -/
theorem integer_reads_as (signed : Bool) (I : Width) (v : BitVec I.bits) (w : Writer)
    (rest : Bytes) (inp : Input) (depth : ℕ) (s : State)
    (hdata : inp.data = (w.writeValue (.arithmetic (.integer signed I) v)).buffer ++ rest)
    (hmax : depth ≤ inp.limits.maxDepth) (hdepth : depth ≤ w.ensureDocumentHeader.buffer.length)
    (hs : s.remainingAllocation < 2 ^ 64) (hbudget : inp.abi.nodeSize ≤ s.remainingAllocation) :
    ∃ handle t, Returns (parseAt inp w.ensureDocumentHeader.buffer.length depth) s handle t ∧
      t.error = s.error ∧ t.consumed = s.consumed ∧
      ∀ s', Live inp s' → Unread s' s.parses w.ensureDocumentHeader.buffer.length →
        (∃ t', Returns (toBasicType inp (.integer signed I) handle) s' v t') ∧
        ReadsAs inp s' handle signed (integerValue signed v) := by
  obtain ⟨hat, hend⟩ := writeValue_stands (.arithmetic (.integer signed I) v) trivial hdata
  obtain ⟨t, ht, herror, hconsumed⟩ := parseAt_integer hmax hdepth hs hbudget hat hend
  refine ⟨_, t, ht, herror, hconsumed, fun s' hlive hunread => ?_⟩
  have hreads := @readsAs_layout inp s' _ _ depth _ _ _ hlive hunread hat hend
  exact ⟨hreads.value I v rfl, hreads⟩

/-- The document of the least `int8_t`. -/
def leastInput : Input where
  data := (({} : Writer).writeValue (.arithmetic (.integer true .w8) (-128))).buffer
  size_lt := by decide +kernel
  limits_lt := ParseLimits.sized_default

/-- The least `int8_t` is read as such and as `int16_t`, and is an error as `uint8_t`. -/
theorem integer_reads_as_least :
    ∃ handle t, Returns (parseAt leastInput 3 0) (init leastInput) handle t ∧
      (∃ t', Returns (toBasicType leastInput (.integer true .w8) handle) t (-128) t') ∧
      (∃ t', Returns (toBasicType leastInput (.integer true .w16) handle) t (-128) t') ∧
      ∃ e t', toBasicType leastInput (.integer false .w8) handle t = .error (.error e) t' := by
  obtain ⟨handle, t, ht, herror, hconsumed, hreads⟩ := integer_reads_as true .w8 (-128) {} []
    leastInput 0 (init leastInput) rfl (by decide) (Nat.zero_le _) (by decide +kernel)
    (by decide +kernel)
  have hunread : Unread t 0 3 := by
    unfold Unread
    rw [hconsumed]
    decide +kernel
  obtain ⟨hsame, hother⟩ := hreads t ⟨rfl, herror.trans (by decide +kernel)⟩ hunread
  exact ⟨handle, t, ht, hsame, hother.value .w16 (-128) (by decide +kernel),
    hother.refused false .w8 (fun h => absurd h (by decide))⟩

end NekoProto.Binary
