import NekoProto.Binary.TreeRead

/-!
# Documents

The Reader takes a framed document exactly when the bytes after the magic are the encoding of one
tree that fits (`root_node_iff`). With the emission and the reading of a tree this is the round
trip of a value through a Writer and a Reader (`roundTrip`).
-/

namespace NekoProto.Binary

open Outcome Segment

namespace Reader

variable {inp : Input} {s : State} {k : ℕ} {n : Node}

/-- What the constructor checks before it takes a buffer for a framed document. -/
structure Framed (inp : Input) : Prop where
  data : inp.isNull = false
  size : inp.size ≤ inp.limits.maxInputBytes
  magic : inp.data.take binaryMagic.length = binaryMagic

theorem init_framed (h : Framed inp) :
    init inp = {
      offset := binaryMagic.length
      remainingAllocation := inp.limits.maxTotalAllocatedBytes
      framed := true } := by
  simp [init, h.data, Nat.not_lt.mpr h.size, h.magic]

theorem framed_of_init (h : (init inp).framed = true) : Framed inp := by
  unfold init at h
  split_ifs at h with h₁ h₂ h₃
  · exact ⟨Bool.not_eq_true _ ▸ h₁, Nat.not_lt.mp h₂, h₃⟩

/-- Only a framed document has a root node. -/
theorem framed_of_root (h : Returns (root inp) (init inp) (.node k n) s) : Framed inp := by
  refine framed_of_init ?_
  by_contra hframed
  cases herror : (init inp).error with
  | some e => cases (root_error herror).symm.trans h
  | none =>
    rw [Returns, root_eq herror, if_neg hframed] at h
    cases h

/-- The document is the magic and the encoding of a tree that fits and that the budget pays for. -/
structure Holds (inp : Input) (w : Wire) : Prop where
  notNull : inp.isNull = false
  size_le : inp.size ≤ inp.limits.maxInputBytes
  data_eq : inp.data = binaryMagic ++ w.encode
  fits : w.Fits inp.limits 0
  charge_le : w.charge inp.abi ≤ inp.limits.maxTotalAllocatedBytes

/-- The state after the root is parsed. -/
def opened (inp : Input) (w : Wire) : State where
  offset := inp.size
  remainingAllocation := inp.limits.maxTotalAllocatedBytes - w.charge inp.abi
  framed := true
  parses := 1

theorem Holds.framed {w : Wire} (h : Holds inp w) : Framed inp := by
  refine ⟨h.notNull, h.size_le, ?_⟩
  rw [h.data_eq]
  exact List.take_left

theorem Holds.size_eq {w : Wire} (h : Holds inp w) :
    inp.size = binaryMagic.length + w.encode.length := by
  rw [Input.size, h.data_eq, List.length_append]

theorem Holds.stands {w : Wire} (h : Holds inp w) : At inp.data binaryMagic.length w.encode :=
  at_of_eq_append [] (by rw [h.data_eq, List.append_nil])

theorem init_lt (inp : Input) : (init inp).remainingAllocation < 2 ^ 64 := by
  rw [init_budget]
  exact inp.limits_lt.budget

/-- **Acceptance.** The root is a node and every byte is used exactly when the document holds the
encoding of a tree, whose layout that node is. -/
theorem root_node_iff :
    Returns (root inp) (init inp) (.node k n) s ∧ finish inp s = .ok () ↔
      ∃ w, Holds inp w ∧ k = 0 ∧ n = w.layout binaryMagic.length 0 ∧ s = opened inp w := by
  constructor
  · rintro ⟨hroot, hfinish⟩
    have hframed := framed_of_root hroot
    have hinit := init_framed hframed
    rw [Returns, root_framed (by rw [hinit])] at hroot
    obtain ⟨w, hw, hk, hn⟩ := (parseAt_node (init_lt inp) (Nat.zero_le _)).mp hroot
    have hstate := hw.state_eq
    have hcharge := hw.charge_le
    rw [hinit] at hstate hcharge hk
    have hend : binaryMagic.length + w.encode.length = inp.size := by
      rw [hstate] at hfinish
      by_contra hne
      simp only [finish, ne_eq, hne, not_false_eq_true, if_true, reduceCtorEq] at hfinish
    refine ⟨w, ⟨hframed.data, hframed.size, ?_, hw.fits, hcharge⟩, hk, hn, ?_⟩
    · rw [← hframed.magic]
      exact hw.stands.eq_append hend
    · rw [hstate, hend]
      rfl
  · rintro ⟨w, hw, rfl, rfl, rfl⟩
    have hinit := init_framed hw.framed
    refine ⟨?_, by simp [finish, opened]⟩
    rw [Returns, root_framed (by rw [hinit])]
    refine (parseAt_node (init_lt inp) (Nat.zero_le _)).mpr
      ⟨w, ⟨hw.fits, hw.stands, hw.size_eq.ge, ?_, ?_⟩, by rw [hinit], rfl⟩
    · rw [hinit]
      exact hw.charge_le
    · rw [hinit, opened, hw.size_eq]

end Reader

namespace Tree

open Reader

/-- The document of a value is the magic and the encoding of its tree. -/
theorem document_grown {limits : ParseLimits} (hlimits : limits.Sized) {t : Tree}
    (hwithin : t.wire.Within limits 0) :
    t.document.buffer = binaryMagic ++ t.wire.encode ∧
      (t.document.error = none ↔ t.wire.HashesOk) := by
  have hready : Parent.Ready .root {} := ⟨rfl, fun h => absurd rfl h⟩
  obtain ⟨-, hgrown⟩ := emit_grown hlimits t .root hwithin hready trivial
  refine ⟨hgrown.buffer, hgrown.error.trans ?_⟩
  simp [Parent.Collides, Writer.ensureDocumentHeader_error]

/-- **Round trip.** A value within the limits is written without error, its document is accepted,
and the accessors that match its shape give it back. -/
theorem roundTrip (t : Tree) (inp : Input) (hnames : t.NamesOk) (hnull : inp.isNull = false)
    (hdata : inp.data = t.document.buffer) (hsize : inp.size ≤ inp.limits.maxInputBytes)
    (hwithin : t.wire.Within inp.limits 0)
    (hbudget : t.wire.charge inp.abi + t.stringBytes ≤ inp.limits.maxTotalAllocatedBytes) :
    t.document.error = none ∧
      ∃ n s, Returns (root inp) (init inp) (.node 0 n) s ∧ finish inp s = .ok () ∧
        ∃ s', Returns (t.shape.readBack inp (.node 0 n)) s t s' ∧ finish inp s' = .ok () := by
  obtain ⟨hbuffer, herror⟩ := document_grown inp.limits_lt hwithin
  have hkeys := hnames.keysOk
  have hholds : Holds inp t.wire :=
    ⟨hnull, hsize, hdata.trans hbuffer, (Wire.fits_iff _ _).mpr ⟨hwithin, hkeys⟩, by omega⟩
  obtain ⟨hroot, hfinish⟩ := root_node_iff.mpr ⟨t.wire, hholds, rfl, rfl, rfl⟩
  refine ⟨herror.mpr hkeys.hashesOk, _, _, hroot, hfinish, ?_⟩
  have hreadable : Readable inp 0 binaryMagic.length t.stringBytes t.wire.encode
      (opened inp t.wire) :=
    ⟨⟨hnull, rfl⟩, fun _ hid => (List.not_mem_nil hid).elim, hholds.stands, hholds.size_eq.ge,
      Nat.le_sub_of_add_le (by omega)⟩
  obtain ⟨s', hread, hreads⟩ := readBack_layout t _ 0 _ hnames hreadable
  exact ⟨s', hread, hreads.finish.trans hfinish⟩

/-- An order: a field with a literal key, `id`, and one with a hashed key, `description`. -/
def order : Tree :=
  .object false [
    ([105, 100], .value (.arithmetic (.integer false .w32) 300)),
    ([100, 101, 115, 99, 114, 105, 112, 116, 105, 111, 110],
      .array [.null, .value (.string [104, 105]), .fixed true .w16 7])]

/-- The document of the order. -/
def orderInput : Input where
  data := order.document.buffer
  size_lt := by decide +kernel
  limits_lt := ParseLimits.sized_default

theorem roundTrip_order :
    order.document.error = none ∧
      ∃ n s, Returns (root orderInput) (init orderInput) (.node 0 n) s ∧
        finish orderInput s = .ok () ∧
        ∃ s', Returns (order.shape.readBack orderInput (.node 0 n)) s order s' ∧
          finish orderInput s' = .ok () := by
  have hhash : useHashedFieldId [100, 101, 115, 99, 114, 105, 112, 116, 105, 111, 110] = true := by
    decide +kernel
  have hliteral : useHashedFieldId [105, 100] = false := by decide +kernel
  refine roundTrip order orderInput ?_ rfl rfl (by decide +kernel) ?_ (by decide +kernel)
  · exact ⟨⟨by decide, by decide, fun _ => by decide +kernel⟩, trivial,
      ⟨trivial, trivial, trivial, trivial⟩, trivial⟩
  · simp [order, wire, wireMembers, wireList, memberKey, idKey, hhash, hliteral, Wire.Within,
      Wire.WithinMembers, Wire.WithinList, Key.Fits, BasicValue.wire, Arithmetic.fixedWire]
    decide

end Tree

end NekoProto.Binary
