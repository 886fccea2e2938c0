import NekoProto.Binary.RoundTrip

/-!
# The encoding is prefix-free

No encoding of a framed value is a proper prefix of another, whatever comes after them
(`encode_append_inj`): the first byte gives the kind of the value, and every length and count
stands before what it counts. So a document that is the encoding of a tree is accepted only as
that tree (`holds_of_root`).
-/

namespace NekoProto.Binary

namespace Key

variable {limits limits' : ParseLimits} {named : Bool} {k k' : Key} {as bs : Bytes}

/-- The key that stands at the front is determined. -/
theorem encode_append_inj (h : k.Fits limits named) (h' : k'.Fits limits' named)
    (heq : k.encode named ++ as = k'.encode named ++ bs) : k = k' ∧ as = bs := by
  cases named with
  | true =>
    cases k with
    | hash i => cases h
    | literal n =>
      cases k' with
      | hash i => cases h'
      | literal n' =>
        simp only [encode, if_true, List.append_assoc] at heq
        obtain ⟨hlen, heq⟩ := Leb128.encode_append_inj _ heq
        obtain ⟨rfl, rfl⟩ := List.append_inj heq hlen
        exact ⟨rfl, rfl⟩
  | false =>
    cases k with
    | literal n =>
      cases k' with
      | literal n' =>
        simp only [encode, Bool.false_eq_true, if_false, List.append_assoc] at heq
        obtain ⟨hlen, heq⟩ := Leb128.encode_append_inj _ heq
        obtain ⟨rfl, rfl⟩ := List.append_inj heq (by omega)
        exact ⟨rfl, rfl⟩
      | hash i =>
        simp only [encode, Bool.false_eq_true, if_false, List.append_assoc] at heq
        obtain ⟨hlen, -⟩ := Leb128.encode_append_inj _ heq
        omega
    | hash i =>
      cases k' with
      | literal n' =>
        simp only [encode, Bool.false_eq_true, if_false, List.append_assoc] at heq
        obtain ⟨hlen, -⟩ := Leb128.encode_append_inj _ heq
        omega
      | hash i' =>
        obtain ⟨hid, rfl⟩ := Leb128.encode_append_inj _ heq
        obtain rfl : i = i' := UInt32.toNat_inj.mp (by omega)
        exact ⟨rfl, rfl⟩

end Key

namespace Wire

variable {limits limits' : ParseLimits}

/-- The values with a given tag. -/
def OfTag (w : Wire) : ValueTag → Prop
  | .null => w = .null
  | .false => w = .bool false
  | .true => w = .bool true
  | .signedInteger => ∃ value, w = .integer true value
  | .unsignedInteger => ∃ value, w = .integer false value
  | .string => ∃ bytes, w = .string bytes
  | .array => ∃ elements, w = .array elements
  | .namedObject => ∃ members, w = .object true members
  | .idObject => ∃ members, w = .object false members
  | tag => ∃ payload, w = .fixed tag payload

theorem ofTag {w : Wire} {depth : ℕ} (h : w.Within limits depth) : w.OfTag w.tag := by
  cases w with
  | null => rfl
  | bool value => cases value <;> rfl
  | integer signed value => cases signed <;> exact ⟨value, rfl⟩
  | fixed tag payload =>
    obtain ⟨-, hwidth, -⟩ := h
    cases tag <;> first | exact ⟨payload, rfl⟩ | exact absurd rfl hwidth
  | string bytes => exact ⟨bytes, rfl⟩
  | array elements => exact ⟨elements, rfl⟩
  | object named members => cases named <;> exact ⟨members, rfl⟩

theorem ofTag_fixed {w : Wire} {tag : ValueTag} (hwidth : tag.fixedWidth ≠ 0) (h : w.OfTag tag) :
    ∃ payload, w = .fixed tag payload := by
  cases tag <;> first | exact h | exact absurd rfl hwidth

theorem encode_head (w : Wire) : ∃ bytes, w.encode = w.tag.toByte :: bytes := by
  cases w <;> exact ⟨_, rfl⟩

/-- Values with the same first byte have the same tag. -/
theorem tag_eq_of_append {w w' : Wire} {as bs : Bytes} (h : w.encode ++ as = w'.encode ++ bs) :
    w'.tag = w.tag := by
  obtain ⟨bytes, hw⟩ := w.encode_head
  obtain ⟨bytes', hw'⟩ := w'.encode_head
  rw [hw, hw'] at h
  have htag := congrArg ValueTag.ofByte (List.cons.inj h).1
  rw [ValueTag.ofByte_toByte, ValueTag.ofByte_toByte] at htag
  exact (Option.some.inj htag).symm

mutual

/-- **Prefix-freeness.** The value that stands at the front is determined. -/
theorem encode_append_inj : (w w' : Wire) → {depth depth' : ℕ} → {as bs : Bytes} →
    w.Within limits depth → w'.Within limits' depth' → w.encode ++ as = w'.encode ++ bs →
    w = w' ∧ as = bs
  | null, w', _, _, _, _, _, hw', h => by
    have hkind := ofTag hw'
    rw [tag_eq_of_append h] at hkind
    obtain rfl := hkind
    exact ⟨rfl, (List.cons.inj h).2⟩
  | bool value, w', _, _, _, _, _, hw', h => by
    have hkind := ofTag hw'
    rw [tag_eq_of_append h] at hkind
    cases value <;> obtain rfl := hkind <;> exact ⟨rfl, (List.cons.inj h).2⟩
  | integer signed value, w', _, _, _, _, _, hw', h => by
    have hkind := ofTag hw'
    rw [tag_eq_of_append h] at hkind
    have hinteger : ∃ value', w' = .integer signed value' := by cases signed <;> exact hkind
    obtain ⟨value', rfl⟩ := hinteger
    obtain ⟨rfl, rfl⟩ := Leb128.encode_append_inj _ (List.cons.inj h).2
    exact ⟨rfl, rfl⟩
  | fixed tag payload, w', _, _, _, _, ⟨_, hwidth, hlen⟩, hw', h => by
    have hkind := ofTag hw'
    rw [tag_eq_of_append h] at hkind
    obtain ⟨payload', rfl⟩ := ofTag_fixed hwidth hkind
    obtain ⟨-, -, hlen'⟩ := hw'
    obtain ⟨rfl, rfl⟩ := List.append_inj (List.cons.inj h).2 (hlen.trans hlen'.symm)
    exact ⟨rfl, rfl⟩
  | string bytes, w', _, _, _, _, _, hw', h => by
    have hkind := ofTag hw'
    rw [tag_eq_of_append h] at hkind
    obtain ⟨bytes', rfl⟩ := hkind
    simp only [encode, List.cons_append, List.append_assoc, List.cons.injEq, true_and] at h
    obtain ⟨hlen, h⟩ := Leb128.encode_append_inj _ h
    obtain ⟨rfl, rfl⟩ := List.append_inj h hlen
    exact ⟨rfl, rfl⟩
  | array ws, w', _, _, _, _, ⟨_, _, hws⟩, hw', h => by
    have hkind := ofTag hw'
    rw [tag_eq_of_append h] at hkind
    obtain ⟨ws', rfl⟩ := hkind
    simp only [encode, List.cons_append, List.append_assoc, List.cons.injEq, true_and] at h
    obtain ⟨hlen, h⟩ := Leb128.encode_append_inj _ h
    obtain ⟨rfl, rfl⟩ := encodeList_append_inj ws ws' hlen hws hw'.2.2 h
    exact ⟨rfl, rfl⟩
  | object named ms, w', _, _, _, _, ⟨_, _, hms⟩, hw', h => by
    have hkind := ofTag hw'
    rw [tag_eq_of_append h] at hkind
    have hobject : ∃ ms', w' = .object named ms' := by cases named <;> exact hkind
    obtain ⟨ms', rfl⟩ := hobject
    simp only [encode, List.cons_append, List.append_assoc, List.cons.injEq, true_and] at h
    obtain ⟨hlen, h⟩ := Leb128.encode_append_inj _ h
    obtain ⟨rfl, rfl⟩ := encodeMembers_append_inj named ms ms' hlen hms hw'.2.2 h
    exact ⟨rfl, rfl⟩

theorem encodeList_append_inj : (ws ws' : List Wire) → {depth depth' : ℕ} → {as bs : Bytes} →
    ws.length = ws'.length → WithinList limits depth ws → WithinList limits' depth' ws' →
    encodeList ws ++ as = encodeList ws' ++ bs → ws = ws' ∧ as = bs
  | [], [], _, _, _, _, _, _, _, h => ⟨rfl, h⟩
  | [], _ :: _, _, _, _, _, hlen, _, _, _ => by cases hlen
  | _ :: _, [], _, _, _, _, hlen, _, _, _ => by cases hlen
  | w :: ws, w' :: ws', _, _, _, _, hlen, ⟨hw, hws⟩, ⟨hw', hws'⟩, h => by
    simp only [encodeList, List.append_assoc] at h
    obtain ⟨rfl, hrest⟩ := encode_append_inj w w' hw hw' h
    obtain ⟨rfl, rfl⟩ := encodeList_append_inj ws ws' (Nat.succ.inj hlen) hws hws' hrest
    exact ⟨rfl, rfl⟩

theorem encodeMembers_append_inj (named : Bool) : (ms ms' : List (Key × Wire)) →
    {depth depth' : ℕ} → {as bs : Bytes} → ms.length = ms'.length →
    WithinMembers limits named depth ms → WithinMembers limits' named depth' ms' →
    encodeMembers named ms ++ as = encodeMembers named ms' ++ bs → ms = ms' ∧ as = bs
  | [], [], _, _, _, _, _, _, _, h => ⟨rfl, h⟩
  | [], _ :: _, _, _, _, _, hlen, _, _, _ => by cases hlen
  | _ :: _, [], _, _, _, _, hlen, _, _, _ => by cases hlen
  | (key, w) :: ms, (key', w') :: ms', _, _, _, _, hlen, ⟨hkey, hw, hms⟩,
      ⟨hkey', hw', hms'⟩, h => by
    simp only [encodeMembers, List.append_assoc] at h
    obtain ⟨rfl, hvalue⟩ := Key.encode_append_inj hkey hkey' h
    obtain ⟨rfl, hrest⟩ := encode_append_inj w w' hw hw' hvalue
    obtain ⟨rfl, rfl⟩ :=
      encodeMembers_append_inj named ms ms' (Nat.succ.inj hlen) hms hms' hrest
    exact ⟨rfl, rfl⟩

end

end Wire

open Outcome Segment

/-- A document that is the encoding of a tree has a root node only if the tree fits. -/
theorem Reader.holds_of_root {inp : Input} {limits : ParseLimits} {w : Wire} {k : ℕ} {n : Node}
    {s : State} (hwithin : w.Within limits 0) (hdata : inp.data = binaryMagic ++ w.encode)
    (h : Returns (root inp) (init inp) (.node k n) s) : Holds inp w := by
  have hframed := framed_of_root h
  have hinit := init_framed hframed
  rw [Returns, root_framed (by rw [hinit])] at h
  obtain ⟨w', hw, -, -⟩ := (parseAt_node (init_lt inp) (Nat.zero_le _)).mp h
  have hcharge := hw.charge_le
  rw [hinit] at hcharge
  have hfits := hw.fits
  have hdrop : inp.data.drop binaryMagic.length = w.encode := by rw [hdata, List.drop_left]
  obtain ⟨rest, hrest⟩ := hw.stands
  rw [hdrop] at hrest
  obtain ⟨rfl, -⟩ := Wire.encode_append_inj w' w ((Wire.fits_iff _ _).mp hfits).1 hwithin
    (hrest.trans (List.append_nil _).symm)
  exact ⟨hframed.data, hframed.size, hdata, hfits, hcharge⟩

end NekoProto.Binary
