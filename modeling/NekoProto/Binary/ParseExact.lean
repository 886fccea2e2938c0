import NekoProto.Binary.ParseLoops

/-!
# What the parser accepts

`parseNode` returns exactly the layouts of the trees that fit and whose encoding stands at the
cursor (`parseNode_returns`), and otherwise fails with an error of the source
(`parseNode_failsOnly`). Both are an induction on the fuel, where the fuel reaches one level below
the depth limit.
-/

namespace NekoProto.Binary

open Outcome Segment

variable {inp : Input} {s t : ℕ} {start limit depth next : ℕ} {node : Node} {tag : ValueTag}

-- The equations are made here, once for the lemmas below.
attribute [local simp] Wire.Fits Wire.layout Wire.charge

/-- The tree stands at the start, and the budget pays for it; its own node is paid already. -/
def Paid (inp : Input) (limit depth start s : ℕ) (node : Node) (next t : ℕ) (w : Wire) : Prop :=
  Stands inp limit depth start w node next (w.charge inp.abi) ∧
    s + inp.abi.nodeSize = t + w.charge inp.abi

/-- A tree stands where its tag stands and its payload follows. -/
theorem paid_iff {w : Wire} {payload : Bytes} (hw : w.encode = tag.toByte :: payload)
    (htag : inp.data[start]? = some tag.toByte) :
    Paid inp limit depth start s node next t w ↔
      w.Fits inp.limits depth ∧ At inp.data (start + 1) payload ∧
        next = start + 1 + payload.length ∧ next ≤ limit ∧ node = w.layout start depth ∧
        s + inp.abi.nodeSize = t + w.charge inp.abi := by
  have hlen : start + w.encode.length = start + 1 + payload.length := by
    rw [hw, List.length_cons]
    omega
  constructor
  · rintro ⟨⟨hfits, hat, hnext, hle, hnode, -⟩, hpaid⟩
    rw [hw, at_cons] at hat
    exact ⟨hfits, hat.2, hlen ▸ hnext, hle, hnode, hpaid⟩
  · rintro ⟨hfits, hat, hnext, hle, hnode, hpaid⟩
    refine ⟨⟨hfits, ?_, hlen ▸ hnext, hle, hnode, rfl⟩, hpaid⟩
    rw [hw, at_cons]
    exact ⟨htag, hat⟩

/-! ## Values without children -/

theorem parseEmpty_returns {w : Wire} (hw : w.encode = [tag.toByte])
    (hfits : w.Fits inp.limits depth) (hcharge : w.charge inp.abi = inp.abi.nodeSize)
    (hlayout : w.layout start depth = .mk tag start 0 0 (start + 1) depth [] [])
    (hstart : start < limit) (htag : inp.data[start]? = some tag.toByte) :
    Returns (parseEmpty tag ⟨start, start + 1, limit, depth⟩) s (node, next) t ↔
      Paid inp limit depth start s node next t w := by
  rw [paid_iff hw htag]
  simp only [parseEmpty, returns_pure, Prod.mk.injEq, hfits, hcharge, hlayout, at_nil,
    List.length_nil, Nat.add_zero, true_and]
  constructor
  · rintro ⟨⟨rfl, rfl⟩, rfl⟩
    exact ⟨rfl, hstart, rfl, rfl⟩
  · rintro ⟨rfl, -, rfl, hpaid⟩
    exact ⟨⟨rfl, rfl⟩, by omega⟩

theorem parseVarint_returns (signed : Bool) (hlimit : limit ≤ inp.size)
    (hmax : depth ≤ inp.limits.maxDepth)
    (htag : inp.data[start]? = some (integerTag signed).toByte) :
    Returns (parseVarint inp (integerTag signed) ⟨start, start + 1, limit, depth⟩) s
        (node, next) t ↔
      ∃ value, Paid inp limit depth start s node next t (.integer signed value) := by
  unfold parseVarint
  rw [exists_congr fun value => paid_iff (w := .integer signed value) rfl htag]
  simp only [returns_bind, Prod.exists,
    readUleb_returns (by omega : 0 < 64) hlimit, returns_pure, Prod.mk.injEq, Wire.Fits,
    Wire.layout, Wire.charge]
  refine exists_congr fun value => ?_
  constructor
  · rintro ⟨_, _, ⟨rfl, hlt, hat, rfl, hle⟩, ⟨rfl, rfl⟩, rfl⟩
    exact ⟨⟨hmax, hlt⟩, hat, rfl, hle, rfl, rfl⟩
  · rintro ⟨⟨-, hlt⟩, hat, rfl, hle, rfl, hpaid⟩
    exact ⟨_, t, ⟨by omega, hlt, hat, rfl, hle⟩, ⟨rfl, rfl⟩, rfl⟩

theorem parseFixed_returns (hlimit : limit ≤ inp.size) (hstart : start < limit)
    (hmax : depth ≤ inp.limits.maxDepth) (htag : inp.data[start]? = some tag.toByte) :
    Returns (parseFixed tag ⟨start, start + 1, limit, depth⟩) s (node, next) t ↔
      ∃ payload, Paid inp limit depth start s node next t (.fixed tag payload) := by
  have hsize := inp.size_lt
  unfold Input.size at hlimit
  unfold parseFixed
  rw [subSize_eq (show start + 1 ≤ limit from hstart), pure_bind]
  rw [exists_congr fun payload => paid_iff (w := .fixed tag payload) rfl htag]
  simp only [returns_ite, returns_fail, and_false, false_or, not_or, Nat.not_lt,
    Wire.Fits, Wire.layout, Wire.charge]
  by_cases hrest : tag.fixedWidth ≤ limit - (start + 1)
  · rw [addSize_eq (by omega), pure_bind]
    simp only [returns_pure, Prod.mk.injEq, hrest, and_true]
    constructor
    · rintro ⟨hwidth, ⟨rfl, rfl⟩, rfl⟩
      have hlen : ((inp.data.drop (start + 1)).take tag.fixedWidth).length = tag.fixedWidth := by
        rw [List.length_take, List.length_drop]
        omega
      exact ⟨_, ⟨hmax, hwidth, hlen⟩, at_take, by rw [hlen], by omega, by rw [hlen], rfl⟩
    · rintro ⟨payload, ⟨-, hwidth, hlen⟩, -, rfl, -, rfl, hpaid⟩
      rw [hlen]
      exact ⟨hwidth, ⟨rfl, rfl⟩, by omega⟩
  · simp only [hrest, and_false, false_and, false_iff]
    rintro ⟨payload, ⟨-, -, hlen⟩, -, rfl, hle, -⟩
    omega

theorem parseString_returns (hlimit : limit ≤ inp.size) (hmax : depth ≤ inp.limits.maxDepth)
    (htag : inp.data[start]? = some ValueTag.string.toByte) :
    Returns (parseString inp ⟨start, start + 1, limit, depth⟩) s (node, next) t ↔
      ∃ bytes, Paid inp limit depth start s node next t (.string bytes) := by
  have hsize := inp.size_lt
  unfold Input.size at hlimit
  unfold parseString
  rw [exists_congr fun bytes => paid_iff (w := .string bytes) rfl htag]
  simp only [returns_bind, Prod.exists,
    readUleb_returns (by omega : 0 < 64) hlimit, returns_pure, Prod.mk.injEq, at_append,
    List.length_append, Wire.Fits, Wire.layout, Wire.charge]
  constructor
  · rintro ⟨_, _, _, ⟨rfl, hlt, hat, rfl, hle⟩, bytes, _, _, htake, ⟨rfl, rfl⟩, rfl⟩
    obtain ⟨rfl, hlen, rfl, hbytes, rfl, hstop⟩ := (takeString_returns hlimit hle).mp htake
    exact ⟨bytes, ⟨hmax, hlen⟩, ⟨hat, hbytes⟩, by omega, hstop, rfl, rfl⟩
  · rintro ⟨bytes, ⟨-, hlen⟩, ⟨hat, hbytes⟩, rfl, hle, rfl, hpaid⟩
    refine ⟨bytes.length, _, t, ⟨by omega, by omega, hat, rfl, by omega⟩, bytes, _, t,
      (takeString_returns hlimit (by omega)).mpr ⟨rfl, hlen, rfl, hbytes, rfl, by omega⟩,
      ⟨rfl, by omega⟩, rfl⟩

/-! ## Values with children -/

section

variable {child : ℕ → ℕ → ℕ → ParseM (Node × ℕ)}

theorem parseArray_returns (hlimit : limit ≤ inp.size) (hmax : depth ≤ inp.limits.maxDepth)
    (hchild : ChildSpec inp child limit (depth + 1)) (hdepth : depth ≤ start) (hs : s < 2 ^ 64)
    (htag : inp.data[start]? = some ValueTag.array.toByte) :
    Returns (parseArray child inp ⟨start, start + 1, limit, depth⟩) s (node, next) t ↔
      ∃ elements, Paid inp limit depth start s node next t (.array elements) := by
  have hsize := inp.size_lt
  unfold Input.size at hlimit
  unfold parseArray
  rw [exists_congr fun elements => paid_iff (w := .array elements) rfl htag]
  simp only [returns_bind, Prod.exists, readCount_returns hlimit, at_append,
    List.length_append, Wire.Fits, Wire.layout, Wire.charge]
  constructor
  · rintro ⟨count, mid, _, ⟨rfl, hcount, -, hat, rfl, hle⟩, _, s', hcharge, es, stop, _, hloop,
      hrest⟩
    have hcharge := (chargeProduct_returns hs).mp hcharge
    obtain ⟨ws, rfl, hfits, hes, rfl, hstop, rfl, rfl⟩ :=
      (parseElements_returns hlimit hchild count (by omega) hle (by omega)).mp hloop
    simp only [returns_pure, Prod.mk.injEq] at hrest
    obtain ⟨⟨rfl, rfl⟩, rfl⟩ := hrest
    exact ⟨ws, ⟨hmax, hcount, hfits⟩, ⟨hat, hes⟩, by omega, hstop, rfl, by omega⟩
  · rintro ⟨ws, ⟨-, hcount, hfits⟩, ⟨hat, hes⟩, rfl, hle, rfl, hpaid⟩
    have hlen := Wire.length_le_encodeList ws
    refine ⟨ws.length, _, s, ⟨rfl, hcount, by omega, hat, rfl, by omega⟩, (),
      t + Wire.chargeList inp.abi ws, (chargeProduct_returns hs).mpr (by omega), _, _, t,
      (parseElements_returns hlimit hchild ws.length (by omega) (by omega) (by omega)).mpr
        ⟨ws, rfl, hfits, hes, rfl, by omega, rfl, rfl⟩, ?_⟩
    simp only [returns_pure, List.nil_append, Nat.add_assoc, and_self]

theorem parseObject_returns (named : Bool) (hlimit : limit ≤ inp.size)
    (hmax : depth ≤ inp.limits.maxDepth) (hchild : ChildSpec inp child limit (depth + 1))
    (hdepth : depth ≤ start) (hs : s < 2 ^ 64)
    (htag : inp.data[start]? = some (objectTag named).toByte) :
    Returns (parseObject child inp (objectTag named) ⟨start, start + 1, limit, depth⟩) s
        (node, next) t ↔
      ∃ members, Paid inp limit depth start s node next t (.object named members) := by
  have hsize := inp.size_lt
  have hkeyed : Keyed [] [] := rfl
  unfold Input.size at hlimit
  unfold parseObject
  rw [exists_congr fun members => paid_iff (w := .object named members) rfl htag]
  simp only [returns_bind, Prod.exists, readCount_returns hlimit, at_append,
    List.length_append, Wire.Fits, Wire.layout, Wire.charge]
  constructor
  · rintro ⟨count, mid, _, ⟨rfl, hcount, -, hat, rfl, hle⟩, _, s', hcharge, es, stop, _, hloop,
      hrest⟩
    have hcharge := (chargeProduct_returns hs).mp hcharge
    obtain ⟨ms, rfl, hkeys, hfits, hes, rfl, hstop, rfl, rfl⟩ :=
      (parseMembers_returns hlimit hchild count (by omega) hle (by omega) hkeyed (by simp)
        .nil).mp hloop
    simp only [returns_pure, Prod.mk.injEq] at hrest
    obtain ⟨⟨rfl, rfl⟩, rfl⟩ := hrest
    exact ⟨ms, ⟨hmax, hcount, hkeys, hfits⟩, ⟨hat, hes⟩, by omega, hstop, rfl, by omega⟩
  · rintro ⟨ms, ⟨-, hcount, hkeys, hfits⟩, ⟨hat, hes⟩, rfl, hle, rfl, hpaid⟩
    have hlen := Wire.length_le_encodeMembers named ms
    refine ⟨ms.length, _, s, ⟨rfl, hcount, by omega, hat, rfl, by omega⟩, (),
      t + Wire.chargeMembers inp.abi ms, (chargeProduct_returns hs).mpr (by omega), _, _, t,
      (parseMembers_returns hlimit hchild ms.length (by omega) (by omega) (by omega) hkeyed
        (by simp) .nil).mpr ⟨ms, rfl, hkeys, hfits, hes, rfl, by omega, rfl, rfl⟩, ?_⟩
    simp only [returns_pure, List.nil_append, Nat.add_assoc, and_self]

/-! ## Nodes -/

theorem parsePayload_fixed (h : tag.fixedWidth ≠ 0) (fr : Frame) :
    parsePayload child inp tag fr = parseFixed tag fr := by
  cases tag <;> first | rfl | exact absurd rfl h

/-- The payload after a tag: a tree of this tag stands at the start. -/
theorem parsePayload_returns (hlimit : limit ≤ inp.size) (hstart : start < limit)
    (hmax : depth ≤ inp.limits.maxDepth) (hchild : ChildSpec inp child limit (depth + 1))
    (hdepth : depth ≤ start) (hs : s < 2 ^ 64) (htag : inp.data[start]? = some tag.toByte) :
    Returns (parsePayload child inp tag ⟨start, start + 1, limit, depth⟩) s (node, next) t ↔
      ∃ w, w.tag = tag ∧ Paid inp limit depth start s node next t w := by
  have hempty (w : Wire) (hw : w.encode = [w.tag.toByte]) (hfits : w.Fits inp.limits depth)
      (hcharge : w.charge inp.abi = inp.abi.nodeSize)
      (hlayout : w.layout start depth = .mk w.tag start 0 0 (start + 1) depth [] [])
      (htag : inp.data[start]? = some w.tag.toByte) :
      Returns (parseEmpty w.tag ⟨start, start + 1, limit, depth⟩) s (node, next) t ↔
        Paid inp limit depth start s node next t w :=
    parseEmpty_returns hw hfits hcharge hlayout hstart htag
  constructor
  · intro h
    cases tag
    case null => exact ⟨.null, rfl, (hempty .null rfl hmax rfl rfl htag).mp h⟩
    case false => exact ⟨.bool false, rfl, (hempty (.bool false) rfl hmax rfl rfl htag).mp h⟩
    case true => exact ⟨.bool true, rfl, (hempty (.bool true) rfl hmax rfl rfl htag).mp h⟩
    case signedInteger =>
      obtain ⟨value, hpaid⟩ := (parseVarint_returns true hlimit hmax htag).mp h
      exact ⟨_, rfl, hpaid⟩
    case unsignedInteger =>
      obtain ⟨value, hpaid⟩ := (parseVarint_returns false hlimit hmax htag).mp h
      exact ⟨_, rfl, hpaid⟩
    case string =>
      obtain ⟨bytes, hpaid⟩ := (parseString_returns hlimit hmax htag).mp h
      exact ⟨_, rfl, hpaid⟩
    case array =>
      obtain ⟨elements, hpaid⟩ := (parseArray_returns hlimit hmax hchild hdepth hs htag).mp h
      exact ⟨_, rfl, hpaid⟩
    case namedObject =>
      obtain ⟨members, hpaid⟩ :=
        (parseObject_returns true hlimit hmax hchild hdepth hs htag).mp h
      exact ⟨_, rfl, hpaid⟩
    case idObject =>
      obtain ⟨members, hpaid⟩ :=
        (parseObject_returns false hlimit hmax hchild hdepth hs htag).mp h
      exact ⟨_, rfl, hpaid⟩
    all_goals
      obtain ⟨payload, hpaid⟩ := (parseFixed_returns hlimit hstart hmax htag).mp h
      exact ⟨_, rfl, hpaid⟩
  · rintro ⟨w, rfl, hpaid⟩
    cases w with
    | null => exact (hempty .null rfl hmax rfl rfl htag).mpr hpaid
    | bool value =>
      cases value with
      | false => exact (hempty (.bool false) rfl hmax rfl rfl htag).mpr hpaid
      | true => exact (hempty (.bool true) rfl hmax rfl rfl htag).mpr hpaid
    | integer signed value =>
      have := (parseVarint_returns signed hlimit hmax htag).mpr ⟨value, hpaid⟩
      cases signed <;> exact this
    | fixed tag payload =>
      rw [Wire.tag, parsePayload_fixed hpaid.1.fits.2.1]
      exact (parseFixed_returns hlimit hstart hmax htag).mpr ⟨payload, hpaid⟩
    | string bytes => exact (parseString_returns hlimit hmax htag).mpr ⟨bytes, hpaid⟩
    | array elements =>
      exact (parseArray_returns hlimit hmax hchild hdepth hs htag).mpr ⟨elements, hpaid⟩
    | object named members =>
      have := (parseObject_returns named hlimit hmax hchild hdepth hs htag).mpr ⟨members, hpaid⟩
      cases named <;> exact this

end

theorem Wire.Fits.depth_le {limits : ParseLimits} {w : Wire} (h : w.Fits limits depth) :
    depth ≤ limits.maxDepth := by
  cases w with
  | null => exact h
  | bool value => exact h
  | integer signed value => exact h.1
  | fixed tag payload => exact h.1
  | string bytes => exact h.1
  | array elements => exact h.1
  | object named members => exact h.1

/-- **The parser accepts exactly the grammar.** A node is returned exactly when the encoding of a
tree that fits stands at the cursor and the budget pays for it. -/
theorem parseNode_returns (hlimit : limit ≤ inp.size) (fuel : ℕ) :
    ∀ depth, inp.limits.maxDepth + 2 ≤ fuel + depth →
      ChildSpec inp (parseNode inp fuel) limit depth := by
  have hsize := inp.size_lt
  unfold Input.size at hlimit
  induction fuel with
  | zero =>
    intro depth hfuel cursor s node next t _ _
    simp only [parseNode, returns_throw, false_iff]
    rintro ⟨w, cost, hw, -⟩
    have := hw.fits.depth_le
    omega
  | succ fuel ih =>
    intro depth hfuel cursor s node next t hdepth hs
    by_cases hmax : inp.limits.maxDepth < depth
    · simp only [parseNode, if_pos hmax, returns_fail, false_iff]
      rintro ⟨w, cost, hw, -⟩
      have := hw.fits.depth_le
      omega
    · by_cases hend : limit ≤ cursor ∨ inp.size < limit
      · simp only [parseNode, if_neg hmax, if_pos hend, returns_fail, false_iff]
        rintro ⟨w, cost, hw, -⟩
        have := w.length_encode_pos
        have := hw.next_eq
        have := hw.next_le
        unfold Input.size at hend
        omega
      · have hcursor : cursor < limit := by omega
        obtain ⟨byte, hbyte⟩ := exists_byte hcursor hlimit
        simp only [parseNode, if_neg hmax, if_neg hend, byteAt_eq hbyte,
          addSize_eq (show cursor + 1 < 2 ^ 64 by omega), pure_bind, returns_bind, charge_returns,
          exists_const]
        constructor
        · rintro ⟨s', rfl, h⟩
          cases htag : ValueTag.ofByte byte with
          | none =>
            rw [htag] at h
            exact (returns_fail h).elim
          | some tag =>
            rw [htag] at h
            rw [ValueTag.ofByte_eq_some htag] at hbyte
            obtain ⟨w, -, hw, hpaid⟩ := (parsePayload_returns hlimit hcursor (by omega)
              (ih (depth + 1) (by omega)) hdepth (by omega) hbyte).mp h
            exact ⟨w, _, hw, hpaid⟩
        · rintro ⟨w, cost, hw, rfl⟩
          obtain ⟨payload, hpayload⟩ : ∃ payload, w.encode = w.tag.toByte :: payload := by
            cases w <;> exact ⟨_, rfl⟩
          have htag : inp.data[cursor]? = some w.tag.toByte := by
            have := hw.stands
            rw [hpayload, at_cons] at this
            exact this.1
          have hcost : inp.abi.nodeSize ≤ cost := by
            rw [hw.cost_eq]
            cases w <;> simp [Wire.charge]
          have hbyte' : byte = w.tag.toByte := Option.some.inj (hbyte.symm.trans htag)
          refine ⟨t + cost - inp.abi.nodeSize, by omega, ?_⟩
          rw [hbyte', ValueTag.ofByte_toByte]
          refine (parsePayload_returns hlimit hcursor (by omega) (ih (depth + 1) (by omega)) hdepth
            (by omega) htag).mpr ⟨w, rfl, ?_, ?_⟩
          · rw [← hw.cost_eq]
            exact hw
          · rw [← hw.cost_eq]
            omega

/-! ## Failures -/

/-- A parser of nodes that stays inside the buffer and the range of `size_t`. -/
def ChildSafe (child : ℕ → ℕ → ℕ → ParseM (Node × ℕ)) (limit depth : ℕ) : Prop :=
  ∀ cursor s, depth ≤ cursor → s < 2 ^ 64 → FailsOnly IsError (child cursor limit depth) s

section

variable {child : ℕ → ℕ → ℕ → ParseM (Node × ℕ)}

theorem parseElements_failsOnly (hlimit : limit ≤ inp.size)
    (hchild : ChildSpec inp child limit (depth + 1)) (hsafe : ChildSafe child limit (depth + 1))
    (count : ℕ) : ∀ {cursor s : ℕ} {acc : List Node}, depth + 1 ≤ cursor → cursor ≤ limit →
      s < 2 ^ 64 → FailsOnly IsError (parseElements child limit depth count cursor acc) s := by
  have hsize := inp.size_lt
  unfold Input.size at hlimit
  induction count with
  | zero => exact fun _ _ _ => .pure
  | succ count ih =>
    intro cursor s acc hdepth hcursor hs
    simp only [parseElements, addSize_eq (show depth + 1 < 2 ^ 64 by omega), pure_bind]
    refine .bind (hsafe cursor s hdepth hs) fun r s' h => ?_
    obtain ⟨node, mid⟩ := r
    obtain ⟨w, cost, hw, rfl⟩ := (hchild cursor s node mid s' hdepth hs).mp h
    have hmid := hw.next_eq
    exact ih (by omega) hw.next_le (by omega)

theorem parseMembers_failsOnly {named : Bool} (hlimit : limit ≤ inp.size)
    (hchild : ChildSpec inp child limit (depth + 1)) (hsafe : ChildSafe child limit (depth + 1))
    (count : ℕ) : ∀ {cursor s : ℕ} {acc : List (Member Node)} {keys : List Key},
      depth + 1 ≤ cursor → cursor ≤ limit → s < 2 ^ 64 → Keyed acc keys →
      (∀ k ∈ keys, k.Fits inp.limits named) →
      FailsOnly IsError (parseMembers child inp (objectTag named) limit depth count cursor acc)
        s := by
  have hsize := inp.size_lt
  unfold Input.size at hlimit
  induction count with
  | zero => exact fun _ _ _ _ _ => .pure
  | succ count ih =>
    intro cursor s acc keys hdepth hcursor hs hkeyed hkeys
    simp only [parseMembers, addSize_eq (show depth + 1 < 2 ^ 64 by omega), pure_bind]
    refine .bind (parseMemberKey_failsOnly hlimit) fun r s' hread => ?_
    obtain ⟨name, id, start⟩ := r
    obtain ⟨rfl, key, hkey, rfl, rfl⟩ := (parseMemberKey_returns hlimit hkeyed hkeys).mp hread
    have hstart := hkey.next_eq
    refine .bind (hsafe start _ (by omega) hs) fun r s' h => ?_
    obtain ⟨node, mid⟩ := r
    obtain ⟨w, cost, hw, rfl⟩ := (hchild start _ node mid s' (by omega) hs).mp h
    have hmid := hw.next_eq
    refine ih (by omega) hw.next_le (by omega) (hkeyed.append key node) fun k hk => ?_
    obtain hk | hk := List.mem_append.mp hk
    · exact hkeys k hk
    · rw [List.mem_singleton.mp hk]
      exact hkey.fits

theorem parseFixed_failsOnly (hlimit : limit ≤ inp.size) (hstart : start < limit) :
    FailsOnly IsError (parseFixed tag ⟨start, start + 1, limit, depth⟩) s := by
  have hsize := inp.size_lt
  unfold Input.size at hlimit
  unfold parseFixed
  rw [subSize_eq (show start + 1 ≤ limit from hstart), pure_bind]
  refine .ite (fun _ => failsOnly_fail) fun hrest => ?_
  rw [addSize_eq (show start + 1 + tag.fixedWidth < 2 ^ 64 by omega), pure_bind]
  exact .pure

theorem parseObject_failsOnly (named : Bool) (hlimit : limit ≤ inp.size)
    (hchild : ChildSpec inp child limit (depth + 1)) (hsafe : ChildSafe child limit (depth + 1))
    (hdepth : depth ≤ start) (hs : s < 2 ^ 64) :
    FailsOnly IsError
      (parseObject child inp (objectTag named) ⟨start, start + 1, limit, depth⟩) s := by
  refine .bind (readCount_failsOnly hlimit) fun ⟨count, mid⟩ s' hcount => ?_
  obtain ⟨rfl, -, -, -, hmid, hle⟩ := (readCount_returns hlimit).mp hcount
  refine .bind chargeProduct_failsOnly fun _ s' hcharge => ?_
  have hcharge := (chargeProduct_returns hs).mp hcharge
  have hkeyed : Keyed [] [] := rfl
  refine .bind (parseMembers_failsOnly hlimit hchild hsafe count ?_ hle ?_ hkeyed ?_)
    fun _ _ _ => .pure
  · simp only at hmid ⊢
    omega
  · omega
  · simp

theorem parsePayload_failsOnly (hlimit : limit ≤ inp.size) (hstart : start < limit)
    (hchild : ChildSpec inp child limit (depth + 1)) (hsafe : ChildSafe child limit (depth + 1))
    (hdepth : depth ≤ start) (hs : s < 2 ^ 64) :
    FailsOnly IsError (parsePayload child inp tag ⟨start, start + 1, limit, depth⟩) s := by
  cases tag
  case null => exact .pure
  case false => exact .pure
  case true => exact .pure
  case signedInteger => exact .bind (readUleb_failsOnly hlimit) fun _ _ _ => .pure
  case unsignedInteger => exact .bind (readUleb_failsOnly hlimit) fun _ _ _ => .pure
  case string =>
    refine .bind (readUleb_failsOnly hlimit) fun ⟨size, mid⟩ s' hread => ?_
    obtain ⟨-, -, -, -, hle⟩ := (readUleb_returns (by omega) hlimit).mp hread
    exact .bind (takeString_failsOnly hlimit hle) fun _ _ _ => .pure
  case array =>
    refine .bind (readCount_failsOnly hlimit) fun ⟨count, mid⟩ s' hcount => ?_
    obtain ⟨rfl, -, -, -, hmid, hle⟩ := (readCount_returns hlimit).mp hcount
    refine .bind chargeProduct_failsOnly fun _ s' hcharge => ?_
    have hcharge := (chargeProduct_returns hs).mp hcharge
    refine .bind (parseElements_failsOnly hlimit hchild hsafe count ?_ hle ?_) fun _ _ _ => .pure
    · simp only at hmid ⊢
      omega
    · omega
  case namedObject => exact parseObject_failsOnly true hlimit hchild hsafe hdepth hs
  case idObject => exact parseObject_failsOnly false hlimit hchild hsafe hdepth hs
  all_goals exact parseFixed_failsOnly hlimit hstart

end

/-- **The parser is safe.** It stops only with an error of the source: it never reads outside the
buffer, never leaves the range of `size_t`, and never lacks fuel. -/
theorem parseNode_failsOnly (hlimit : limit ≤ inp.size) (fuel : ℕ) :
    ∀ depth, inp.limits.maxDepth + 2 ≤ fuel + depth → depth ≤ inp.limits.maxDepth + 1 →
      ChildSafe (parseNode inp fuel) limit depth := by
  have hsize := inp.size_lt
  induction fuel with
  | zero =>
    intro depth hfuel hdepth
    omega
  | succ fuel ih =>
    intro depth hfuel _ cursor s hdepth hs
    rw [parseNode]
    refine .ite (fun _ => failsOnly_fail) fun hmax => .ite (fun _ => failsOnly_fail) fun hend => ?_
    have hcursor : cursor < limit := by omega
    obtain ⟨byte, hbyte⟩ := exists_byte hcursor hlimit
    refine .bind charge_failsOnly fun _ s' hcharge => ?_
    have hcharge := charge_returns.mp hcharge
    unfold Input.size at hlimit
    rw [byteAt_eq hbyte, addSize_eq (by omega), pure_bind, pure_bind]
    cases ValueTag.ofByte byte with
    | none => exact failsOnly_fail
    | some tag =>
      exact parsePayload_failsOnly hlimit hcursor (parseNode_returns hlimit fuel _ (by omega))
        (ih _ (by omega) (by omega)) hdepth (by omega)

end NekoProto.Binary
