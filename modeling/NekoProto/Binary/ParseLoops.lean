import NekoProto.Binary.Uleb
import NekoProto.Binary.Wire

/-!
# The parts of the parser

What the operations under `parseNode` return, in terms of the bytes that stand at the cursor: the
charges, counts and strings, the keys of members, and the loops over elements and members. The
loops are taken with an arbitrary parser of children that does what `ChildSpec` says.
-/

namespace NekoProto.Binary

open Outcome Segment

variable {inp : Input} {s t : ℕ}

/-! ## The allocation budget -/

@[simp] theorem charge_returns {bytes : ℕ} {u : Unit} :
    Returns (charge bytes) s u t ↔ s = t + bytes := by
  unfold charge subSize
  simp only [returns_bind, returns_get, returns_ite, returns_fail, returns_pure, returns_throw,
    returns_set]
  constructor
  · rintro ⟨_, _, ⟨rfl, rfl⟩, ⟨-, h⟩ | ⟨-, _, _, ⟨hle, rfl, rfl⟩ | ⟨-, h⟩, rfl⟩⟩
    · exact h.elim
    · omega
    · exact h.elim
  · intro h
    exact ⟨s, s, ⟨rfl, rfl⟩, .inr ⟨by omega, t, s, .inl ⟨by omega, by omega, rfl⟩, rfl⟩⟩

theorem charge_failsOnly {bytes : ℕ} : FailsOnly IsError (charge bytes) s := by
  refine .bind .get fun a t h => ?_
  obtain ⟨rfl, rfl⟩ := returns_get.mp h
  refine .ite (fun _ => failsOnly_fail) (fun hle => ?_)
  rw [subSize_eq (by omega), pure_bind]
  exact .set

theorem chargeProduct_returns (hs : s < 2 ^ 64) {count elementSize : ℕ} {u : Unit} :
    Returns (chargeProduct count elementSize) s u t ↔ s = t + count * elementSize := by
  unfold chargeProduct
  simp only [returns_ite, returns_fail, and_false, false_or, returns_throw, or_false,
    charge_returns]
  constructor
  · rintro ⟨-, -, h⟩
    exact h
  · intro h
    refine ⟨?_, by omega, h⟩
    rintro ⟨hcount, hlt⟩
    rw [Nat.div_lt_iff_lt_mul (Nat.pos_of_ne_zero hcount), Nat.mul_comm] at hlt
    omega

theorem chargeProduct_failsOnly {count elementSize : ℕ} :
    FailsOnly IsError (chargeProduct count elementSize) s := by
  refine .ite (fun _ => failsOnly_fail) (fun hfit => ?_)
  rw [if_pos]
  · exact charge_failsOnly
  · by_cases hcount : count = 0
    · rw [hcount, Nat.zero_mul]
      omega
    · have hle := Nat.not_lt.mp fun h => hfit ⟨hcount, h⟩
      rw [Nat.le_div_iff_mul_le (Nat.pos_of_ne_zero hcount), Nat.mul_comm] at hle
      omega

/-! ## Counts and strings -/

theorem readCount_returns {cursor limit maximum n next : ℕ} {kind : String}
    (hlimit : limit ≤ inp.size) :
    Returns (readCount inp cursor limit maximum kind) s (n, next) t ↔
      t = s ∧ n ≤ maximum ∧ n < 2 ^ 64 ∧ At inp.data cursor (Leb128.encode n) ∧
        next = cursor + (Leb128.encode n).length ∧ next ≤ limit := by
  unfold readCount
  simp only [returns_bind, Prod.exists, readUleb_returns (by omega : 0 < 64) hlimit, returns_ite,
    returns_fail, and_false, false_or, returns_pure, Prod.mk.injEq]
  constructor
  · rintro ⟨_, _, _, ⟨rfl, hlt, hat, rfl, hle⟩, hmax, ⟨rfl, rfl⟩, rfl⟩
    exact ⟨rfl, by omega, hlt, hat, rfl, hle⟩
  · rintro ⟨rfl, hmax, hlt, hat, rfl, hle⟩
    exact ⟨n, _, t, ⟨rfl, hlt, hat, rfl, hle⟩, by omega, ⟨rfl, rfl⟩, rfl⟩

theorem readCount_failsOnly {cursor limit maximum : ℕ} {kind : String} (hlimit : limit ≤ inp.size) :
    FailsOnly IsError (readCount inp cursor limit maximum kind) s :=
  .bind (readUleb_failsOnly hlimit) fun _ _ _ => .ite (fun _ => failsOnly_fail) (fun _ => .pure)

theorem takeString_returns {size cursor limit next : ℕ} {bytes : Bytes} {msg : String}
    (hlimit : limit ≤ inp.size) (hcursor : cursor ≤ limit) :
    Returns (takeString inp size cursor limit msg) s (bytes, next) t ↔
      t = s ∧ size ≤ inp.limits.maxStringBytes ∧ bytes.length = size ∧ At inp.data cursor bytes ∧
        next = cursor + size ∧ next ≤ limit := by
  have hsize := inp.size_lt
  unfold Input.size at hlimit
  unfold takeString
  rw [subSize_eq hcursor, pure_bind]
  simp only [returns_ite, returns_fail, and_false, false_or]
  by_cases hrest : limit - cursor < size
  · simp only [hrest, not_true_eq_false, false_and, and_false, false_iff]
    rintro ⟨-, -, -, -, rfl, hle⟩
    omega
  · rw [bytesAt_eq (by unfold Input.size; omega), addSize_eq (by omega)]
    simp only [pure_bind, returns_pure, Prod.mk.injEq, hrest, not_false_eq_true, true_and]
    have hlen : ((inp.data.drop cursor).take size).length = size := by
      rw [List.length_take, List.length_drop]
      omega
    constructor
    · rintro ⟨hmax, ⟨rfl, rfl⟩, rfl⟩
      exact ⟨rfl, by omega, hlen, at_take, rfl, by omega⟩
    · rintro ⟨rfl, hmax, hbytes, hat, rfl, -⟩
      exact ⟨by omega, ⟨hat.unique at_take (by rw [hbytes, hlen]), rfl⟩, rfl⟩

theorem takeString_failsOnly {size cursor limit : ℕ} {msg : String} (hlimit : limit ≤ inp.size)
    (hcursor : cursor ≤ limit) : FailsOnly IsError (takeString inp size cursor limit msg) s := by
  have hsize := inp.size_lt
  unfold Input.size at hlimit
  unfold takeString
  rw [subSize_eq hcursor, pure_bind]
  refine .ite (fun _ => failsOnly_fail) fun _ => .ite (fun _ => failsOnly_fail) fun hrest => ?_
  rw [bytesAt_eq (by unfold Input.size; omega), addSize_eq (by omega)]
  exact .pure

/-! ## Keys -/

/-- The parsed members carry these keys. -/
def Keyed (members : List (Member Node)) (keys : List Key) : Prop :=
  members.map (fun m => (m.name, m.id)) = keys.map fun k => (k.name, k.id)

theorem Keyed.append {members : List (Member Node)} {keys : List Key} (h : Keyed members keys)
    (key : Key) (value : Node) :
    Keyed (members ++ [{ name := key.name, id := key.id, value }]) (keys ++ [key]) := by
  unfold Keyed at *
  rw [List.map_append, List.map_append, h]
  rfl

/-- A property of names and ids holds of a member when it holds of its key. -/
theorem Keyed.any {members : List (Member Node)} {keys : List Key} (h : Keyed members keys)
    (p : Bytes → UInt32 → Bool) :
    (members.any fun m => p m.name m.id) = keys.any fun k => p k.name k.id := by
  have := congrArg (List.any · fun q : Bytes × UInt32 => p q.1 q.2) h
  rw [List.any_map, List.any_map] at this
  exact this

theorem namedIndexContains_named {members : List (Member Node)} {keys : List Key} {name : Bytes}
    (h : Keyed members keys) (hkeys : ∀ k ∈ keys, k.Fits inp.limits true) :
    namedIndexContains .namedObject members name ↔
      ∃ k ∈ keys, Key.Clashes true k (.literal name) := by
  have hany := h.any fun n _ => decide (n = name)
  simp only [namedIndexContains, inNamedIndex, true_or, decide_true, true_and, hany,
    List.any_eq_true, decide_eq_true_eq]
  refine exists_congr fun k => and_congr_right fun hk => ?_
  cases k with
  | literal n => simp [Key.Clashes, Key.name]
  | hash i => exact absurd (hkeys _ hk) (by simp [Key.Fits])

theorem namedIndexContains_id {members : List (Member Node)} {keys : List Key} {name : Bytes}
    (h : Keyed members keys) :
    namedIndexContains .idObject members name ↔
      ∃ k ∈ keys, Key.Clashes false k (.literal name) := by
  have hany := h.any fun n _ => decide (n ≠ [] ∧ n = name)
  have hnode (m : Member Node) : decide (inNamedIndex .idObject m = true ∧ m.name = name) =
      decide (m.name ≠ [] ∧ m.name = name) := by simp [inNamedIndex]
  simp only [namedIndexContains, hnode, hany, List.any_eq_true, decide_eq_true_eq]
  refine exists_congr fun k => and_congr_right fun _ => ?_
  cases k with
  | literal n => simp [Key.Clashes, Key.name, and_comm]
  | hash i => simp [Key.Clashes, Key.name]

theorem idIndexContains_id {members : List (Member Node)} {keys : List Key} {id : UInt32}
    (h : Keyed members keys) :
    idIndexContains .idObject members id ↔ ∃ k ∈ keys, Key.Clashes false k (.hash id) := by
  have hany := h.any fun n i => decide (n = [] ∧ i = id)
  have hnode (m : Member Node) : decide (¬inNamedIndex .idObject m = true ∧ m.id = id) =
      decide (m.name = [] ∧ m.id = id) := by simp [inNamedIndex]
  simp only [idIndexContains, hnode, hany, List.any_eq_true, decide_eq_true_eq]
  refine exists_congr fun k => and_congr_right fun _ => ?_
  cases k with
  | literal n => simp [Key.Clashes, Key.name, Key.id, eq_comm]
  | hash i => simp [Key.Clashes, Key.name, Key.id]

/-- A key that stands at a place, fits, and does not clash with earlier ones. -/
structure KeyAt (inp : Input) (named : Bool) (keys : List Key) (cursor limit : ℕ) (key : Key)
    (next : ℕ) : Prop where
  fits : key.Fits inp.limits named
  fresh : ∀ k ∈ keys, ¬Key.Clashes named k key
  stands : At inp.data cursor (key.encode named)
  next_eq : next = cursor + (key.encode named).length
  next_le : next ≤ limit

theorem parseName_returns {members : List (Member Node)} {keys : List Key} {cursor limit next : ℕ}
    {name : Bytes} {id : UInt32} (hlimit : limit ≤ inp.size) (h : Keyed members keys)
    (hkeys : ∀ k ∈ keys, k.Fits inp.limits true) :
    Returns (parseName inp members cursor limit) s (name, id, next) t ↔
      t = s ∧ ∃ key, KeyAt inp true keys cursor limit key next ∧ name = key.name ∧ id = key.id := by
  have hsize := inp.size_lt
  unfold Input.size at hlimit
  unfold parseName
  simp only [returns_bind, Prod.exists, readUleb_returns (by omega : 0 < 64) hlimit]
  constructor
  · rintro ⟨size, start, _, ⟨rfl, hlt, hat, rfl, hle⟩, bytes, stop, _, htake, hrest⟩
    obtain ⟨rfl, hmax, rfl, hbytes, rfl, hstop⟩ := (takeString_returns hlimit hle).mp htake
    simp only [returns_ite, returns_fail, and_false, false_or, returns_pure, Prod.mk.injEq,
      namedIndexContains_named h hkeys] at hrest
    obtain ⟨hfresh, ⟨rfl, rfl, rfl⟩, rfl⟩ := hrest
    refine ⟨rfl, .literal name, ⟨⟨hmax, by simp⟩, ?_, ?_, ?_, hstop⟩, rfl, rfl⟩
    · exact fun k hk hclash => hfresh ⟨k, hk, hclash⟩
    · exact at_append.mpr ⟨hat, hbytes⟩
    · simp only [Key.encode, if_true, List.length_append, Nat.add_assoc]
  · rintro ⟨rfl, key, ⟨hfits, hfresh, hstands, rfl, hle⟩, rfl, rfl⟩
    cases key with
    | hash i => simp [Key.Fits] at hfits
    | literal bytes =>
      simp only [Key.encode, if_true, List.length_append] at hstands hle ⊢
      obtain ⟨hat, hbytes⟩ := at_append.mp hstands
      refine ⟨bytes.length, _, t, ⟨rfl, by omega, hat, rfl, by omega⟩, bytes, _, t,
        (takeString_returns hlimit (by omega)).mpr ⟨rfl, hfits.1, rfl, hbytes, rfl, by omega⟩, ?_⟩
      simp only [returns_ite, returns_fail, and_false, false_or, returns_pure, Prod.mk.injEq,
        namedIndexContains_named h hkeys]
      refine ⟨?_, ⟨rfl, rfl, by omega⟩, trivial⟩
      rintro ⟨k, hk, hclash⟩
      exact hfresh k hk hclash

theorem parseKey_returns {members : List (Member Node)} {keys : List Key} {cursor limit next : ℕ}
    {name : Bytes} {id : UInt32} (hlimit : limit ≤ inp.size) (h : Keyed members keys) :
    Returns (parseKey inp members cursor limit) s (name, id, next) t ↔
      t = s ∧ ∃ key, KeyAt inp false keys cursor limit key next ∧ name = key.name ∧
        id = key.id := by
  have hsize := inp.size_lt
  unfold Input.size at hlimit
  unfold parseKey
  simp only [returns_bind, Prod.exists, readUleb_returns (by omega : 0 < 64) hlimit,
    Nat.and_one_is_mod, Nat.shiftRight_eq_div_pow, Nat.pow_one]
  constructor
  · rintro ⟨code, start, _, ⟨rfl, hlt, hat, rfl, hle⟩, hrest⟩
    rw [returns_ite] at hrest
    obtain ⟨heven, hrest⟩ | ⟨hodd, hrest⟩ := hrest
    · simp only [returns_bind, Prod.exists] at hrest
      obtain ⟨bytes, stop, _, htake, hrest⟩ := hrest
      obtain ⟨rfl, hmax, hlen, hbytes, rfl, hstop⟩ := (takeString_returns hlimit hle).mp htake
      simp only [returns_ite, returns_fail, and_false, false_or, returns_pure, Prod.mk.injEq,
        namedIndexContains_id h] at hrest
      obtain ⟨hfresh, ⟨rfl, rfl, rfl⟩, rfl⟩ := hrest
      have hcode : code = 2 * name.length := by omega
      subst hcode
      refine ⟨rfl, .literal name, ⟨⟨by omega, fun _ => hlt⟩, ?_, ?_, ?_, hstop⟩, rfl, rfl⟩
      · exact fun k hk hclash => hfresh ⟨k, hk, hclash⟩
      · exact at_append.mpr ⟨hat, hbytes⟩
      · simp only [Key.encode, Bool.false_eq_true, if_false, List.length_append]
        omega
    · simp only [returns_ite, returns_fail, and_false, false_or, returns_pure, Prod.mk.injEq,
        idIndexContains_id h] at hrest
      obtain ⟨hrange, hfresh, ⟨rfl, rfl, rfl⟩, rfl⟩ := hrest
      have hcode : 2 * (UInt32.ofNat (code / 2)).toNat + 1 = code := by
        rw [UInt32.toNat_ofNat', Nat.mod_eq_of_lt (by omega)]
        omega
      refine ⟨rfl, .hash (UInt32.ofNat (code / 2)), ⟨rfl, ?_, ?_, ?_, hle⟩, rfl, rfl⟩
      · exact fun k hk hclash => hfresh ⟨k, hk, hclash⟩
      · rw [Key.encode, hcode]
        exact hat
      · simp only [Key.encode, hcode]
  · rintro ⟨rfl, key, ⟨hfits, hfresh, hstands, rfl, hle⟩, rfl, rfl⟩
    cases key with
    | literal bytes =>
      simp only [Key.encode, Bool.false_eq_true, if_false, List.length_append] at hstands hle ⊢
      obtain ⟨hat, hbytes⟩ := at_append.mp hstands
      refine ⟨2 * bytes.length, _, t, ⟨rfl, hfits.2 rfl, hat, rfl, by omega⟩, ?_⟩
      rw [if_pos (by omega), Nat.mul_div_cancel_left _ (by omega)]
      simp only [returns_bind, Prod.exists]
      refine ⟨bytes, _, t,
        (takeString_returns hlimit (by omega)).mpr ⟨rfl, hfits.1, rfl, hbytes, rfl, by omega⟩, ?_⟩
      simp only [returns_ite, returns_fail, and_false, false_or, returns_pure, Prod.mk.injEq,
        namedIndexContains_id h]
      refine ⟨?_, ⟨rfl, rfl, by omega⟩, trivial⟩
      rintro ⟨k, hk, hclash⟩
      exact hfresh k hk hclash
    | hash i =>
      have hi := i.toNat_lt
      simp only [Key.encode] at hstands hle ⊢
      refine ⟨2 * i.toNat + 1, _, t, ⟨rfl, by omega, hstands, rfl, hle⟩, ?_⟩
      have hhalf : (2 * i.toNat + 1) / 2 = i.toNat := by omega
      rw [if_neg (by omega), hhalf, if_neg (by omega), UInt32.ofNat_toNat]
      simp only [returns_ite, returns_fail, and_false, false_or, returns_pure,
        idIndexContains_id h]
      refine ⟨?_, rfl, trivial⟩
      rintro ⟨k, hk, hclash⟩
      exact hfresh k hk hclash

/-- The key of a member, in either kind of object. -/
theorem parseMemberKey_returns {named : Bool} {members : List (Member Node)} {keys : List Key}
    {cursor limit next : ℕ} {name : Bytes} {id : UInt32} (hlimit : limit ≤ inp.size)
    (h : Keyed members keys) (hkeys : ∀ k ∈ keys, k.Fits inp.limits named) :
    Returns (parseMemberKey inp (objectTag named) members cursor limit) s (name, id, next) t ↔
      t = s ∧ ∃ key, KeyAt inp named keys cursor limit key next ∧ name = key.name ∧
        id = key.id := by
  cases named with
  | true =>
    exact parseName_returns hlimit h hkeys
  | false =>
    exact parseKey_returns hlimit h

theorem parseName_failsOnly {members : List (Member Node)} {cursor limit : ℕ}
    (hlimit : limit ≤ inp.size) : FailsOnly IsError (parseName inp members cursor limit) s := by
  refine .bind (readUleb_failsOnly hlimit) fun ⟨size, start⟩ s' hread => ?_
  obtain ⟨-, -, -, -, hle⟩ := (readUleb_returns (by omega) hlimit).mp hread
  refine .bind (takeString_failsOnly hlimit hle) fun _ _ _ => ?_
  exact .ite (fun _ => failsOnly_fail) (fun _ => .pure)

theorem parseKey_failsOnly {members : List (Member Node)} {cursor limit : ℕ}
    (hlimit : limit ≤ inp.size) : FailsOnly IsError (parseKey inp members cursor limit) s := by
  refine .bind (readUleb_failsOnly hlimit) fun ⟨size, start⟩ s' hread => ?_
  obtain ⟨-, -, -, -, hle⟩ := (readUleb_returns (by omega) hlimit).mp hread
  refine .ite (fun _ => ?_) (fun _ => .ite (fun _ => failsOnly_fail) fun _ => ?_)
  · refine .bind (takeString_failsOnly hlimit hle) fun _ _ _ => ?_
    exact .ite (fun _ => failsOnly_fail) (fun _ => .pure)
  · exact .ite (fun _ => failsOnly_fail) (fun _ => .pure)

theorem parseMemberKey_failsOnly {tag : ValueTag} {members : List (Member Node)}
    {cursor limit : ℕ} (hlimit : limit ≤ inp.size) :
    FailsOnly IsError (parseMemberKey inp tag members cursor limit) s :=
  .ite (fun _ => parseName_failsOnly hlimit) (fun _ => parseKey_failsOnly hlimit)

/-! ## Loops over children -/

namespace Wire

theorem encode_ne_nil (w : Wire) : w.encode ≠ [] := by
  cases w <;> exact List.cons_ne_nil _ _

theorem length_encode_pos (w : Wire) : 0 < w.encode.length :=
  List.length_pos_iff.mpr w.encode_ne_nil

theorem length_le_encodeList (ws : List Wire) : ws.length ≤ (encodeList ws).length := by
  induction ws with
  | nil => exact le_refl 0
  | cons w ws ih =>
    have := w.length_encode_pos
    simp only [encodeList, List.length_cons, List.length_append]
    omega

theorem length_le_encodeMembers (named : Bool) (ms : List (Key × Wire)) :
    ms.length ≤ (encodeMembers named ms).length := by
  induction ms with
  | nil => exact le_refl 0
  | cons m ms ih =>
    have := m.2.length_encode_pos
    simp only [encodeMembers, List.length_cons, List.length_append]
    omega

end Wire

/-- A tree that fits stands at the cursor, and this is its node and its cost. -/
structure Stands (inp : Input) (limit depth cursor : ℕ) (w : Wire) (node : Node)
    (next cost : ℕ) : Prop where
  fits : w.Fits inp.limits depth
  stands : At inp.data cursor w.encode
  next_eq : next = cursor + w.encode.length
  next_le : next ≤ limit
  node_eq : node = w.layout cursor depth
  cost_eq : cost = w.charge inp.abi

/-- What a parser of nodes does at a depth. -/
def ChildSpec (inp : Input) (child : ℕ → ℕ → ℕ → ParseM (Node × ℕ)) (limit depth : ℕ) : Prop :=
  ∀ cursor s node next t, depth ≤ cursor → s < 2 ^ 64 →
    (Returns (child cursor limit depth) s (node, next) t ↔
      ∃ w cost, Stands inp limit depth cursor w node next cost ∧ s = t + cost)

section

variable {child : ℕ → ℕ → ℕ → ParseM (Node × ℕ)} {limit depth next : ℕ}

theorem parseElements_returns (hlimit : limit ≤ inp.size)
    (hchild : ChildSpec inp child limit (depth + 1)) {es : List Node} (count : ℕ) :
    ∀ {cursor s : ℕ} {acc : List Node}, depth + 1 ≤ cursor → cursor ≤ limit → s < 2 ^ 64 →
      (Returns (parseElements child limit depth count cursor acc) s (es, next) t ↔
        ∃ ws : List Wire, ws.length = count ∧ Wire.FitsList inp.limits (depth + 1) ws ∧
          At inp.data cursor (Wire.encodeList ws) ∧
          next = cursor + (Wire.encodeList ws).length ∧ next ≤ limit ∧
          es = acc ++ Wire.layoutList cursor (depth + 1) ws ∧
          s = t + Wire.chargeList inp.abi ws) := by
  have hsize := inp.size_lt
  induction count with
  | zero =>
    intro cursor s acc _ hcursor _
    simp only [parseElements, returns_pure, Prod.mk.injEq, List.length_eq_zero_iff,
      exists_eq_left, Wire.FitsList, Wire.encodeList, at_nil, List.length_nil, Nat.add_zero,
      Wire.layoutList, List.append_nil, Wire.chargeList, true_and]
    constructor
    · rintro ⟨⟨rfl, rfl⟩, rfl⟩
      exact ⟨rfl, hcursor, rfl, rfl⟩
    · rintro ⟨rfl, -, rfl, rfl⟩
      exact ⟨⟨rfl, rfl⟩, rfl⟩
  | succ count ih =>
    intro cursor s acc hdepth hcursor hs
    have hwrap : depth + 1 < 2 ^ 64 := by
      unfold Input.size at hlimit
      omega
    simp only [parseElements, addSize_eq hwrap, pure_bind, returns_bind, Prod.exists,
      hchild cursor s _ _ _ hdepth hs]
    constructor
    · rintro ⟨node, mid, s', ⟨w, cost, hw, rfl⟩, hrest⟩
      have hpos := w.length_encode_pos
      rw [ih (by rw [hw.next_eq]; omega) hw.next_le (by omega)] at hrest
      obtain ⟨ws, rfl, hfits, hat, rfl, hle, rfl, rfl⟩ := hrest
      obtain ⟨hfit, hstands, rfl, -, rfl, rfl⟩ := hw
      refine ⟨w :: ws, rfl, ⟨hfit, hfits⟩, at_append.mpr ⟨hstands, hat⟩, ?_, hle, ?_, ?_⟩
      · simp only [Wire.encodeList, List.length_append, Nat.add_assoc]
      · simp only [Wire.layoutList, List.append_assoc, List.singleton_append]
      · simp only [Wire.chargeList]
        omega
    · rintro ⟨ws, hlen, hfits, hat, rfl, hle, rfl, rfl⟩
      cases ws with
      | nil => simp at hlen
      | cons w ws =>
        have hpos := w.length_encode_pos
        obtain ⟨hfit, hfits⟩ := hfits
        obtain ⟨hstands, hat⟩ := at_append.mp hat
        simp only [Wire.encodeList, List.length_append] at hle
        simp only [Wire.chargeList] at hs ⊢
        refine ⟨w.layout cursor (depth + 1), cursor + w.encode.length,
          t + Wire.chargeList inp.abi ws,
          ⟨w, w.charge inp.abi, ⟨hfit, hstands, rfl, by omega, rfl, rfl⟩, by omega⟩, ?_⟩
        rw [ih (by omega) (by omega) (by omega)]
        refine ⟨ws, by simpa using hlen, hfits, hat, ?_, ?_, ?_, rfl⟩
        · simp only [Wire.encodeList, List.length_append, Nat.add_assoc]
        · simp only [Wire.encodeList, List.length_append]
          omega
        · simp only [Wire.layoutList, List.append_assoc, List.singleton_append]

/-- Keys after earlier ones: they fit among themselves, and the next one does not clash. -/
theorem KeysFit.snoc {named : Bool} {keys : List Key} {key : Key} (h : KeysFit named keys)
    (hfresh : ∀ k ∈ keys, ¬Key.Clashes named k key) : KeysFit named (keys ++ [key]) := by
  refine List.pairwise_append.mpr ⟨h, List.pairwise_singleton _ _, fun k hk k' hk' => ?_⟩
  rw [List.mem_singleton.mp hk']
  exact hfresh k hk

theorem parseMembers_returns {named : Bool} (hlimit : limit ≤ inp.size)
    (hchild : ChildSpec inp child limit (depth + 1)) {es : List (Member Node)} (count : ℕ) :
    ∀ {cursor s : ℕ} {acc : List (Member Node)} {keys : List Key}, depth + 1 ≤ cursor →
      cursor ≤ limit → s < 2 ^ 64 → Keyed acc keys → (∀ k ∈ keys, k.Fits inp.limits named) →
      KeysFit named keys →
      (Returns (parseMembers child inp (objectTag named) limit depth count cursor acc) s
          (es, next) t ↔
        ∃ ms : List (Key × Wire), ms.length = count ∧ KeysFit named (keys ++ ms.map Prod.fst) ∧
          Wire.FitsMembers inp.limits named (depth + 1) ms ∧
          At inp.data cursor (Wire.encodeMembers named ms) ∧
          next = cursor + (Wire.encodeMembers named ms).length ∧ next ≤ limit ∧
          es = acc ++ Wire.layoutMembers named cursor (depth + 1) ms ∧
          s = t + Wire.chargeMembers inp.abi ms) := by
  have hsize := inp.size_lt
  induction count with
  | zero =>
    intro cursor s acc keys _ hcursor _ _ _ hfit
    simp only [parseMembers, returns_pure, Prod.mk.injEq, List.length_eq_zero_iff,
      exists_eq_left, List.map_nil, List.append_nil, hfit, Wire.FitsMembers, Wire.encodeMembers,
      at_nil, List.length_nil, Nat.add_zero, Wire.layoutMembers, Wire.chargeMembers, true_and]
    constructor
    · rintro ⟨⟨rfl, rfl⟩, rfl⟩
      exact ⟨rfl, hcursor, rfl, rfl⟩
    · rintro ⟨rfl, -, rfl, rfl⟩
      exact ⟨⟨rfl, rfl⟩, rfl⟩
  | succ count ih =>
    intro cursor s acc keys hdepth hcursor hs hkeyed hkeys hfit
    have hwrap : depth + 1 < 2 ^ 64 := by
      unfold Input.size at hlimit
      omega
    have hall {key : Key} (hkey : key.Fits inp.limits named) :
        ∀ k ∈ keys ++ [key], k.Fits inp.limits named := by
      intro k hk
      obtain hk | hk := List.mem_append.mp hk
      · exact hkeys k hk
      · rw [List.mem_singleton.mp hk]
        exact hkey
    simp only [parseMembers, addSize_eq hwrap, pure_bind, returns_bind, Prod.exists,
      parseMemberKey_returns hlimit hkeyed hkeys]
    constructor
    · rintro ⟨name, id, mid, _, ⟨rfl, key, hkey, rfl, rfl⟩, node, stop, s', hnode, hrest⟩
      have hmid := hkey.next_eq
      obtain ⟨w, cost, hw, rfl⟩ := (hchild mid _ _ _ _ (by omega) hs).mp hnode
      have hpos := w.length_encode_pos
      rw [ih (by rw [hw.next_eq]; omega) hw.next_le (by omega) (hkeyed.append key node)
        (hall hkey.fits) (hfit.snoc hkey.fresh)] at hrest
      obtain ⟨ms, rfl, hdistinct, hfits, hat, rfl, hle, rfl, rfl⟩ := hrest
      obtain ⟨hfitw, hstands, rfl, -, rfl, rfl⟩ := hw
      obtain ⟨hfitk, -, hkeyat, rfl, -⟩ := hkey
      refine ⟨(key, w) :: ms, rfl, ?_, ⟨hfitk, hfitw, hfits⟩,
        at_append.mpr ⟨hkeyat, at_append.mpr ⟨hstands, hat⟩⟩, ?_, hle, ?_, ?_⟩
      · simpa only [List.map_cons, List.append_assoc, List.singleton_append] using hdistinct
      · simp only [Wire.encodeMembers, List.length_append, Nat.add_assoc]
      · simp only [Wire.layoutMembers, List.append_assoc, List.singleton_append]
      · simp only [Wire.chargeMembers]
        omega
    · rintro ⟨ms, hlen, hdistinct, hfits, hat, rfl, hle, rfl, rfl⟩
      cases ms with
      | nil => simp at hlen
      | cons m ms =>
        obtain ⟨key, w⟩ := m
        have hpos := w.length_encode_pos
        obtain ⟨hfitk, hfitw, hfits⟩ := hfits
        obtain ⟨hkeyat, hat⟩ := at_append.mp hat
        obtain ⟨hstands, hat⟩ := at_append.mp hat
        have hfresh : ∀ k ∈ keys, ¬Key.Clashes named k key := fun k hk =>
          (List.pairwise_append.mp hdistinct).2.2 k hk key List.mem_cons_self
        simp only [Wire.encodeMembers, List.length_append] at hle
        simp only [Wire.chargeMembers] at hs ⊢
        refine ⟨key.name, key.id, cursor + (key.encode named).length, _,
          ⟨rfl, key, ⟨hfitk, hfresh, hkeyat, rfl, by omega⟩, rfl, rfl⟩,
          w.layout (cursor + (key.encode named).length) (depth + 1),
          cursor + (key.encode named).length + w.encode.length,
          t + Wire.chargeMembers inp.abi ms, ?_, ?_⟩
        · rw [hchild _ _ _ _ _ (by omega) (by omega)]
          exact ⟨w, w.charge inp.abi, ⟨hfitw, hstands, rfl, by omega, rfl, rfl⟩, by omega⟩
        · rw [ih (by omega) (by omega) (by omega) (hkeyed.append key _) (hall hfitk)
            (hfit.snoc hfresh)]
          refine ⟨ms, by simpa using hlen, ?_, hfits, hat, ?_, ?_, ?_, rfl⟩
          · simpa only [List.map_cons, List.append_assoc, List.singleton_append] using hdistinct
          · simp only [Wire.encodeMembers, List.length_append, Nat.add_assoc]
          · simp only [Wire.encodeMembers, List.length_append]
            omega
          · simp only [Wire.layoutMembers, List.append_assoc, List.singleton_append]

end

end NekoProto.Binary
