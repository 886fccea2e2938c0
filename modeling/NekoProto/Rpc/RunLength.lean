import NekoProto.Rpc.Compression
import Mathlib.Tactic.Common
import Mathlib.Tactic.IntervalCases

/-!
# The run-length round trip

The compressor's output is a concatenation of groups (`compressLoop_eq`), and the expansions of
the groups give the payload back (`expandAll_compressGroups`). The decompressor inverts every
valid group (`decompressStep_group`): a run of 3 to 130 bytes, a literal block of 1 to 128.

A literal block is closed once it holds 128 bytes, but a block of 127 bytes still takes a run of
two. The block of 129 bytes gets the control byte `0x80`, which the decompressor reads as a run
of three. `Aligned` says on the run lengths of the payload that no such block arises
(`valid_compressGroups_iff`).
-/

namespace NekoProto.Rpc

/-! ## Groups -/

/-- A group of the run-length encoding. -/
inductive Group
  | run (byte : UInt8) (count : ℕ)
  | literal (bytes : MessageType)

/-- The bytes a group stands for. -/
def Group.expand : Group → MessageType
  | .run byte count => List.replicate count byte
  | .literal bytes => bytes

/-- The bytes the compressor emits for a group. -/
def Group.encode : Group → MessageType
  | .run byte count => [0x80 ||| UInt8.ofNat (count - 3), byte]
  | .literal bytes => UInt8.ofNat (bytes.length - 1) :: bytes

/-- The groups a control byte can express. -/
def Group.Valid : Group → Prop
  | .run _ count => 3 ≤ count ∧ count ≤ 130
  | .literal bytes => 1 ≤ bytes.length ∧ bytes.length ≤ 128

/-- The groups the compressor emits: a literal block does not start with a run of three, and may
have one byte too many. -/
def Group.Emitted : Group → Prop
  | .run _ count => 3 ≤ count ∧ count ≤ 130
  | .literal bytes =>
    1 ≤ bytes.length ∧ bytes.length ≤ 129 ∧ ∀ b t, bytes ≠ b :: b :: b :: t

def expandAll (gs : List Group) : MessageType := gs.flatMap Group.expand

def encodeAll (gs : List Group) : MessageType := gs.flatMap Group.encode

@[simp] theorem expandAll_nil : expandAll [] = [] := rfl

@[simp] theorem expandAll_cons (g : Group) (gs : List Group) :
    expandAll (g :: gs) = g.expand ++ expandAll gs := by
  simp [expandAll]

@[simp] theorem encodeAll_nil : encodeAll [] = [] := rfl

@[simp] theorem encodeAll_cons (g : Group) (gs : List Group) :
    encodeAll (g :: gs) = g.encode ++ encodeAll gs := by
  simp [encodeAll]

/-! ## Runs -/

/-- The loop over a run stops after `k` more copies of the byte. -/
theorem runFrom_spec (byte : UInt8) (rest : MessageType) : ∀ run, run ≤ 130 →
    ∃ k, runFrom byte run rest = run + k ∧ run + k ≤ 130 ∧
      rest = List.replicate k byte ++ rest.drop k := by
  induction rest with
  | nil => intro run hrun; exact ⟨0, rfl, hrun, rfl⟩
  | cons next rest ih =>
    intro run hrun
    unfold runFrom
    by_cases h : run < 130 ∧ next = byte
    · rw [if_pos h]
      obtain ⟨k, hk, hle, hrest⟩ := ih (run + 1) h.1
      refine ⟨k + 1, by omega, by omega, ?_⟩
      rw [List.replicate_succ, List.drop_succ_cons, List.cons_append, ← hrest, h.2]
    · rw [if_neg h]
      exact ⟨0, rfl, hrun, rfl⟩

/-- The run at the front of a payload. -/
theorem headRun_spec (byte : UInt8) (rest : MessageType) :
    1 ≤ headRun (byte :: rest) ∧ headRun (byte :: rest) ≤ 130 ∧
      (byte :: rest).take (headRun (byte :: rest)) =
        List.replicate (headRun (byte :: rest)) byte := by
  obtain ⟨k, hk, hle, hrest⟩ := runFrom_spec byte rest 1 (by omega)
  have hrun : headRun (byte :: rest) = k + 1 := by
    show runFrom byte 1 rest = k + 1
    omega
  rw [hrun, hrest]
  refine ⟨by omega, by omega, ?_⟩
  rw [List.take_succ_cons, List.take_left' (List.length_replicate ..), List.replicate_succ]

theorem headRun_pos {rest : MessageType} (h : rest ≠ []) : 1 ≤ headRun rest := by
  cases rest with
  | nil => exact absurd rfl h
  | cons byte rest => exact (headRun_spec byte rest).1

theorem headRun_le_length (rest : MessageType) : headRun rest ≤ rest.length := by
  cases rest with
  | nil => exact le_refl 0
  | cons byte rest =>
    have h := congrArg List.length (headRun_spec byte rest).2.2
    rw [List.length_take, List.length_replicate] at h
    omega

theorem length_take_headRun (rest : MessageType) :
    (rest.take (headRun rest)).length = headRun rest := by
  rw [List.length_take]
  exact Nat.min_eq_left (headRun_le_length rest)

/-- Three equal bytes are a run. -/
theorem three_le_headRun (b : UInt8) (t : MessageType) : 3 ≤ headRun (b :: b :: b :: t) := by
  obtain ⟨k, hk, _, _⟩ := runFrom_spec b t 3 (by omega)
  have h : headRun (b :: b :: b :: t) = runFrom b 3 t := by simp [headRun, runFrom]
  omega

/-! ## The run lengths of a payload -/

/-- The run lengths of a payload whose current run holds `n` copies of `byte`. -/
def runLengthsFrom (byte : UInt8) (n : ℕ) : MessageType → List ℕ
  | [] => [n]
  | next :: rest =>
    if n < 130 ∧ next = byte then runLengthsFrom byte (n + 1) rest
    else n :: runLengthsFrom next 1 rest

/-- The lengths of the maximal runs of equal bytes, a run longer than 130 cut into pieces. -/
def runLengths : MessageType → List ℕ
  | [] => []
  | byte :: rest => runLengthsFrom byte 1 rest

/-- No run of two starts 127 bytes into a block of 128, where blocks are counted from the last
run of three or more. `pos` is the number of bytes since then. -/
def Aligned : ℕ → List ℕ → Prop
  | _, [] => True
  | pos, n :: ns =>
    if 3 ≤ n then Aligned 0 ns else ¬(pos % 128 = 127 ∧ n = 2) ∧ Aligned (pos + n) ns

instance Aligned.instDecidable : ∀ pos ns, Decidable (Aligned pos ns)
  | _, [] => isTrue trivial
  | pos, n :: ns =>
    have := Aligned.instDecidable 0 ns
    have := Aligned.instDecidable (pos + n) ns
    inferInstanceAs (Decidable (if 3 ≤ n then Aligned 0 ns
      else ¬(pos % 128 = 127 ∧ n = 2) ∧ Aligned (pos + n) ns))

theorem aligned_add_block (ns : List ℕ) : ∀ pos, Aligned (pos + 128) ns ↔ Aligned pos ns := by
  induction ns with
  | nil => intro pos; exact Iff.rfl
  | cons n ns ih =>
    intro pos
    rw [Aligned, Aligned, Nat.add_mod_right, show pos + 128 + n = pos + n + 128 by omega, ih]

theorem runLengthsFrom_eq (byte : UInt8) (rest : MessageType) : ∀ n,
    runLengthsFrom byte n rest =
      runFrom byte n rest :: runLengths (rest.drop (runFrom byte n rest - n)) := by
  induction rest with
  | nil => intro n; simp [runLengthsFrom, runFrom, runLengths]
  | cons next rest ih =>
    intro n
    unfold runLengthsFrom runFrom
    by_cases h : n < 130 ∧ next = byte
    · obtain ⟨k, hk, _, _⟩ := runFrom_spec byte rest (n + 1) (by omega)
      rw [if_pos h, if_pos h, ih, hk, show n + 1 + k - n = k + 1 by omega,
        show n + 1 + k - (n + 1) = k by omega, List.drop_succ_cons]
    · rw [if_neg h, if_neg h, Nat.sub_self]
      rfl

/-- The first run length is the run at the front, the others are those of what follows it. -/
theorem runLengths_eq {rest : MessageType} (h : rest ≠ []) :
    runLengths rest = headRun rest :: runLengths (rest.drop (headRun rest)) := by
  cases rest with
  | nil => exact absurd rfl h
  | cons byte rest =>
    obtain ⟨k, hk, _, _⟩ := runFrom_spec byte rest 1 (by omega)
    show runLengthsFrom byte 1 rest = _
    rw [runLengthsFrom_eq]
    show _ = runFrom byte 1 rest :: runLengths ((byte :: rest).drop (runFrom byte 1 rest))
    rw [hk, Nat.add_sub_cancel_left, Nat.add_comm 1 k, List.drop_succ_cons]

/-! ## The compressor emits groups -/

/-- The groups of `compressLoop`. -/
def compressGroups : ℕ → MessageType → List Group
  | 0, _ => []
  | _ + 1, [] => []
  | fuel + 1, byte :: tail =>
    let rest := byte :: tail
    let run := headRun rest
    if 3 ≤ run then .run byte run :: compressGroups fuel (rest.drop run)
    else
      let block := literalLoop rest.length (rest.take run) (rest.drop run)
      .literal block.1 :: compressGroups fuel block.2

theorem compressLoop_eq (fuel : ℕ) : ∀ out rest,
    compressLoop fuel out rest = out ++ encodeAll (compressGroups fuel rest) := by
  induction fuel with
  | zero => intro out rest; simp [compressLoop, compressGroups]
  | succ fuel ih =>
    intro out rest
    cases rest with
    | nil => simp [compressLoop, compressGroups]
    | cons byte tail =>
      unfold compressLoop compressGroups
      by_cases h : 3 ≤ headRun (byte :: tail)
      · simp only [if_pos h, ih, encodeAll_cons, Group.encode, List.append_assoc]
      · simp only [if_neg h, ih, encodeAll_cons, Group.encode, List.append_assoc]

/-- The literal loop stops at the end, at a run, and at a full block. -/
theorem literalLoop_stop (fuel : ℕ) {literal rest : MessageType}
    (h : rest = [] ∨ 3 ≤ headRun rest ∨ 128 ≤ literal.length) :
    literalLoop fuel literal rest = (literal, rest) := by
  cases fuel with
  | zero => rfl
  | succ fuel =>
    unfold literalLoop
    rcases h with h | h
    · rw [if_pos h]
    · simp only [if_pos h, ite_self]

/-- Otherwise it takes the run at the front. -/
theorem literalLoop_take (fuel : ℕ) {literal rest : MessageType} (hrest : rest ≠ [])
    (h : ¬(3 ≤ headRun rest ∨ 128 ≤ literal.length)) :
    literalLoop (fuel + 1) literal rest =
      literalLoop fuel (literal ++ rest.take (headRun rest)) (rest.drop (headRun rest)) := by
  conv_lhs => unfold literalLoop
  simp only [if_neg hrest, if_neg h]

/-- The literal loop moves bytes from the rest into the block. -/
theorem literalLoop_moves (fuel : ℕ) : ∀ literal rest,
    literal <+: (literalLoop fuel literal rest).1 ∧
      (literalLoop fuel literal rest).1 ++ (literalLoop fuel literal rest).2 = literal ++ rest := by
  induction fuel with
  | zero => intro literal rest; exact ⟨List.prefix_rfl, rfl⟩
  | succ fuel ih =>
    intro literal rest
    by_cases hstop : rest = [] ∨ 3 ≤ headRun rest ∨ 128 ≤ literal.length
    · rw [literalLoop_stop _ hstop]
      exact ⟨List.prefix_rfl, rfl⟩
    · rw [not_or] at hstop
      rw [literalLoop_take fuel hstop.1 hstop.2]
      obtain ⟨hpre, happ⟩ := ih (literal ++ rest.take (headRun rest)) (rest.drop (headRun rest))
      refine ⟨(List.prefix_append _ _).trans hpre, ?_⟩
      rw [happ, List.append_assoc, List.take_append_drop]

/-- **The literal block.** From a block of at most 128 bytes the loop ends with at most 129, and
with at most 128 iff the runs from here on up to the end of the block are aligned. -/
theorem literalLoop_spec (fuel : ℕ) : ∀ literal rest, rest.length ≤ fuel →
    literal.length ≤ 128 →
    (literalLoop fuel literal rest).1.length ≤ 129 ∧
      (Aligned literal.length (runLengths rest) ↔
        (literalLoop fuel literal rest).1.length ≤ 128 ∧
          Aligned 0 (runLengths (literalLoop fuel literal rest).2)) := by
  induction fuel with
  | zero =>
    intro literal rest hfuel hlit
    obtain rfl : rest = [] := List.eq_nil_of_length_eq_zero (by omega)
    exact ⟨by show literal.length ≤ 129; omega, fun _ => ⟨hlit, trivial⟩, fun _ => trivial⟩
  | succ fuel ih =>
    intro literal rest hfuel hlit
    by_cases hrest : rest = []
    · rw [literalLoop_stop _ (Or.inl hrest), hrest]
      exact ⟨by show literal.length ≤ 129; omega, fun _ => ⟨hlit, trivial⟩, fun _ => trivial⟩
    have hruns := runLengths_eq hrest
    by_cases hrun : 3 ≤ headRun rest
    · -- a run ends the block, and the count of the stretch starts anew
      rw [literalLoop_stop _ (Or.inr (Or.inl hrun)), hruns, Aligned, Aligned, if_pos hrun,
        if_pos hrun]
      exact ⟨by show literal.length ≤ 129; omega, fun h => ⟨hlit, h⟩, fun h => h.2⟩
    by_cases hfull : 128 ≤ literal.length
    · rw [literalLoop_stop _ (Or.inr (Or.inr hfull))]
      have hblock : Aligned literal.length (runLengths rest) ↔ Aligned 0 (runLengths rest) := by
        rw [show literal.length = 0 + 128 by omega, aligned_add_block]
      rw [hblock]
      exact ⟨by show literal.length ≤ 129; omega, fun h => ⟨hlit, h⟩, fun h => h.2⟩
    have hpos := headRun_pos hrest
    have hlen := length_take_headRun rest
    rw [literalLoop_take fuel hrest (by omega), hruns, Aligned, if_neg hrun]
    by_cases hover : literal.length = 127 ∧ headRun rest = 2
    · -- the block grows from 127 to 129 bytes and is closed
      rw [literalLoop_stop _ (Or.inr (Or.inr (by rw [List.length_append]; omega)))]
      rw [List.length_append, hlen]
      exact ⟨by omega, fun h => absurd ⟨by omega, hover.2⟩ h.1, fun h => absurd h.1 (by omega)⟩
    · have hgrow : (literal ++ rest.take (headRun rest)).length =
          literal.length + headRun rest := by
        rw [List.length_append, hlen]
      have hdrop : (rest.drop (headRun rest)).length ≤ fuel := by rw [List.length_drop]; omega
      obtain ⟨hle, hiff⟩ := ih _ _ hdrop (by rw [hgrow]; omega)
      rw [hgrow] at hiff
      refine ⟨hle, ?_⟩
      rw [← hiff]
      exact ⟨fun h => h.2, fun h => ⟨by omega, h⟩⟩

/-- The block `compressLoop` opens with a short run: it is not empty, holds the front of the
payload and leaves fewer bytes. -/
theorem literalBlock_spec {rest : MessageType} (hrest : rest ≠ []) (hrun : ¬3 ≤ headRun rest) :
    let block := literalLoop rest.length (rest.take (headRun rest)) (rest.drop (headRun rest))
    1 ≤ block.1.length ∧ block.1.length ≤ 129 ∧ block.1 ++ block.2 = rest ∧
      (Aligned 0 (runLengths rest) ↔ block.1.length ≤ 128 ∧ Aligned 0 (runLengths block.2)) := by
  intro block
  have hpos := headRun_pos hrest
  have hlen := length_take_headRun rest
  obtain ⟨hpre, happ⟩ :=
    literalLoop_moves rest.length (rest.take (headRun rest)) (rest.drop (headRun rest))
  obtain ⟨hle, hiff⟩ := literalLoop_spec rest.length (rest.take (headRun rest))
    (rest.drop (headRun rest)) (by rw [List.length_drop]; omega) (by omega)
  have hone : 1 ≤ block.1.length := by
    calc 1 ≤ (rest.take (headRun rest)).length := by omega
      _ ≤ block.1.length := hpre.length_le
  refine ⟨hone, hle, happ.trans (List.take_append_drop _ _), ?_⟩
  rw [← hiff, runLengths_eq hrest, Aligned, if_neg hrun, hlen, Nat.zero_add]
  exact ⟨fun h => h.2, fun h => ⟨by omega, h⟩⟩

/-- The groups expand to the payload. -/
theorem expandAll_compressGroups (fuel : ℕ) : ∀ rest, rest.length ≤ fuel →
    expandAll (compressGroups fuel rest) = rest := by
  induction fuel with
  | zero =>
    intro rest h
    obtain rfl : rest = [] := List.eq_nil_of_length_eq_zero (by omega)
    rfl
  | succ fuel ih =>
    intro rest h
    cases rest with
    | nil => rfl
    | cons byte tail =>
      unfold compressGroups
      by_cases hrun : 3 ≤ headRun (byte :: tail)
      · simp only [if_pos hrun, expandAll_cons, Group.expand]
        rw [ih _ (by rw [List.length_drop]; omega), ← (headRun_spec byte tail).2.2,
          List.take_append_drop]
      · obtain ⟨hone, -, happ, -⟩ := literalBlock_spec (List.cons_ne_nil byte tail) hrun
        have hlen := congrArg List.length happ
        rw [List.length_append] at hlen
        simp only [if_neg hrun, expandAll_cons, Group.expand]
        rw [ih _ (by omega), happ]

theorem compressGroups_emitted (fuel : ℕ) : ∀ rest, ∀ g ∈ compressGroups fuel rest,
    g.Emitted := by
  induction fuel with
  | zero => intro rest g hg; exact absurd hg List.not_mem_nil
  | succ fuel ih =>
    intro rest g hg
    cases rest with
    | nil => exact absurd hg List.not_mem_nil
    | cons byte tail =>
      unfold compressGroups at hg
      by_cases hrun : 3 ≤ headRun (byte :: tail)
      · simp only [if_pos hrun, List.mem_cons] at hg
        rcases hg with rfl | hg
        · exact ⟨hrun, (headRun_spec byte tail).2.1⟩
        · exact ih _ g hg
      · simp only [if_neg hrun, List.mem_cons] at hg
        rcases hg with rfl | hg
        · obtain ⟨hone, hle, happ, -⟩ := literalBlock_spec (List.cons_ne_nil byte tail) hrun
          refine ⟨hone, hle, fun b t hb => hrun ?_⟩
          rw [← happ, hb]
          exact three_le_headRun b _
        · exact ih _ g hg

/-- **No block is too long iff the runs are aligned.** -/
theorem valid_compressGroups_iff (fuel : ℕ) : ∀ rest, rest.length ≤ fuel →
    ((∀ g ∈ compressGroups fuel rest, g.Valid) ↔ Aligned 0 (runLengths rest)) := by
  induction fuel with
  | zero =>
    intro rest h
    obtain rfl : rest = [] := List.eq_nil_of_length_eq_zero (by omega)
    exact ⟨fun _ => trivial, fun _ g hg => absurd hg List.not_mem_nil⟩
  | succ fuel ih =>
    intro rest h
    cases rest with
    | nil => exact ⟨fun _ => trivial, fun _ g hg => absurd hg List.not_mem_nil⟩
    | cons byte tail =>
      have hne := List.cons_ne_nil byte tail
      unfold compressGroups
      by_cases hrun : 3 ≤ headRun (byte :: tail)
      · simp only [if_pos hrun, List.forall_mem_cons]
        rw [ih _ (by rw [List.length_drop]; omega), runLengths_eq hne, Aligned, if_pos hrun]
        exact ⟨fun h => h.2, fun h => ⟨⟨hrun, (headRun_spec byte tail).2.1⟩, h⟩⟩
      · obtain ⟨hone, -, happ, hiff⟩ := literalBlock_spec hne hrun
        have hlen := congrArg List.length happ
        rw [List.length_append] at hlen
        simp only [if_neg hrun, List.forall_mem_cons]
        rw [ih _ (by omega), hiff]
        exact ⟨fun h => ⟨h.1.2, h.2⟩, fun h => ⟨⟨hone, h.1⟩, h.2⟩⟩

/-! ## The decompressor on groups -/

/-- The control byte of a run. -/
theorem runControl_spec : ∀ k < 128,
    (0x80 ||| UInt8.ofNat k) &&& 0x80 ≠ 0 ∧ ((0x80 ||| UInt8.ofNat k) &&& 0x7F).toNat = k := by
  decide

/-- The control byte of a literal block of at most 128 bytes. -/
theorem literalControl_spec : ∀ k < 128,
    UInt8.ofNat k &&& 0x80 = 0 ∧ (UInt8.ofNat k).toNat = k := by
  decide

theorem byteAt_append (pre : MessageType) (b : UInt8) (t : MessageType) :
    byteAt (pre ++ b :: t) pre.length = .ok b := by
  unfold byteAt
  rw [List.getElem?_append_right (le_refl _), Nat.sub_self]
  rfl

theorem byteAt_append_succ (pre : MessageType) (a b : UInt8) (t : MessageType) :
    byteAt (pre ++ a :: b :: t) (pre.length + 1) = .ok b := by
  unfold byteAt
  rw [List.getElem?_append_right (by omega), Nat.add_sub_cancel_left]
  rfl

/-- A turn at the control byte `0x80 | k` of a run. -/
theorem decompressStep_run {k : ℕ} (hk : k < 128) (byte : UInt8) (pre post out : MessageType)
    {budget : ℕ} (hbudget : out.length + (k + 3) ≤ budget) :
    decompressStep (pre ++ (0x80 ||| UInt8.ofNat k) :: byte :: post) budget ⟨out, pre.length⟩ =
      .ok ⟨out ++ List.replicate (k + 3) byte, pre.length + 2⟩ := by
  obtain ⟨hbit, hcount⟩ := runControl_spec k hk
  have hroom : ¬(pre ++ (0x80 ||| UInt8.ofNat k) :: byte :: post).length ≤ pre.length + 1 := by
    simp only [List.length_append, List.length_cons]; omega
  have hfits : ¬budget - min budget out.length < k + 3 := by omega
  unfold decompressStep
  simp only [byteAt_append, byteAt_append_succ, bind, Except.bind, if_pos hbit,
    hcount, if_neg hroom, if_neg hfits, pure, Except.pure]

/-- A turn at the control byte of a literal block. -/
theorem decompressStep_literal {bytes : MessageType} (hone : 1 ≤ bytes.length)
    (hle : bytes.length ≤ 128) (pre post out : MessageType) {budget : ℕ}
    (hbudget : out.length + bytes.length ≤ budget) :
    decompressStep (pre ++ UInt8.ofNat (bytes.length - 1) :: (bytes ++ post)) budget
        ⟨out, pre.length⟩ =
      .ok ⟨out ++ bytes, pre.length + 1 + bytes.length⟩ := by
  obtain ⟨hbit, hcount⟩ := literalControl_spec (bytes.length - 1) (by omega)
  have hroom : ¬(pre ++ UInt8.ofNat (bytes.length - 1) :: (bytes ++ post)).length -
      (pre.length + 1) < bytes.length := by
    simp only [List.length_append, List.length_cons]; omega
  have hfits : ¬budget - min budget out.length < bytes.length := by omega
  have hdrop : (pre ++ UInt8.ofNat (bytes.length - 1) :: (bytes ++ post)).drop (pre.length + 1) =
      bytes ++ post := by
    rw [List.drop_append, List.drop_eq_nil_of_le (by omega), Nat.add_sub_cancel_left]
    rfl
  unfold decompressStep
  simp only [byteAt_append, bind, Except.bind, hbit, ne_eq, not_true_eq_false,
    if_false, hcount, Nat.sub_add_cancel hone, if_neg hroom, if_neg hfits, hdrop, List.take_left',
    pure, Except.pure]

/-- A turn on a valid group that fits the budget appends its expansion. -/
theorem decompressStep_group {g : Group} (hg : g.Valid) (pre post out : MessageType) {budget : ℕ}
    (hbudget : out.length + g.expand.length ≤ budget) :
    decompressStep (pre ++ (g.encode ++ post)) budget ⟨out, pre.length⟩ =
      .ok ⟨out ++ g.expand, (pre ++ g.encode).length⟩ := by
  cases g with
  | run byte count =>
    obtain ⟨hge, hle⟩ := hg
    obtain ⟨k, rfl⟩ := Nat.exists_eq_add_of_le' hge
    rw [Group.expand, List.length_replicate] at hbudget
    rw [Group.encode, Nat.add_sub_cancel, List.length_append]
    exact decompressStep_run (by omega) byte pre post out hbudget
  | literal bytes =>
    rw [Group.encode, List.length_append, List.length_cons, Nat.add_comm bytes.length 1,
      ← Nat.add_assoc]
    exact decompressStep_literal hg.1 hg.2 pre post out hbudget

/-- The two ways a turn succeeds. -/
theorem decompressStep_cases {payload : MessageType} {budget : ℕ} {s s' : DecompressState}
    (h : decompressStep payload budget s = .ok s') :
    ∃ control, payload[s.offset]? = some control ∧
      ((control &&& 0x80 ≠ 0 ∧ ∃ value, payload[s.offset + 1]? = some value ∧
          s' = ⟨s.out ++ List.replicate ((control &&& 0x7F).toNat + 3) value, s.offset + 2⟩) ∨
        (control &&& 0x80 = 0 ∧ control.toNat + 1 ≤ payload.length - (s.offset + 1) ∧
          s' = ⟨s.out ++ (payload.drop (s.offset + 1)).take (control.toNat + 1),
            s.offset + 1 + (control.toNat + 1)⟩)) ∧
      s'.out.length ≤ budget := by
  unfold decompressStep byteAt at h
  cases hc : payload[s.offset]? with
  | none => rw [hc] at h; exact absurd h (by simp [bind, Except.bind])
  | some control =>
    rw [hc] at h
    refine ⟨control, rfl, ?_⟩
    simp only [bind, Except.bind, pure, Except.pure] at h
    split_ifs at h with hbit hroom hfits hroom hfits
    · cases hv : payload[s.offset + 1]? with
      | none => rw [hv] at h; exact absurd h (by simp)
      | some value =>
        rw [hv] at h
        obtain rfl := Except.ok.inj h
        refine ⟨Or.inl ⟨hbit, value, rfl, rfl⟩, ?_⟩
        simp only [List.length_append, List.length_replicate]
        omega
    · obtain rfl := Except.ok.inj h
      refine ⟨Or.inr ⟨not_not.mp hbit, by omega, rfl⟩, ?_⟩
      simp only [List.length_append, List.length_take, List.length_drop]
      omega

/-- A run of the loop only appends to the output. -/
theorem decompressLoop_prefix {payload : MessageType} {budget : ℕ} (fuel : ℕ) :
    ∀ {s s' : DecompressState}, decompressLoop payload budget fuel s = .ok s' →
      s.out <+: s'.out := by
  induction fuel with
  | zero =>
    intro s s' h
    obtain rfl := Except.ok.inj h
    exact List.prefix_rfl
  | succ fuel ih =>
    intro s s' h
    unfold decompressLoop at h
    split_ifs at h with hlt
    · cases hstep : decompressStep payload budget s with
      | error e => rw [hstep] at h; exact absurd h (by simp [bind, Except.bind])
      | ok s₁ =>
        rw [hstep] at h
        obtain ⟨_, _, ⟨_, _, _, rfl⟩ | ⟨_, _, rfl⟩, _⟩ := decompressStep_cases hstep
        · exact (List.prefix_append _ _).trans (ih h)
        · exact (List.prefix_append _ _).trans (ih h)
    · obtain rfl := Except.ok.inj h
      exact List.prefix_rfl

/-- One turn of the loop, at the first of the remaining groups. -/
theorem decompressLoop_cons {payload : MessageType} {budget fuel : ℕ} {s s₁ : DecompressState}
    (hlt : s.offset < payload.length) (hstep : decompressStep payload budget s = .ok s₁) :
    decompressLoop payload budget (fuel + 1) s = decompressLoop payload budget fuel s₁ := by
  conv_lhs => unfold decompressLoop
  rw [if_pos hlt, hstep]
  rfl

theorem Group.encode_length_pos (g : Group) : 0 < g.encode.length := by
  cases g with
  | run byte count => exact Nat.zero_lt_two
  | literal bytes => exact Nat.succ_pos _

theorem length_le_length_encodeAll (gs : List Group) : gs.length ≤ (encodeAll gs).length := by
  induction gs with
  | nil => exact le_refl 0
  | cons g gs ih =>
    have := g.encode_length_pos
    rw [encodeAll_cons, List.length_append, List.length_cons]
    omega

/-- **Valid groups are read back.** -/
theorem decompressLoop_groups {budget : ℕ} (gs : List Group) : ∀ (pre out : MessageType) (fuel : ℕ),
    (∀ g ∈ gs, g.Valid) → gs.length ≤ fuel → out.length + (expandAll gs).length ≤ budget →
    decompressLoop (pre ++ encodeAll gs) budget fuel ⟨out, pre.length⟩ =
      .ok ⟨out ++ expandAll gs, (pre ++ encodeAll gs).length⟩ := by
  induction gs with
  | nil =>
    intro pre out fuel _ _ _
    have hend : ¬pre.length < (pre ++ encodeAll []).length := by simp
    cases fuel with
    | zero => simp [decompressLoop]
    | succ fuel =>
      unfold decompressLoop
      rw [if_neg hend]
      simp
  | cons g gs ih =>
    intro pre out fuel hvalid hfuel hbudget
    obtain ⟨fuel, rfl⟩ := Nat.exists_eq_add_of_le' (Nat.one_le_of_lt hfuel)
    rw [expandAll_cons, List.length_append] at hbudget
    have hpos := g.encode_length_pos
    rw [encodeAll_cons, expandAll_cons, decompressLoop_cons (by simp; omega)
      (decompressStep_group (hvalid g List.mem_cons_self) pre _ out (by omega)),
      ← List.append_assoc, ← List.append_assoc]
    exact ih _ _ fuel (fun g hg => hvalid g (List.mem_cons_of_mem _ hg))
      (Nat.le_of_succ_le_succ hfuel) (by rw [List.length_append]; omega)

/-- The block of 129 bytes is read as a run of three: if the loop goes on to succeed, its output
repeats the block's first byte three times. -/
theorem decompressLoop_literal_overrun {budget fuel : ℕ} {b : UInt8} {t : MessageType}
    (ht : (b :: t).length = 129) (pre post out : MessageType) {s' : DecompressState}
    (h : decompressLoop (pre ++ ((Group.literal (b :: t)).encode ++ post)) budget (fuel + 1)
      ⟨out, pre.length⟩ = .ok s') :
    out ++ [b, b, b] <+: s'.out := by
  rw [Group.encode, ht, List.cons_append, List.cons_append] at h
  unfold decompressLoop at h
  rw [if_pos (by simp)] at h
  cases hstep : decompressStep (pre ++ UInt8.ofNat (129 - 1) :: b :: (t ++ post)) budget
      ⟨out, pre.length⟩ with
  | error e => rw [hstep] at h; exact absurd h (by simp [bind, Except.bind])
  | ok s₁ =>
    rw [hstep] at h
    have hout := decompressLoop_prefix fuel h
    obtain ⟨control, hcontrol, hcase, -⟩ := decompressStep_cases hstep
    have hfirst := byteAt_append pre (UInt8.ofNat (129 - 1)) (b :: (t ++ post))
    have hsecond := byteAt_append_succ pre (UInt8.ofNat (129 - 1)) b (t ++ post)
    unfold byteAt at hfirst hsecond
    rw [hcontrol] at hfirst
    obtain rfl := Except.ok.inj hfirst
    rcases hcase with ⟨_, value, hvalue, rfl⟩ | ⟨hbit, _, _⟩
    · rw [hvalue] at hsecond
      obtain rfl := Except.ok.inj hsecond
      exact hout
    · exact absurd hbit (by decide)

/-- A block that is too long is not read back. -/
theorem decompressLoop_overrun {budget : ℕ} (gs : List Group) :
    ∀ (pre out : MessageType) (fuel : ℕ) {s' : DecompressState},
    (∀ g ∈ gs, g.Emitted) → ¬(∀ g ∈ gs, g.Valid) → gs.length ≤ fuel →
    out.length + (expandAll gs).length ≤ budget →
    decompressLoop (pre ++ encodeAll gs) budget fuel ⟨out, pre.length⟩ = .ok s' →
    s'.out ≠ out ++ expandAll gs := by
  induction gs with
  | nil => intro pre out fuel s' _ hinvalid; exact absurd (fun g hg => absurd hg (by simp)) hinvalid
  | cons g gs ih =>
    intro pre out fuel s' hemitted hinvalid hfuel hbudget h
    obtain ⟨fuel, rfl⟩ := Nat.exists_eq_add_of_le' (Nat.one_le_of_lt hfuel)
    rw [expandAll_cons, List.length_append] at hbudget
    rw [encodeAll_cons] at h
    have hg := hemitted g List.mem_cons_self
    by_cases hvalid : g.Valid
    · have hpos := g.encode_length_pos
      rw [decompressLoop_cons (by simp; omega)
        (decompressStep_group hvalid pre _ out (by omega)), ← List.append_assoc] at h
      rw [expandAll_cons, ← List.append_assoc]
      refine ih _ _ fuel (fun g hg => hemitted g (List.mem_cons_of_mem _ hg)) (fun hall => ?_)
        (Nat.le_of_succ_le_succ hfuel) (by rw [List.length_append]; omega) h
      exact hinvalid (List.forall_mem_cons.mpr ⟨hvalid, hall⟩)
    · cases g with
      | run byte count => exact absurd hg hvalid
      | literal bytes =>
        obtain ⟨hone, hle, hrun⟩ := hg
        have hlen : bytes.length = 129 := by
          by_contra hne
          exact hvalid ⟨hone, by omega⟩
        match bytes, hlen with
        | b :: b₁ :: b₂ :: t, hlen =>
          intro heq
          have hpre := decompressLoop_literal_overrun hlen pre _ out h
          rw [heq, List.prefix_append_right_inj] at hpre
          obtain ⟨t', ht'⟩ := hpre
          simp only [Group.expand, expandAll_cons, List.cons_append, List.cons.injEq] at ht'
          exact hrun b t (by rw [← ht'.2.1, ← ht'.2.2.1])

/-! ## The round trip -/

theorem compressRunLength_eq (payload : MessageType) :
    compressRunLength payload = encodeAll (compressGroups payload.length payload) := by
  unfold compressRunLength
  rw [compressLoop_eq, List.nil_append]

/-- An aligned payload comes back. -/
theorem decompress_compress_of_aligned {payload : MessageType} {budget : ℕ}
    (hbudget : payload.length ≤ budget) (h : Aligned 0 (runLengths payload)) :
    decompressRunLength (compressRunLength payload) budget = .ok payload := by
  have hexpand := expandAll_compressGroups payload.length payload le_rfl
  have hvalid := (valid_compressGroups_iff payload.length payload le_rfl).mpr h
  rw [compressRunLength_eq]
  unfold decompressRunLength
  have hfits : 0 + (expandAll (compressGroups payload.length payload)).length ≤ budget := by
    rw [hexpand, Nat.zero_add]
    exact hbudget
  have hloop := decompressLoop_groups _ [] []
    (encodeAll (compressGroups payload.length payload)).length hvalid
    (length_le_length_encodeAll _) hfits
  rw [List.nil_append, List.nil_append, hexpand] at hloop
  rw [show ([] : MessageType).length = 0 from rfl] at hloop
  rw [hloop]
  rfl

/-- A payload that is not aligned does not come back. -/
theorem decompress_compress_of_not_aligned {payload : MessageType} {budget : ℕ}
    (hbudget : payload.length ≤ budget) (h : ¬Aligned 0 (runLengths payload)) :
    decompressRunLength (compressRunLength payload) budget ≠ .ok payload := by
  have hexpand := expandAll_compressGroups payload.length payload le_rfl
  have hinvalid := mt (valid_compressGroups_iff payload.length payload le_rfl).mp h
  rw [compressRunLength_eq]
  intro hok
  unfold decompressRunLength at hok
  cases hloop : decompressLoop (encodeAll (compressGroups payload.length payload)) budget
      (encodeAll (compressGroups payload.length payload)).length ⟨[], 0⟩ with
  | error e => rw [hloop] at hok; exact absurd hok (by simp [bind, Except.bind])
  | ok s =>
    rw [hloop] at hok
    refine decompressLoop_overrun _ [] [] _
      (compressGroups_emitted payload.length payload) hinvalid
      (length_le_length_encodeAll _) (by rw [hexpand, List.length_nil]; omega) hloop ?_
    rw [hexpand, List.nil_append]
    exact Except.ok.inj hok

/-- **The run-length round trip.** A payload comes back, under every budget that holds it, exactly
when its short runs are aligned. -/
theorem runLength_roundtrip_iff (payload : MessageType) (budget : ℕ)
    (hbudget : payload.length ≤ budget) :
    (∀ encoded, compress payload .runLength = .ok encoded →
        decompress encoded .runLength budget = .ok payload) ↔
      Aligned 0 (runLengths payload) := by
  constructor
  · intro h
    by_contra hnot
    exact decompress_compress_of_not_aligned hbudget hnot (h _ rfl)
  · intro h encoded hencoded
    obtain rfl := Except.ok.inj hencoded
    exact decompress_compress_of_aligned hbudget h

theorem runLength_roundtrip_five :
    Aligned 0 (runLengths [7, 7, 7, 1, 2]) ∧
      ∀ encoded, compress [7, 7, 7, 1, 2] .runLength = .ok encoded →
        decompress encoded .runLength 5 = .ok [7, 7, 7, 1, 2] :=
  ⟨by decide, (runLength_roundtrip_iff [7, 7, 7, 1, 2] 5 (by decide)).mpr (by decide)⟩

/-- 127 bytes without a repetition, then a run of two. -/
def overrunPayload : MessageType := (List.range 127).map UInt8.ofNat ++ [0, 0]

theorem runLength_roundtrip_fails :
    ¬∀ (payload : MessageType) (budget : ℕ), payload.length ≤ budget →
      ∀ encoded, compress payload .runLength = .ok encoded →
        decompress encoded .runLength budget = .ok payload := by
  intro h
  have hok := h overrunPayload 129 (by decide +kernel) _ rfl
  have herror : decompress (compressRunLength overrunPayload) .runLength 129 ≠
      .ok overrunPayload := by decide +kernel
  exact herror hok

end NekoProto.Rpc
