import NekoProto.Rpc.RunLength

/-!
# What the run-length decompressor accepts

The decompressor accepts exactly the concatenations of complete groups whose expansion fits the
budget, and gives the expansion (`decompress_runLength_strict`).

1. A turn that succeeds has read one valid group (`decompressStep_group_of_ok`), so a loop that
   succeeds has read a list of them (`decompressLoop_groups_of_ok`).
2. In every state that the loop visits the output is within the budget and the offset within the
   payload (`Visited.bounds`), and no turn reads behind the payload.
-/

namespace NekoProto.Rpc

/-! ## Groups that are read -/

theorem controls_spec : ∀ k < 256,
    (UInt8.ofNat k &&& 0x80 ≠ 0 →
      UInt8.ofNat k = 0x80 ||| UInt8.ofNat (UInt8.ofNat k &&& 0x7F).toNat ∧
        (UInt8.ofNat k &&& 0x7F).toNat < 128) ∧
      (UInt8.ofNat k &&& 0x80 = 0 → (UInt8.ofNat k).toNat < 128) := by
  decide +kernel

/-- The control byte of a run. -/
theorem runControl_of_bit {control : UInt8} (h : control &&& 0x80 ≠ 0) :
    control = 0x80 ||| UInt8.ofNat (control &&& 0x7F).toNat ∧ (control &&& 0x7F).toNat < 128 := by
  have hspec := (controls_spec control.toNat control.toNat_lt).1
  rw [UInt8.ofNat_toNat] at hspec
  exact hspec h

/-- The control byte of a literal block. -/
theorem literalControl_of_bit {control : UInt8} (h : control &&& 0x80 = 0) :
    control.toNat < 128 := by
  have hspec := (controls_spec control.toNat control.toNat_lt).2
  rw [UInt8.ofNat_toNat] at hspec
  exact hspec h

theorem drop_eq_cons {α : Type} {l : List α} {i : ℕ} {a : α} (h : l[i]? = some a) :
    l.drop i = a :: l.drop (i + 1) := by
  obtain ⟨hlt, rfl⟩ := List.getElem?_eq_some_iff.mp h
  exact List.drop_eq_getElem_cons hlt

/-- **A turn** that succeeds reads one valid group. -/
theorem decompressStep_group_of_ok {payload : MessageType} {budget : ℕ} {s s' : DecompressState}
    (h : decompressStep payload budget s = .ok s') :
    ∃ g : Group, g.Valid ∧ payload.drop s.offset = g.encode ++ payload.drop s'.offset ∧
      s'.out = s.out ++ g.expand ∧ s.offset < s'.offset ∧ s'.offset ≤ payload.length ∧
      s'.out.length ≤ budget := by
  obtain ⟨control, hcontrol, hcase, hbudget⟩ := decompressStep_cases h
  have hlt : s.offset < payload.length := (List.getElem?_eq_some_iff.mp hcontrol).1
  rcases hcase with ⟨hbit, value, hvalue, rfl⟩ | ⟨hbit, hfits, rfl⟩
  · obtain ⟨hencode, hcount⟩ := runControl_of_bit hbit
    have hlt' : s.offset + 1 < payload.length := (List.getElem?_eq_some_iff.mp hvalue).1
    refine ⟨.run value ((control &&& 0x7F).toNat + 3), ⟨by omega, by omega⟩, ?_, rfl, by simp, hlt',
      hbudget⟩
    rw [Group.encode, Nat.add_sub_cancel, ← hencode, drop_eq_cons hcontrol, drop_eq_cons hvalue]
    rfl
  · have hcount := literalControl_of_bit hbit
    have hlength : ((payload.drop (s.offset + 1)).take (control.toNat + 1)).length =
        control.toNat + 1 := by
      rw [List.length_take, List.length_drop]
      omega
    refine ⟨.literal ((payload.drop (s.offset + 1)).take (control.toNat + 1)), ?_, ?_, rfl, ?_, ?_,
      hbudget⟩
    · show 1 ≤ _ ∧ _ ≤ 128
      rw [hlength]
      omega
    · show _ = UInt8.ofNat (_ - 1) :: (_ ++ payload.drop (s.offset + 1 + (control.toNat + 1)))
      have hdrop : payload.drop (s.offset + 1 + (control.toNat + 1)) =
          (payload.drop (s.offset + 1)).drop (control.toNat + 1) := List.drop_drop.symm
      rw [hlength, Nat.add_sub_cancel, UInt8.ofNat_toNat, drop_eq_cons hcontrol, hdrop,
        List.take_append_drop]
    · show s.offset < s.offset + 1 + (control.toNat + 1)
      omega
    · show s.offset + 1 + (control.toNat + 1) ≤ payload.length
      omega

/-- **The loop**, from an offset from which the fuel lasts. -/
theorem decompressLoop_groups_of_ok {payload : MessageType} {budget : ℕ} (fuel : ℕ) :
    ∀ {s s' : DecompressState}, s.offset ≤ payload.length → payload.length ≤ s.offset + fuel →
      s.out.length ≤ budget → decompressLoop payload budget fuel s = .ok s' →
      ∃ gs : List Group, (∀ g ∈ gs, g.Valid) ∧ payload.drop s.offset = encodeAll gs ∧
        s'.out = s.out ++ expandAll gs ∧ s'.out.length ≤ budget := by
  have hdone : ∀ s : DecompressState, payload.length ≤ s.offset → s.out.length ≤ budget →
      ∃ gs : List Group, (∀ g ∈ gs, g.Valid) ∧ payload.drop s.offset = encodeAll gs ∧
        s.out = s.out ++ expandAll gs ∧ s.out.length ≤ budget := by
    intro s hend hbudget
    exact ⟨[], List.forall_mem_nil _, List.drop_eq_nil_of_le hend, (List.append_nil _).symm,
      hbudget⟩
  induction fuel with
  | zero =>
    intro s s' _ hfuel hbudget h
    obtain rfl := Except.ok.inj h
    exact hdone s hfuel hbudget
  | succ fuel ih =>
    intro s s' hoffset hfuel hbudget h
    unfold decompressLoop at h
    split_ifs at h with hlt
    · cases hstep : decompressStep payload budget s with
      | error e =>
        rw [hstep] at h
        cases h
      | ok s₁ =>
        rw [hstep] at h
        obtain ⟨g, hg, hread, hout, hmoved, hoffset₁, hbudget₁⟩ :=
          decompressStep_group_of_ok hstep
        obtain ⟨gs, hgs, hrest, hout', hbudget'⟩ := ih hoffset₁ (by omega) hbudget₁ h
        refine ⟨g :: gs, List.forall_mem_cons.mpr ⟨hg, hgs⟩, ?_, ?_, hbudget'⟩
        · rw [hread, hrest, encodeAll_cons]
        · rw [hout', hout, expandAll_cons, List.append_assoc]
    · obtain rfl := Except.ok.inj h
      exact hdone s (by omega) hbudget

/-- A list of groups is read back, within the budget. -/
theorem decompressRunLength_groups {gs : List Group} {budget : ℕ} (hgs : ∀ g ∈ gs, g.Valid)
    (hbudget : (expandAll gs).length ≤ budget) :
    decompressRunLength (encodeAll gs) budget = .ok (expandAll gs) := by
  have hloop := decompressLoop_groups gs [] [] (encodeAll gs).length hgs
    (length_le_length_encodeAll gs) ((Nat.zero_add _).trans_le hbudget)
  rw [List.nil_append, List.nil_append] at hloop
  unfold decompressRunLength
  show (decompressLoop (encodeAll gs) budget (encodeAll gs).length ⟨[], ([] : MessageType).length⟩
    >>= fun s => pure s.out) = _
  rw [hloop]
  rfl

/-! ## States of the loop -/

/-- The states in which the loop condition is looked at. -/
inductive Visited (payload : MessageType) (budget : ℕ) : DecompressState → Prop
  | start : Visited payload budget { out := [], offset := 0 }
  | turn {s s' : DecompressState} : Visited payload budget s → s.offset < payload.length →
      decompressStep payload budget s = .ok s' → Visited payload budget s'

/-- In every state the output is within the budget and the offset within the payload. -/
theorem Visited.bounds {payload : MessageType} {budget : ℕ} {s : DecompressState}
    (h : Visited payload budget s) : s.out.length ≤ budget ∧ s.offset ≤ payload.length := by
  induction h with
  | start => exact ⟨Nat.zero_le _, Nat.zero_le _⟩
  | turn _ _ hstep _ =>
    obtain ⟨g, -, -, -, -, hoffset, hbudget⟩ := decompressStep_group_of_ok hstep
    exact ⟨hbudget, hoffset⟩

/-- A turn in front of the end of the payload reads only what is there. -/
theorem decompressStep_inBounds {payload : MessageType} {budget : ℕ} {s : DecompressState}
    (h : s.offset < payload.length) : decompressStep payload budget s ≠ .error .outOfBounds := by
  have hcontrol : byteAt payload s.offset = .ok (payload[s.offset]) := by
    unfold byteAt
    rw [List.getElem?_eq_getElem h]
  unfold decompressStep
  rw [hcontrol]
  simp only [bind, Except.bind, pure, Except.pure, throw, throwThe, MonadExceptOf.throw]
  intro heq
  split_ifs at heq with hbit hroom hfits hroom hfits
  · cases heq
  · cases heq
  · have hvalue : byteAt payload (s.offset + 1) = .ok (payload[s.offset + 1]) := by
      unfold byteAt
      rw [List.getElem?_eq_getElem (Nat.lt_of_not_le hroom)]
    rw [hvalue] at heq
    cases heq
  · cases heq
  · cases heq

/-- A run of the loop does not leave the payload. -/
theorem decompressLoop_inBounds {payload : MessageType} {budget : ℕ} (fuel : ℕ) :
    ∀ s, decompressLoop payload budget fuel s ≠ .error .outOfBounds := by
  induction fuel with
  | zero =>
    intro s h
    cases h
  | succ fuel ih =>
    intro s h
    unfold decompressLoop at h
    split_ifs at h with hlt
    cases hstep : decompressStep payload budget s with
    | error e =>
      rw [hstep] at h
      cases h
      exact decompressStep_inBounds hlt hstep
    | ok s₁ =>
      rw [hstep] at h
      exact ih s₁ h

/-! ## The decompressor -/

/-- **The run-length decompressor** accepts a payload iff it is a concatenation of complete groups
whose expansion fits the budget, and gives the expansion. On the way the output never exceeds the
budget, and nothing is read behind the payload. -/
theorem decompress_runLength_strict (payload : MessageType) (budget : ℕ) :
    (∀ out, decompress payload .runLength budget = .ok out ↔
      ∃ gs : List Group, (∀ g ∈ gs, g.Valid) ∧ payload = encodeAll gs ∧
        (expandAll gs).length ≤ budget ∧ out = expandAll gs) ∧
    decompress payload .runLength budget ≠ .error .outOfBounds ∧
    ∀ s, Visited payload budget s → s.out.length ≤ budget ∧ s.offset ≤ payload.length ∧
      (s.offset < payload.length → decompressStep payload budget s ≠ .error .outOfBounds) := by
  refine ⟨fun out => ⟨fun h => ?_, ?_⟩, fun h => ?_, fun s hs => ?_⟩
  · change decompressRunLength payload budget = .ok out at h
    unfold decompressRunLength at h
    cases hloop : decompressLoop payload budget payload.length { out := [], offset := 0 } with
    | error e =>
      rw [hloop] at h
      cases h
    | ok s =>
      rw [hloop] at h
      obtain ⟨gs, hgs, hread, hout, hbudget⟩ := decompressLoop_groups_of_ok payload.length
        (Nat.zero_le _) (Nat.le_add_left _ _) (Nat.zero_le _) hloop
      rw [List.nil_append] at hout
      refine ⟨gs, hgs, hread, hout ▸ hbudget, ?_⟩
      exact (Except.ok.inj h).symm.trans hout
  · rintro ⟨gs, hgs, rfl, hbudget, rfl⟩
    exact decompressRunLength_groups hgs hbudget
  · change decompressRunLength payload budget = .error .outOfBounds at h
    unfold decompressRunLength at h
    cases hloop : decompressLoop payload budget payload.length { out := [], offset := 0 } with
    | error e =>
      rw [hloop] at h
      cases h
      exact decompressLoop_inBounds _ _ hloop
    | ok s =>
      rw [hloop] at h
      cases h
  · exact ⟨hs.bounds.1, hs.bounds.2, decompressStep_inBounds⟩

end NekoProto.Rpc
