import NekoProto.Types.Base64
import Mathlib.Data.List.Basic
import Mathlib.Data.List.Induction
import Mathlib.Tactic.IntervalCases

/-!
# What the Base64 decoder accepts

For every input the decoder stays inside its buffers, has a proper length and accepts only Base64,
unless the input is longer than an `int` can hold, or its length is a multiple of four and it is no
Base64, or the log of another length finds no end of it (`decode_strict_iff`).

1. The bytes behind the last one that is not `'='` are the padding (`Padded`). If there are only
   signs `'='`, the loop over them runs out of the input.
2. The groups and the tail take `outputLength` bytes of output. The decoder makes room for as many
   iff there are at most three signs `'='`.
-/

namespace NekoProto.Base64Covert

open Binary (Bytes)

/-! ## Base64 -/

/-- A string over the alphabet with a length that is a multiple of four, padded at its end. -/
def IsBase64 (data : Bytes) : Prop :=
  data.length % 4 = 0 ∧ ∃ body padding, data = body ++ List.replicate padding equalsSign ∧
    padding ≤ 2 ∧ ∀ ch ∈ body, ch ∈ table

/-- The input ends with exactly `padding` signs `'='`, behind `body`. -/
def Padded (data body : Bytes) (padding : ℕ) : Prop :=
  data = body ++ List.replicate padding equalsSign ∧ ∀ ch ∈ body.getLast?, ch ≠ equalsSign

theorem equalsSign_notMem_table : equalsSign ∉ table := by decide +kernel

theorem exists_padded (data : Bytes) : ∃ body padding, Padded data body padding := by
  induction data using List.reverseRecOn with
  | nil => exact ⟨[], 0, rfl, fun ch h => absurd h (by simp)⟩
  | append_singleton data last ih =>
    by_cases hlast : last = equalsSign
    · obtain ⟨body, padding, rfl, hbody⟩ := ih
      refine ⟨body, padding + 1, ?_, hbody⟩
      rw [hlast, List.replicate_succ', List.append_assoc]
    · refine ⟨data ++ [last], 0, (List.append_nil _).symm, ?_⟩
      intro ch hch
      rw [List.getLast?_concat] at hch
      cases hch
      exact hlast

theorem Padded.length_le {data body body' : Bytes} {padding padding' : ℕ}
    (h : Padded data body padding) (h' : Padded data body' padding') :
    body'.length ≤ body.length := by
  by_contra hlt
  have hpos : body'.length - 1 < body'.length := by omega
  have hlast : data[body'.length - 1]? = body'.getLast? := by
    rw [h'.1, List.getElem?_append_left hpos, List.getLast?_eq_getElem?]
  have hpadding : data[body'.length - 1]? = some equalsSign := by
    have hlength := (congrArg List.length h.1).symm.trans (congrArg List.length h'.1)
    simp only [List.length_append, List.length_replicate] at hlength
    rw [h.1, List.getElem?_append_right (by omega), List.getElem?_replicate, if_pos (by omega)]
  exact h'.2 equalsSign (hlast.symm.trans hpadding) rfl

/-- What stands before the padding of Base64 has no padding of its own. -/
theorem isBase64_iff {data body : Bytes} {padding : ℕ} (h : Padded data body padding)
    (hlength : data.length % 4 = 0) :
    IsBase64 data ↔ padding ≤ 2 ∧ ∀ ch ∈ body, ch ∈ table := by
  constructor
  · rintro ⟨-, body', padding', hdata, hle, htable⟩
    have h' : Padded data body' padding' := by
      refine ⟨hdata, ?_⟩
      rintro ch hch rfl
      exact equalsSign_notMem_table (htable _ (List.mem_of_getLast? hch))
    have hsame : body.length = body'.length := le_antisymm (h'.length_le h) (h.length_le h')
    obtain ⟨rfl, hpadding⟩ := List.append_inj (h.1.symm.trans hdata) hsame
    have hcount := congrArg List.length hpadding
    rw [List.length_replicate, List.length_replicate] at hcount
    exact ⟨hcount.trans_le hle, htable⟩
  · rintro ⟨hle, htable⟩
    exact ⟨hlength, body, padding, h.1, hle, htable⟩

/-! ## Accesses inside the buffers -/

section

variable {null : UInt8} {logged : Bool} {behind data buf : Bytes} {cptr bufptr : ℕ}

theorem digit_ok (h : cptr < data.length) :
    digit null data cptr = .ok (queryTable null data[cptr]) := by
  unfold digit readAt
  rw [List.getElem?_eq_getElem h]
  rfl

theorem writeAt_ok {byte : UInt8} (h : bufptr < buf.length) :
    writeAt buf bufptr byte = .ok (buf.set bufptr byte) := if_pos h

theorem writeAt_outOfOutput {byte : UInt8} (h : buf.length ≤ bufptr) :
    writeAt buf bufptr byte = .error .outOfOutput := if_neg (Nat.not_lt.mpr h)

theorem length_resize {size : ℕ} : (resize buf size).length = size := by
  unfold resize
  rw [List.length_append, List.length_take, List.length_replicate]
  omega

/-! ## Groups -/

/-- The three bytes of four digits, stored at an offset. -/
def storeGroup (buf : Bytes) (bufptr : ℕ) (a b c d : UInt8) : Bytes :=
  ((buf.set bufptr (a <<< 2 ||| b >>> 4)).set (bufptr + 1) (b <<< 4 ||| c >>> 2)).set (bufptr + 2)
    (c <<< 6 ||| d)

theorem length_storeGroup {a b c d : UInt8} :
    (storeGroup buf bufptr a b c d).length = buf.length := by
  unfold storeGroup
  rw [List.length_set, List.length_set, List.length_set]

/-- The first group is read, and its three bytes are stored if there is room for them. -/
theorem decodeGroups_group {datalen : ℕ} {a b c d : UInt8} (ha : digit null data cptr = .ok a)
    (hb : digit null data (cptr + 1) = .ok b) (hc : digit null data (cptr + 2) = .ok c)
    (hd : digit null data (cptr + 3) = .ok d) (hbuf : bufptr + 3 ≤ buf.length) :
    decodeGroups null data (datalen + 4) cptr bufptr buf =
      decodeGroups null data datalen (cptr + 4) (bufptr + 3) (storeGroup buf bufptr a b c d) := by
  conv_lhs => unfold decodeGroups
  rw [ha, hb, hc, hd]
  simp only [bind, Except.bind]
  rw [writeAt_ok (show bufptr < buf.length by omega)]
  simp only
  rw [writeAt_ok (by rw [List.length_set]; omega)]
  simp only
  rw [writeAt_ok (by rw [List.length_set, List.length_set]; omega)]
  rfl

theorem decodeGroups_outOfOutput {datalen : ℕ} (hdata : cptr + 4 ≤ data.length)
    (hbuf : buf.length < bufptr + 3) :
    decodeGroups null data (datalen + 4) cptr bufptr buf = .error .outOfOutput := by
  unfold decodeGroups
  rw [digit_ok (show cptr < data.length by omega), digit_ok (show cptr + 1 < data.length by omega),
    digit_ok (show cptr + 2 < data.length by omega),
    digit_ok (show cptr + 3 < data.length by omega)]
  simp only [bind, Except.bind]
  by_cases hfirst : bufptr < buf.length
  · rw [writeAt_ok hfirst]
    simp only
    by_cases hsecond : bufptr + 1 < buf.length
    · rw [writeAt_ok (by rw [List.length_set]; omega)]
      simp only
      rw [writeAt_outOfOutput (by rw [List.length_set, List.length_set]; omega)]
    · rw [writeAt_outOfOutput (by rw [List.length_set]; omega)]
  · rw [writeAt_outOfOutput (by omega)]

/-- **The groups** take three bytes each. -/
theorem decodeGroups_spec (datalen : ℕ) : ∀ {cptr bufptr : ℕ} {buf : Bytes},
    cptr + datalen ≤ data.length → bufptr ≤ buf.length →
    (bufptr + datalen / 4 * 3 ≤ buf.length → ∃ buf', buf'.length = buf.length ∧
      decodeGroups null data datalen cptr bufptr buf =
        .ok ⟨datalen % 4, cptr + datalen / 4 * 4, bufptr + datalen / 4 * 3, buf'⟩) ∧
    (buf.length < bufptr + datalen / 4 * 3 →
      decodeGroups null data datalen cptr bufptr buf = .error .outOfOutput) := by
  induction datalen using Nat.strongRecOn with
  | ind datalen ih =>
    intro cptr bufptr buf hdata hbuf
    by_cases hsmall : datalen < 4
    · have hdiv : datalen / 4 = 0 := Nat.div_eq_of_lt hsmall
      rw [hdiv, Nat.mod_eq_of_lt hsmall]
      refine ⟨fun _ => ⟨buf, rfl, ?_⟩, fun h => absurd h (by omega)⟩
      interval_cases datalen <;> rfl
    · obtain ⟨rest, rfl⟩ := Nat.exists_eq_add_of_le' (Nat.not_lt.mp hsmall)
      have hdiv : (rest + 4) / 4 = rest / 4 + 1 := Nat.add_div_right rest (by omega)
      rw [hdiv, Nat.add_mod_right]
      by_cases hroom : bufptr + 3 ≤ buf.length
      · rw [decodeGroups_group (digit_ok (show cptr < data.length by omega))
          (digit_ok (show cptr + 1 < data.length by omega))
          (digit_ok (show cptr + 2 < data.length by omega))
          (digit_ok (show cptr + 3 < data.length by omega)) hroom]
        generalize hbuf₁ : storeGroup buf bufptr _ _ _ _ = buf₁
        have hlength : buf₁.length = buf.length := hbuf₁ ▸ length_storeGroup
        obtain ⟨hok, hout⟩ := @ih rest (by omega) (cptr + 4) (bufptr + 3) buf₁ (by omega) (by omega)
        constructor
        · intro hfits
          obtain ⟨buf', hlength', h⟩ := hok (by omega)
          refine ⟨buf', hlength'.trans hlength, h.trans ?_⟩
          rw [show cptr + 4 + rest / 4 * 4 = cptr + (rest / 4 + 1) * 4 by omega,
            show bufptr + 3 + rest / 4 * 3 = bufptr + (rest / 4 + 1) * 3 by omega]
        · intro hover
          exact hout (by omega)
      · refine ⟨fun hfits => absurd hfits (by omega), fun _ => ?_⟩
        exact decodeGroups_outOfOutput (by omega) (by omega)

/-! ## The tail -/

/-- **The tail** takes a byte less than it has digits. -/
theorem decodeTail_spec {datalen : ℕ} (hdatalen : datalen < 4)
    (hdata : cptr + datalen ≤ data.length)
    (hbuf : bufptr ≤ buf.length) :
    (bufptr + (datalen - 1) ≤ buf.length → ∃ buf', buf'.length = buf.length ∧
      decodeTail null data ⟨datalen, cptr, bufptr, buf⟩ = .ok (buf', bufptr + (datalen - 1))) ∧
    (buf.length < bufptr + (datalen - 1) →
      decodeTail null data ⟨datalen, cptr, bufptr, buf⟩ = .error .outOfOutput) := by
  unfold decodeTail
  simp only
  by_cases htwo : datalen = 2
  · subst htwo
    rw [if_pos rfl, digit_ok (show cptr < data.length by omega),
      digit_ok (show cptr + 1 < data.length by omega)]
    simp only [bind, Except.bind, pure, Except.pure]
    constructor
    · intro hroom
      rw [writeAt_ok (show bufptr < buf.length by omega)]
      exact ⟨_, List.length_set .., rfl⟩
    · intro hroom
      rw [writeAt_outOfOutput (show buf.length ≤ bufptr by omega)]
  by_cases hthree : datalen = 3
  · subst hthree
    rw [if_neg (by decide), if_pos rfl, digit_ok (show cptr < data.length by omega),
      digit_ok (show cptr + 1 < data.length by omega),
      digit_ok (show cptr + 2 < data.length by omega)]
    simp only [bind, Except.bind, pure, Except.pure]
    constructor
    · intro hroom
      rw [writeAt_ok (show bufptr < buf.length by omega)]
      simp only
      rw [writeAt_ok (by rw [List.length_set]; omega)]
      exact ⟨_, (List.length_set ..).trans (List.length_set ..), rfl⟩
    · intro hroom
      by_cases hfirst : bufptr < buf.length
      · rw [writeAt_ok hfirst]
        simp only
        rw [writeAt_outOfOutput (by rw [List.length_set]; omega)]
      · rw [writeAt_outOfOutput (Nat.not_lt.mp hfirst)]
  · rw [if_neg htwo, if_neg hthree, show datalen - 1 = 0 by omega, Nat.add_zero]
    exact ⟨fun _ => ⟨buf, rfl, rfl⟩, fun h => absurd hbuf (Nat.not_le.mpr h)⟩

/-! ## The padding -/

theorem ok_bind {α β : Type} {a : α} {f : α → Except Stop β} : (Except.ok a >>= f) = f a := rfl

theorem toInt_ok {value : ℤ} (h : -2 ^ 31 ≤ value) (h' : value < 2 ^ 31) :
    toInt value = .ok value := if_pos ⟨h, h'⟩

/-- The loop stops at the last byte that is not `'='`. -/
theorem removePadding_body {m : ℕ} {last : UInt8} (hlast : data[m]? = some last)
    (hne : last ≠ equalsSign) (padding : ℕ) : ∀ {len : ℤ},
    (∀ i < padding, data[m + 1 + i]? = some equalsSign) → -2 ^ 31 ≤ len - padding → len < 2 ^ 31 →
    removePadding data (m + 1 + padding) len = .ok (m + 1, len - padding) := by
  induction padding with
  | zero =>
    intro len _ _ _
    show (readAt data m >>= _) = _
    unfold readAt
    rw [hlast]
    simp only [bind, Except.bind, if_neg hne, Nat.cast_zero, sub_zero]
  | succ padding ih =>
    intro len hpadding hlen hlt
    show (readAt data (m + 1 + padding) >>= _) = _
    unfold readAt
    rw [hpadding padding (Nat.lt_succ_self _)]
    push_cast at hlen ⊢
    simp only [bind, Except.bind, if_true]
    rw [toInt_ok (by omega) (by omega)]
    simp only
    refine (ih (fun i hi => hpadding i (Nat.lt_succ_of_lt hi)) (by omega) (by omega)).trans ?_
    rw [show len - 1 - (padding : ℤ) = len - (padding + 1) by omega]

/-- Where there is no such byte, it leaves the input. -/
theorem removePadding_all (n : ℕ) : ∀ {len : ℤ}, (∀ i < n, data[i]? = some equalsSign) →
    -2 ^ 31 ≤ len - n → len < 2 ^ 31 → removePadding data n len = .error .outOfInput := by
  induction n with
  | zero =>
    intro len _ _ _
    rfl
  | succ n ih =>
    intro len hall hlen hlt
    show (readAt data n >>= _) = _
    unfold readAt
    rw [hall n (Nat.lt_succ_self _)]
    push_cast at hlen
    simp only [bind, Except.bind, if_true]
    rw [toInt_ok (by omega) (by omega)]
    exact ih (fun i hi => hall i (Nat.lt_succ_of_lt hi)) (by omega) (by omega)

/-! ## The decoder -/

/-- The loop over the padding, from the whole input. -/
theorem removePadding_padded {body : Bytes} {padding : ℕ} (h : Padded data body padding)
    (hlength : data.length / 4 * 3 < 2 ^ 31) :
    removePadding data data.length (data.length / 4 * 3 : ℕ) =
      if body = [] then .error .outOfInput
      else .ok (body.length, (data.length / 4 * 3 : ℕ) - padding) := by
  obtain ⟨hdata, hbody⟩ := h
  have hsize : data.length = body.length + padding := by
    rw [hdata, List.length_append, List.length_replicate]
  have hpadding : ∀ i < padding, data[body.length + i]? = some equalsSign := by
    intro i hi
    rw [hdata, List.getElem?_append_right (Nat.le_add_right _ _), List.getElem?_replicate,
      Nat.add_sub_cancel_left, if_pos hi]
  rcases List.eq_nil_or_concat' body with rfl | ⟨front, last, rfl⟩
  · rw [if_pos rfl]
    refine removePadding_all data.length (fun i hi => ?_) (by omega) (by omega)
    have hat := hpadding i (by rw [List.length_nil] at hsize; omega)
    rwa [List.length_nil, Nat.zero_add] at hat
  · rw [if_neg (List.append_ne_nil_of_right_ne_nil _ (List.cons_ne_nil _ _))]
    rw [List.length_append, List.length_singleton] at hsize hpadding
    have hlast : data[front.length]? = some last := by
      rw [hdata, List.append_assoc, List.getElem?_append_right (le_refl _), Nat.sub_self]
      rfl
    have hne : last ≠ equalsSign := hbody last (by rw [List.getLast?_concat]; rfl)
    have hstop : removePadding data (front.length + 1 + padding) (data.length / 4 * 3 : ℕ) =
        .ok (front.length + 1, (data.length / 4 * 3 : ℕ) - padding) :=
      removePadding_body hlast hne padding hpadding (by omega) (by omega)
    rw [← hsize] at hstop
    rw [hstop, List.length_append, List.length_singleton]

theorem decode_eq_decodeBody {checked : Bool} {body : Bytes} {padding : ℕ}
    (h : Padded data body padding) (hmod : data.length % 4 = 0) (hbody : body ≠ [])
    (hlength : data.length / 4 * 3 < 2 ^ 31) :
    decode null checked logged behind data buf = decodeBody null checked data buf body.length
      ((data.length / 4 * 3 : ℕ) - padding) := by
  have hpos : 0 < body.length := List.length_pos_iff.mpr hbody
  have hsize : data.length = body.length + padding := by
    rw [h.1, List.length_append, List.length_replicate]
  have hquarter : toInt (data.length / 4 : ℕ) = .ok ((data.length / 4 : ℕ) : ℤ) :=
    toInt_ok (by omega) (by omega)
  have hlen : toInt ((data.length / 4 : ℕ) * 3) = .ok (data.length / 4 * 3 : ℕ) :=
    toInt_ok (by omega) (by omega)
  unfold decode
  rw [if_neg (not_not.mpr hmod), if_neg (show data.length ≠ 0 by omega), hquarter, ok_bind, hlen,
    ok_bind, removePadding_padded h hlength, if_neg hbody, ok_bind]

theorem assert_ok {checked : Bool} {cond : Prop} [Decidable cond] (h : cond) :
    assert checked cond = .ok () := if_neg fun hnot => hnot.2 h

/-- Where there is room for the groups, the tail decides. -/
theorem decodeBody_tail {checked : Bool} {datalen len : ℕ} (hdata : datalen ≤ data.length)
    (hroom : datalen / 4 * 3 ≤ len) : ∃ buf', buf'.length = len ∧
      decodeBody null checked data buf datalen len = (do
        let _ ← assert checked (datalen % 4 ≠ 1)
        let (buf, bufptr) ← decodeTail null data
          ⟨datalen % 4, datalen / 4 * 4, datalen / 4 * 3, buf'⟩
        let _ ← assert checked (bufptr = buf.length)
        pure (true, buf)) := by
  obtain ⟨buf', hbuf', hgroups⟩ := (@decodeGroups_spec null data datalen 0 0 (resize buf len)
    (by omega) (Nat.zero_le _)).1 (by rw [length_resize]; omega)
  rw [Nat.zero_add, Nat.zero_add] at hgroups
  refine ⟨buf', hbuf'.trans length_resize, ?_⟩
  unfold decodeBody
  rw [if_neg (Int.not_lt.mpr (Int.natCast_nonneg len)), Int.toNat_natCast]
  show (decodeGroups null data datalen 0 0 (resize buf len) >>= _) = _
  rw [hgroups, ok_bind]

/-- **Up to three signs** `'='` leave room for all groups and the tail. -/
theorem decode_room {checked : Bool} {body : Bytes} {padding : ℕ} (h : Padded data body padding)
    (hmod : data.length % 4 = 0) (hbody : body ≠ []) (hlength : data.length / 4 * 3 < 2 ^ 31)
    (hle : padding ≤ 3) : ∃ out, decode null checked logged behind data buf =
      if checked = true ∧ padding = 3 then .error .aborted else .ok (true, out) := by
  have hsize : data.length = body.length + padding := by
    rw [h.1, List.length_append, List.length_replicate]
  have hpos : 0 < body.length := List.length_pos_iff.mpr hbody
  have hlen : ((data.length / 4 * 3 : ℕ) - padding : ℤ) =
      (body.length / 4 * 3 + (body.length % 4 - 1) : ℕ) := by omega
  rw [decode_eq_decodeBody h hmod hbody hlength, hlen]
  obtain ⟨buf', hbuf', htail⟩ := @decodeBody_tail null data buf checked body.length
    (body.length / 4 * 3 + (body.length % 4 - 1)) (by omega) (Nat.le_add_right _ _)
  rw [htail]
  by_cases habort : checked = true ∧ padding = 3
  · simp only [if_pos habort]
    have hone : assert checked (body.length % 4 ≠ 1) = .error .aborted :=
      if_pos ⟨habort.1, by omega⟩
    rw [hone]
    exact ⟨[], rfl⟩
  · simp only [if_neg habort]
    have hone : assert checked (body.length % 4 ≠ 1) = .ok () := by
      refine if_neg fun hnot => habort ⟨hnot.1, ?_⟩
      have := hnot.2
      omega
    obtain ⟨out, hout, hdecoded⟩ := (@decodeTail_spec null data buf' (body.length / 4 * 4)
      (body.length / 4 * 3) (body.length % 4) (by omega) (by omega) (by omega)).1 (by omega)
    refine ⟨out, ?_⟩
    rw [hone, ok_bind, hdecoded, ok_bind]
    simp only
    rw [assert_ok (by omega), ok_bind]
    rfl

/-- **More signs** `'='` do not. -/
theorem decode_noRoom {checked : Bool} {body : Bytes} {padding : ℕ} (h : Padded data body padding)
    (hmod : data.length % 4 = 0) (hbody : body ≠ []) (hlength : data.length / 4 * 3 < 2 ^ 31)
    (hlt : 3 < padding) : decode null checked logged behind data buf = .error .outOfOutput ∨
      decode null checked logged behind data buf = .error .badLength := by
  have hsize : data.length = body.length + padding := by
    rw [h.1, List.length_append, List.length_replicate]
  rw [decode_eq_decodeBody h hmod hbody hlength]
  by_cases hneg : ((data.length / 4 * 3 : ℕ) - padding : ℤ) < 0
  · right
    unfold decodeBody
    rw [if_pos hneg]
    rfl
  left
  obtain ⟨len, hlen⟩ := Int.eq_ofNat_of_zero_le (Int.not_lt.mp hneg)
  rw [hlen]
  by_cases hroom : body.length / 4 * 3 ≤ len
  · obtain ⟨buf', hbuf', htail⟩ := @decodeBody_tail null data buf checked body.length len
      (by omega) hroom
    have hover := (@decodeTail_spec null data buf' (body.length / 4 * 4)
      (body.length / 4 * 3) (body.length % 4) (by omega) (by omega) (by omega)).2 (by omega)
    rw [htail, assert_ok (by omega), ok_bind, hover]
    rfl
  · have hover := (@decodeGroups_spec null data body.length 0 0 (resize buf len) (by omega)
      (Nat.zero_le _)).2 (by rw [length_resize]; omega)
    unfold decodeBody
    rw [if_neg (Int.not_lt.mpr (Int.natCast_nonneg len)), Int.toNat_natCast]
    show (decodeGroups null data body.length 0 0 (resize buf len) >>= _) = _
    rw [hover]
    rfl

theorem decode_tooLong {checked : Bool} (hmod : data.length % 4 = 0)
    (hlength : ¬data.length / 4 * 3 < 2 ^ 31) :
    decode null checked logged behind data buf = .error .badLength := by
  unfold decode
  rw [if_neg (not_not.mpr hmod), if_neg (show data.length ≠ 0 by omega)]
  by_cases hquarter : (data.length / 4 : ℕ) < (2 ^ 31 : ℤ)
  · rw [toInt_ok (by omega) hquarter, ok_bind]
    have hlen : toInt ((data.length / 4 : ℕ) * 3) = .error .badLength :=
      if_neg fun hfits => hlength (by have := hfits.2; omega)
    rw [hlen]
    rfl
  · have hlen : toInt (data.length / 4 : ℕ) = .error .badLength :=
      if_neg fun hfits => hquarter hfits.2
    rw [hlen]
    rfl

/-- Only signs `'='`. -/
theorem decode_noBody {checked : Bool} {padding : ℕ} (h : Padded data [] padding)
    (hmod : data.length % 4 = 0) (hdata : data ≠ []) (hlength : data.length / 4 * 3 < 2 ^ 31) :
    decode null checked logged behind data buf = .error .outOfInput := by
  have hpos : 0 < data.length := List.length_pos_iff.mpr hdata
  have hquarter : toInt (data.length / 4 : ℕ) = .ok ((data.length / 4 : ℕ) : ℤ) :=
    toInt_ok (by omega) (by omega)
  have hlen : toInt ((data.length / 4 : ℕ) * 3) = .ok (data.length / 4 * 3 : ℕ) :=
    toInt_ok (by omega) (by omega)
  unfold decode
  rw [if_neg (not_not.mpr hmod), if_neg (show data.length ≠ 0 by omega), hquarter, ok_bind, hlen,
    ok_bind, removePadding_padded h hlength, if_pos rfl]
  rfl

end

/-! ## Strictness -/

/-- The accesses of the decoder stay inside its buffers, its lengths are proper, and it accepts
only Base64. -/
def Strict (null : UInt8) (checked logged : Bool) (behind data buf : Bytes) : Prop :=
  decode null checked logged behind data buf ≠ .error .outOfInput ∧
    decode null checked logged behind data buf ≠ .error .outOfOutput ∧
    decode null checked logged behind data buf ≠ .error .badLength ∧
    ∀ out, decode null checked logged behind data buf = .ok (true, out) → IsBase64 data

section

variable {null : UInt8} {checked logged : Bool} {behind data buf : Bytes}

theorem strict_of_ok {accepted : Bool} {out : Bytes}
    (h : decode null checked logged behind data buf = .ok (accepted, out)) :
    Strict null checked logged behind data buf ↔ (accepted = true → IsBase64 data) := by
  unfold Strict
  rw [h]
  constructor
  · rintro ⟨-, -, -, hstrict⟩ rfl
    exact hstrict out rfl
  · intro hstrict
    refine ⟨?_, ?_, ?_, ?_⟩
    · intro heq
      cases heq
    · intro heq
      cases heq
    · intro heq
      cases heq
    · intro out' heq
      cases heq
      exact hstrict rfl

theorem strict_of_error {stop : Stop}
    (h : decode null checked logged behind data buf = .error stop) (hinput : stop ≠ .outOfInput)
    (houtput : stop ≠ .outOfOutput) (hlength : stop ≠ .badLength) :
    Strict null checked logged behind data buf := by
  unfold Strict
  rw [h]
  exact ⟨fun heq => hinput (Except.error.inj heq), fun heq => houtput (Except.error.inj heq),
    fun heq => hlength (Except.error.inj heq), nofun⟩

/-- Of an input whose length is a multiple of four. -/
theorem strict_padded_iff {body : Bytes} {padding : ℕ} (h : Padded data body padding)
    (hmod : data.length % 4 = 0) (hdata : data ≠ []) :
    Strict null checked logged behind data buf ↔ data.length / 4 * 3 < 2 ^ 31 ∧
      (IsBase64 data ∨ checked = true ∧ body ≠ [] ∧ padding = 3) := by
  by_cases hlength : data.length / 4 * 3 < 2 ^ 31
  swap
  · exact iff_of_false (fun hstrict => hstrict.2.2.1 (decode_tooLong hmod hlength))
      fun hshort => hlength hshort.1
  have hbase := isBase64_iff h hmod
  by_cases hbody : body = []
  · subst hbody
    refine iff_of_false (fun hstrict => hstrict.1 (decode_noBody h hmod hdata hlength)) ?_
    rintro ⟨-, hdata' | ⟨-, hne, -⟩⟩
    · have hsize : data.length = padding := by
        rw [h.1, List.nil_append, List.length_replicate]
      have hpos : 0 < data.length := List.length_pos_iff.mpr hdata
      have := (hbase.mp hdata').1
      omega
    · exact hne rfl
  by_cases hpadding : padding ≤ 3
  · obtain ⟨out, hout⟩ :=
      @decode_room null logged behind data buf checked body padding h hmod hbody hlength hpadding
    by_cases habort : checked = true ∧ padding = 3
    · rw [if_pos habort] at hout
      exact iff_of_true (strict_of_error hout nofun nofun nofun)
        ⟨hlength, .inr ⟨habort.1, hbody, habort.2⟩⟩
    · rw [if_neg habort] at hout
      rw [strict_of_ok hout]
      constructor
      · intro hdata'
        exact ⟨hlength, .inl (hdata' rfl)⟩
      · rintro ⟨-, hdata' | ⟨hchecked, -, hthree⟩⟩ -
        · exact hdata'
        · exact absurd ⟨hchecked, hthree⟩ habort
  · refine iff_of_false (fun hstrict => ?_) ?_
    · have hdecode :=
        @decode_noRoom null logged behind data buf checked body padding h hmod hbody hlength
          (by omega)
      rcases hdecode with hout | hout
      · exact hstrict.2.1 hout
      · exact hstrict.2.2.1 hout
    · rintro ⟨-, hdata' | ⟨-, -, hthree⟩⟩
      · exact hpadding ((hbase.mp hdata').1.trans (by omega))
      · omega

/-- The log of a wrong length. -/
theorem strict_logged_iff (hmod : data.length % 4 ≠ 0) :
    Strict null checked logged behind data buf ↔
      (logged = true → 2 ^ 31 ≤ data.length ∨ 0 ∈ data ++ behind) := by
  have hdecode : decode null checked logged behind data buf =
      (logError logged behind data >>= fun _ => pure (false, buf)) := if_pos hmod
  cases logged with
  | false =>
    refine iff_of_true ((strict_of_ok hdecode).mpr fun heq => absurd heq Bool.false_ne_true)
      fun h => absurd h Bool.false_ne_true
  | true =>
    rw [forall_prop_of_true rfl]
    by_cases hlong : 2 ^ 31 ≤ data.length
    · have hthrow : decode null checked true behind data buf = .error .formatError := by
        rw [hdecode, logError, if_neg (by simp), if_pos hlong]
        rfl
      exact iff_of_true (strict_of_error hthrow nofun nofun nofun) (.inl hlong)
    rw [or_iff_right hlong]
    by_cases hzero : 0 ∈ data ++ behind
    · have hfalse : decode null checked true behind data buf = .ok (false, buf) := by
        rw [hdecode, logError, if_neg (by simp), if_neg hlong, if_pos hzero]
        rfl
      exact iff_of_true ((strict_of_ok hfalse).mpr fun heq => absurd heq Bool.false_ne_true) hzero
    · have hout : decode null checked true behind data buf = .error .outOfInput := by
        rw [hdecode, logError, if_neg (by simp), if_neg hlong, if_neg hzero]
        rfl
      exact iff_of_false (fun hstrict => hstrict.1 hout) hzero

end

end NekoProto.Base64Covert
