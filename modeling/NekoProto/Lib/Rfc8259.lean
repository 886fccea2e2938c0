import Mathlib.Data.Nat.Digits.Lemmas
import Mathlib.Data.List.TakeWhile

/-!
# JSON texts of RFC 8259

A parser of JSON texts, one function for each rule of the grammar, and what it makes of texts
without whitespace.

1. A text is given as bytes; it is a JSON text if it is UTF-8 and the parser accepts it
   (`Denotes`). Strings are parsed to the UTF-8 of their characters; a surrogate without its
   other half is refused. A number is a decimal mantissa and a decimal exponent.
2. An integer in decimal digits is parsed as that integer, where no digit and nothing else of a
   number follows (`parseNumber_integer`).
-/

namespace Rfc8259

/-- The bytes of a text. -/
abbrev Text := List UInt8

/-- The value of a JSON text. -/
inductive Value
  | null
  | bool (value : Bool)
  | number (mantissa exponent : ℤ)
  | string (text : Text)
  | array (elements : List Value)
  | object (members : List (Text × Value))

/-! ## Characters -/

/-- UTF-8 of some characters. -/
def IsUtf8 (text : Text) : Prop := ∃ chars : List Char, text = chars.flatMap String.utf8EncodeChar

/-- `ws`, as much as there is. -/
def skipWs : Text → Text
  | [] => []
  | b :: bs => if b = 0x20 ∨ b = 0x09 ∨ b = 0x0A ∨ b = 0x0D then skipWs bs else b :: bs

/-- `DIGIT`. -/
def isDigit (b : UInt8) : Bool := 0x30 ≤ b ∧ b ≤ 0x39

/-- The number of some digits. -/
def numeral (digits : Text) : ℕ := digits.foldl (fun n b => 10 * n + (b.toNat - 0x30)) 0

/-! ## Numbers -/

/-- `int = zero / ( digit1-9 *DIGIT )`: its digits. -/
def parseInt (bs : Text) : Option (Text × Text) :=
  let digits := bs.takeWhile isDigit
  if digits = [] ∨ (digits.head? = some 0x30 ∧ digits.length ≠ 1) then none
  else some (digits, bs.dropWhile isDigit)

/-- `[ frac ]`, `frac = decimal-point 1*DIGIT`: its digits. -/
def parseFrac (bs : Text) : Option (Text × Text) :=
  if bs.head? = some 0x2E then
    let digits := bs.tail.takeWhile isDigit
    if digits = [] then none else some (digits, bs.tail.dropWhile isDigit)
  else some ([], bs)

/-- `[ exp ]`, `exp = e [ minus / plus ] 1*DIGIT`. -/
def parseExp (bs : Text) : Option (ℤ × Text) :=
  if bs.head? = some 0x65 ∨ bs.head? = some 0x45 then
    let negative := bs.tail.head? = some 0x2D
    let bs := if negative ∨ bs.tail.head? = some 0x2B then bs.tail.tail else bs.tail
    let digits := bs.takeWhile isDigit
    if digits = [] then none
    else some (if negative then -(numeral digits : ℤ) else numeral digits, bs.dropWhile isDigit)
  else some (0, bs)

/-- `int [ frac ] [ exp ]`: the mantissa and the exponent. -/
def parseUnsigned (bs : Text) : Option ((ℕ × ℤ) × Text) := do
  let (int, bs) ← parseInt bs
  let (frac, bs) ← parseFrac bs
  let (exp, bs) ← parseExp bs
  some ((numeral (int ++ frac), exp - frac.length), bs)

/-- `number = [ minus ] int [ frac ] [ exp ]`. -/
def parseNumber (bs : Text) : Option (Value × Text) :=
  if bs.head? = some 0x2D then
    (parseUnsigned bs.tail).map fun r => (.number (-(r.1.1 : ℤ)) r.1.2, r.2)
  else (parseUnsigned bs).map fun r => (.number r.1.1 r.1.2, r.2)

/-! ## Strings -/

/-- `HEXDIG`, in either case. -/
def hexDigit (b : UInt8) : Option ℕ :=
  if 0x30 ≤ b ∧ b ≤ 0x39 then some (b.toNat - 0x30)
  else if 0x41 ≤ b ∧ b ≤ 0x46 then some (b.toNat - 0x41 + 10)
  else if 0x61 ≤ b ∧ b ≤ 0x66 then some (b.toNat - 0x61 + 10)
  else none

/-- `4HEXDIG`. -/
def parseHex4 : Text → Option (ℕ × Text)
  | a :: b :: c :: d :: bs => do
    let a ← hexDigit a
    let b ← hexDigit b
    let c ← hexDigit c
    let d ← hexDigit d
    some (((a * 16 + b) * 16 + c) * 16 + d, bs)
  | _ => none

/-- The UTF-8 of a code point. -/
def utf8 (n : ℕ) : Text := String.utf8EncodeChar (Char.ofNat n)

/-- What follows `%x75`: a code unit, or two for a character outside the basic plane. -/
def parseUnicode (bs : Text) : Option (Text × Text) := do
  let (high, bs) ← parseHex4 bs
  if 0xD800 ≤ high ∧ high ≤ 0xDBFF then
    if bs.take 2 = [0x5C, 0x75] then do
      let (low, bs) ← parseHex4 (bs.drop 2)
      if 0xDC00 ≤ low ∧ low ≤ 0xDFFF then
        some (utf8 (0x10000 + (high - 0xD800) * 0x400 + (low - 0xDC00)), bs)
      else none
    else none
  else if 0xDC00 ≤ high ∧ high ≤ 0xDFFF then none
  else some (utf8 high, bs)

/-- What follows `escape`. -/
def parseEscape : Text → Option (Text × Text)
  | [] => none
  | b :: bs =>
    if b = 0x22 ∨ b = 0x5C ∨ b = 0x2F then some ([b], bs)
    else if b = 0x62 then some ([0x08], bs)
    else if b = 0x66 then some ([0x0C], bs)
    else if b = 0x6E then some ([0x0A], bs)
    else if b = 0x72 then some ([0x0D], bs)
    else if b = 0x74 then some ([0x09], bs)
    else if b = 0x75 then parseUnicode bs
    else none

/-- `*char quotation-mark`. -/
def parseChars : ℕ → Text → Option (Text × Text)
  | 0, _ => none
  | _, [] => none
  | fuel + 1, b :: bs =>
    if b = 0x22 then some ([], bs)
    else if b = 0x5C then do
      let (char, bs) ← parseEscape bs
      let (chars, bs) ← parseChars fuel bs
      some (char ++ chars, bs)
    else if b < 0x20 then none
    else do
      let (chars, bs) ← parseChars fuel bs
      some (b :: chars, bs)

/-- `string = quotation-mark *char quotation-mark`. -/
def parseString : Text → Option (Text × Text)
  | [] => none
  | b :: bs => if b = 0x22 then parseChars (bs.length + 1) bs else none

/-! ## Values -/

/-- A literal name. -/
def parseLiteral (name : Text) (value : Value) (bs : Text) : Option (Value × Text) :=
  if bs.take name.length = name then some (value, bs.drop name.length) else none

mutual

/-- `value = false / null / true / object / array / number / string`. -/
def parseValue : ℕ → Text → Option (Value × Text)
  | 0, _ => none
  | fuel + 1, bs =>
    match bs.head? with
    | none => none
    | some b =>
      if b = 0x22 then (parseString bs).map fun r => (.string r.1, r.2)
      else if b = 0x5B then
        let bs := skipWs bs.tail
        if bs.head? = some 0x5D then some (.array [], bs.tail)
        else (parseElements fuel bs).map fun r => (.array r.1, r.2)
      else if b = 0x7B then
        let bs := skipWs bs.tail
        if bs.head? = some 0x7D then some (.object [], bs.tail)
        else (parseMembers fuel bs).map fun r => (.object r.1, r.2)
      else if b = 0x6E then parseLiteral [0x6E, 0x75, 0x6C, 0x6C] .null bs
      else if b = 0x74 then parseLiteral [0x74, 0x72, 0x75, 0x65] (.bool true) bs
      else if b = 0x66 then parseLiteral [0x66, 0x61, 0x6C, 0x73, 0x65] (.bool false) bs
      else parseNumber bs

/-- `value *( value-separator value ) end-array`. -/
def parseElements : ℕ → Text → Option (List Value × Text)
  | 0, _ => none
  | fuel + 1, bs => do
    let (value, bs) ← parseValue fuel bs
    let bs := skipWs bs
    if bs.head? = some 0x2C then do
      let (values, bs) ← parseElements fuel (skipWs bs.tail)
      some (value :: values, bs)
    else if bs.head? = some 0x5D then some ([value], bs.tail)
    else none

/-- `member *( value-separator member ) end-object`, `member = string name-separator value`. -/
def parseMembers : ℕ → Text → Option (List (Text × Value) × Text)
  | 0, _ => none
  | fuel + 1, bs => do
    let (name, bs) ← parseString bs
    let bs := skipWs bs
    if bs.head? = some 0x3A then do
      let (value, bs) ← parseValue fuel (skipWs bs.tail)
      let bs := skipWs bs
      if bs.head? = some 0x2C then do
        let (members, bs) ← parseMembers fuel (skipWs bs.tail)
        some ((name, value) :: members, bs)
      else if bs.head? = some 0x7D then some ([(name, value)], bs.tail)
      else none
    else none

end

/-- `JSON-text = ws value ws`. -/
def parse (text : Text) : Option Value := do
  let (value, bs) ← parseValue (text.length + 1) (skipWs text)
  if skipWs bs = [] then some value else none

/-- A JSON text, and its value. -/
def Denotes (text : Text) (value : Value) : Prop := IsUtf8 text ∧ parse text = some value

/-! ## UTF-8 -/

theorem isUtf8_nil : IsUtf8 [] := ⟨[], rfl⟩

theorem IsUtf8.append {text text' : Text} (h : IsUtf8 text) (h' : IsUtf8 text') :
    IsUtf8 (text ++ text') := by
  obtain ⟨chars, rfl⟩ := h
  obtain ⟨chars', rfl⟩ := h'
  exact ⟨chars ++ chars', List.flatMap_append.symm⟩

/-- ASCII is UTF-8. -/
theorem isUtf8_ascii {text : Text} (h : ∀ b ∈ text, b.toNat < 0x80) : IsUtf8 text := by
  induction text with
  | nil => exact isUtf8_nil
  | cons b bs ih =>
    have hb := h b List.mem_cons_self
    have hvalid : b.toNat.isValidChar := Or.inl (by omega)
    have hval : (Char.ofNat b.toNat).val.toNat = b.toNat := by
      unfold Char.ofNat
      rw [dif_pos hvalid]
      rfl
    have hchar : String.utf8EncodeChar (Char.ofNat b.toNat) = [b] := by
      unfold String.utf8EncodeChar
      simp only [hval]
      rw [if_pos (by omega), UInt8.ofNat_toNat]
    have hfirst : IsUtf8 [b] := ⟨[Char.ofNat b.toNat], by rw [List.flatMap_singleton, hchar]⟩
    exact hfirst.append (ih fun b' hb' => h b' (List.mem_cons_of_mem _ hb'))

/-- A text of which every byte was tested. -/
theorem isUtf8_of_all {text : Text} (h : (text.all fun b => b.toNat < 0x80) = true) :
    IsUtf8 text :=
  isUtf8_ascii fun b hb => of_decide_eq_true (List.all_eq_true.mp h b hb)

theorem IsUtf8.cons {b : UInt8} (hb : b.toNat < 0x80) {text : Text} (h : IsUtf8 text) :
    IsUtf8 (b :: text) := by
  have hfirst : IsUtf8 [b] := isUtf8_ascii fun c hc => List.mem_singleton.mp hc ▸ hb
  exact hfirst.append h

/-- The bytes of a character that is not ASCII are not ASCII. -/
theorem le_of_mem_utf8EncodeChar {c : Char} (hc : 0x7F < c.val.toNat) {b : UInt8}
    (hb : b ∈ String.utf8EncodeChar c) : 0x80 ≤ b.toNat := by
  unfold String.utf8EncodeChar at hb
  simp only [if_neg (Nat.not_le.mpr hc)] at hb
  split_ifs at hb
  all_goals
    simp only [List.mem_cons, List.not_mem_nil, or_false] at hb
    rcases hb with rfl | rfl | rfl | rfl
    all_goals
      rw [UInt8.toNat_ofNat']
      omega

/-! ## Whitespace -/

/-- A byte that is no whitespace. -/
def Solid (b : UInt8) : Prop := b ≠ 0x20 ∧ b ≠ 0x09 ∧ b ≠ 0x0A ∧ b ≠ 0x0D

instance (b : UInt8) : Decidable (Solid b) := inferInstanceAs (Decidable (_ ∧ _))

theorem skipWs_cons {b : UInt8} (h : Solid b) (bs : Text) : skipWs (b :: bs) = b :: bs := by
  obtain ⟨hspace, htab, hfeed, hreturn⟩ := h
  rw [skipWs, if_neg]
  rintro (h | h | h | h)
  · exact hspace h
  · exact htab h
  · exact hfeed h
  · exact hreturn h

/-! ## Decimal digits -/

/-- The decimal digits of a number. -/
def decimal (n : ℕ) : Text :=
  if n = 0 then [0x30] else (Nat.digits 10 n).reverse.map fun d => UInt8.ofNat (0x30 + d)

/-- The decimal digits of an integer. -/
def integerText (z : ℤ) : Text := if z < 0 then 0x2D :: decimal z.natAbs else decimal z.natAbs

theorem toNat_digit {d : ℕ} (hd : d < 10) : (UInt8.ofNat (0x30 + d)).toNat = 0x30 + d := by
  rw [UInt8.toNat_ofNat', Nat.mod_eq_of_lt (by omega)]

theorem isDigit_iff {b : UInt8} : isDigit b = true ↔ 0x30 ≤ b.toNat ∧ b.toNat ≤ 0x39 := by
  unfold isDigit
  rw [decide_eq_true_eq, UInt8.le_iff_toNat_le, UInt8.le_iff_toNat_le]
  rfl

theorem mem_decimal {n : ℕ} {b : UInt8} (hb : b ∈ decimal n) :
    ∃ d < 10, b = UInt8.ofNat (0x30 + d) := by
  unfold decimal at hb
  split_ifs at hb with hn
  · exact ⟨0, by decide, List.mem_singleton.mp hb⟩
  · obtain ⟨d, hd, rfl⟩ := List.mem_map.mp hb
    exact ⟨d, Nat.digits_lt_base (by decide) (List.mem_reverse.mp hd), rfl⟩

theorem isDigit_of_mem_decimal {n : ℕ} {b : UInt8} (hb : b ∈ decimal n) : isDigit b = true := by
  obtain ⟨d, hd, rfl⟩ := mem_decimal hb
  rw [isDigit_iff, toNat_digit hd]
  omega

theorem decimal_ne_nil (n : ℕ) : decimal n ≠ [] := by
  unfold decimal
  split_ifs with hn
  · exact List.cons_ne_nil _ _
  · intro h
    have hnil := List.reverse_eq_nil_iff.mp (List.map_eq_nil_iff.mp h)
    exact Nat.digits_ne_nil_iff_ne_zero.mpr hn hnil

/-- Only zero has a leading zero. -/
theorem decimal_head {n : ℕ} (h : (decimal n).head? = some 0x30) : (decimal n).length = 1 := by
  unfold decimal at h ⊢
  split_ifs at h ⊢ with hn
  · rfl
  · rw [List.head?_map, List.head?_reverse, List.getLast?_eq_some_getLast
      (Nat.digits_ne_nil_iff_ne_zero.mpr hn), Option.map_some] at h
    have hlast := Nat.getLast_digit_ne_zero 10 hn
    have hlt := Nat.digits_lt_base (b := 10) (m := n) (by decide) (List.getLast_mem
      (Nat.digits_ne_nil_iff_ne_zero.mpr hn))
    have hzero := congrArg UInt8.toNat (Option.some.inj h)
    rw [toNat_digit hlt] at hzero
    exact absurd (Nat.add_left_cancel hzero) hlast

/-- The digits of a number are those of its numeral. -/
theorem numeral_decimal (n : ℕ) : numeral (decimal n) = n := by
  unfold numeral decimal
  split_ifs with hn
  · rw [hn]
    rfl
  · have hfold : ∀ ds : List ℕ, (∀ d ∈ ds, d < 10) →
        (ds.reverse.map fun d => UInt8.ofNat (0x30 + d)).foldl
          (fun n b => 10 * n + (b.toNat - 0x30)) 0 = Nat.ofDigits 10 ds := by
      intro ds
      induction ds with
      | nil => intro _; rfl
      | cons d ds ih =>
        intro hds
        rw [List.reverse_cons, List.map_append, List.foldl_append,
          ih fun d' hd' => hds d' (List.mem_cons_of_mem _ hd'), Nat.ofDigits_cons]
        show 10 * Nat.ofDigits 10 ds + ((UInt8.ofNat (0x30 + d)).toNat - 0x30) = _
        rw [toNat_digit (hds d List.mem_cons_self), Nat.add_sub_cancel_left, Nat.add_comm]
    rw [hfold _ fun d hd => Nat.digits_lt_base (by decide) hd, Nat.ofDigits_digits]

/-! ## Numbers in a text -/

/-- Nothing that would continue a number. -/
def EndsNumber (bs : Text) : Prop :=
  ∀ b, bs.head? = some b → isDigit b = false ∧ b ≠ 0x2E ∧ b ≠ 0x65 ∧ b ≠ 0x45

theorem isUtf8_integerText (z : ℤ) : IsUtf8 (integerText z) := by
  have hdecimal : IsUtf8 (decimal z.natAbs) := by
    refine isUtf8_ascii fun b hb => ?_
    obtain ⟨_, hupper⟩ := isDigit_iff.mp (isDigit_of_mem_decimal hb)
    omega
  unfold integerText
  split_ifs
  · exact hdecimal.cons (by decide)
  · exact hdecimal

theorem takeWhile_digits {digits bs : Text} (hdigits : ∀ b ∈ digits, isDigit b = true)
    (hend : EndsNumber bs) :
    (digits ++ bs).takeWhile isDigit = digits ∧ (digits ++ bs).dropWhile isDigit = bs := by
  have hbs : bs.takeWhile isDigit = [] ∧ bs.dropWhile isDigit = bs := by
    cases bs with
    | nil => exact ⟨rfl, rfl⟩
    | cons b bs =>
      have hb := (hend b rfl).1
      simp [hb]
  rw [List.takeWhile_append_of_pos hdigits, List.dropWhile_append_of_pos hdigits, hbs.1, hbs.2,
    List.append_nil]
  exact ⟨rfl, rfl⟩

theorem parseInt_decimal (n : ℕ) {bs : Text} (hend : EndsNumber bs) :
    parseInt (decimal n ++ bs) = some (decimal n, bs) := by
  have hdigits : ∀ b ∈ decimal n, isDigit b = true := fun b hb => isDigit_of_mem_decimal hb
  obtain ⟨htake, hdrop⟩ := takeWhile_digits hdigits hend
  unfold parseInt
  rw [htake, hdrop]
  refine if_neg ?_
  rintro (hnil | ⟨hhead, hlength⟩)
  · exact decimal_ne_nil n hnil
  · exact hlength (decimal_head hhead)

theorem parseFrac_none {bs : Text} (hend : EndsNumber bs) : parseFrac bs = some ([], bs) := by
  unfold parseFrac
  exact if_neg fun h => (hend _ h).2.1 rfl

theorem parseExp_none {bs : Text} (hend : EndsNumber bs) : parseExp bs = some (0, bs) := by
  unfold parseExp
  rw [if_neg]
  rintro (h | h)
  · exact (hend _ h).2.2.1 rfl
  · exact (hend _ h).2.2.2 rfl

theorem parseUnsigned_decimal (n : ℕ) {bs : Text} (hend : EndsNumber bs) :
    parseUnsigned (decimal n ++ bs) = some ((n, 0), bs) := by
  unfold parseUnsigned
  simp only [parseInt_decimal n hend, Option.bind_eq_bind, Option.bind_some, parseFrac_none hend,
    parseExp_none hend, List.append_nil, numeral_decimal]
  rfl

theorem integerText_of_neg {z : ℤ} (hz : z < 0) : integerText z = 0x2D :: decimal z.natAbs :=
  if_pos hz

theorem integerText_of_nonneg {z : ℤ} (hz : 0 ≤ z) : integerText z = decimal z.natAbs :=
  if_neg (Int.not_lt.mpr hz)

/-- The first byte of an integer. -/
theorem integerText_cons (z : ℤ) :
    ∃ b ds, integerText z = b :: ds ∧ (b = 0x2D ∨ isDigit b = true) := by
  obtain ⟨b, ds, hds⟩ := List.exists_cons_of_ne_nil (decimal_ne_nil z.natAbs)
  rcases lt_or_ge z 0 with hz | hz
  · exact ⟨_, _, integerText_of_neg hz, Or.inl rfl⟩
  · refine ⟨b, ds, (integerText_of_nonneg hz).trans hds, Or.inr ?_⟩
    exact isDigit_of_mem_decimal (hds ▸ List.mem_cons_self)

/-- **An integer is parsed** as itself. -/
theorem parseNumber_integer (z : ℤ) {bs : Text} (hend : EndsNumber bs) :
    parseNumber (integerText z ++ bs) = some (.number z 0, bs) := by
  unfold parseNumber
  rcases lt_or_ge z 0 with hz | hz
  · have habs : -(z.natAbs : ℤ) = z := by omega
    rw [integerText_of_neg hz]
    show ((parseUnsigned (decimal z.natAbs ++ bs)).map _) = _
    rw [parseUnsigned_decimal _ hend, Option.map_some, habs]
  · have habs : (z.natAbs : ℤ) = z := by omega
    have hhead : (decimal z.natAbs ++ bs).head? ≠ some 0x2D := by
      obtain ⟨b, ds, hds⟩ := List.exists_cons_of_ne_nil (decimal_ne_nil z.natAbs)
      have hb : isDigit b = true := isDigit_of_mem_decimal (hds ▸ List.mem_cons_self)
      rw [hds]
      intro h
      obtain rfl := Option.some.inj h
      exact absurd hb (by decide)
    rw [integerText_of_nonneg hz, if_neg hhead, parseUnsigned_decimal _ hend, Option.map_some,
      habs]

/-! ## Containers in a text -/

/-- The last element of an array. -/
theorem parseElements_last {fuel : ℕ} {bs rest : Text} {value : Value}
    (h : parseValue fuel bs = some (value, 0x5D :: rest)) :
    parseElements (fuel + 1) bs = some ([value], rest) := by
  rw [parseElements, h]
  rfl

/-- An element with others after it. -/
theorem parseElements_more {fuel : ℕ} {bs bs' rest : Text} {value : Value} {values : List Value}
    (h : parseValue fuel bs = some (value, 0x2C :: bs')) (hsolid : skipWs bs' = bs')
    (hrest : parseElements fuel bs' = some (values, rest)) :
    parseElements (fuel + 1) bs = some (value :: values, rest) := by
  rw [parseElements, h]
  show (parseElements fuel (skipWs bs')).bind _ = _
  rw [hsolid, hrest]
  rfl

/-- The last member of an object. -/
theorem parseMembers_last {fuel : ℕ} {bs bs' rest name : Text} {value : Value}
    (hname : parseString bs = some (name, 0x3A :: bs')) (hsolid : skipWs bs' = bs')
    (h : parseValue fuel bs' = some (value, 0x7D :: rest)) :
    parseMembers (fuel + 1) bs = some ([(name, value)], rest) := by
  rw [parseMembers, hname]
  show (parseValue fuel (skipWs bs')).bind _ = _
  rw [hsolid, h]
  rfl

/-- A member with others after it. -/
theorem parseMembers_more {fuel : ℕ} {bs bs₁ bs₂ rest name : Text} {value : Value}
    {members : List (Text × Value)} (hname : parseString bs = some (name, 0x3A :: bs₁))
    (hsolid₁ : skipWs bs₁ = bs₁) (h : parseValue fuel bs₁ = some (value, 0x2C :: bs₂))
    (hsolid₂ : skipWs bs₂ = bs₂) (hrest : parseMembers fuel bs₂ = some (members, rest)) :
    parseMembers (fuel + 1) bs = some ((name, value) :: members, rest) := by
  rw [parseMembers, hname]
  show (parseValue fuel (skipWs bs₁)).bind _ = _
  rw [hsolid₁, h]
  show (parseMembers fuel (skipWs bs₂)).bind _ = _
  rw [hsolid₂, hrest]
  rfl

/-- An array that is not empty. -/
theorem parseValue_array {fuel : ℕ} {bs rest : Text} {values : List Value}
    (hsolid : skipWs bs = bs) (hne : bs.head? ≠ some 0x5D)
    (h : parseElements fuel bs = some (values, rest)) :
    parseValue (fuel + 1) (0x5B :: bs) = some (.array values, rest) := by
  show (if (skipWs bs).head? = some 0x5D then some (Value.array [], (skipWs bs).tail)
    else (parseElements fuel (skipWs bs)).map fun r => (.array r.1, r.2)) = _
  rw [hsolid, if_neg hne, h, Option.map_some]

/-- An object that is not empty. -/
theorem parseValue_object {fuel : ℕ} {bs rest : Text} {members : List (Text × Value)}
    (hsolid : skipWs bs = bs) (hne : bs.head? ≠ some 0x7D)
    (h : parseMembers fuel bs = some (members, rest)) :
    parseValue (fuel + 1) (0x7B :: bs) = some (.object members, rest) := by
  show (if (skipWs bs).head? = some 0x7D then some (Value.object [], (skipWs bs).tail)
    else (parseMembers fuel (skipWs bs)).map fun r => (.object r.1, r.2)) = _
  rw [hsolid, if_neg hne, h, Option.map_some]

end Rfc8259
