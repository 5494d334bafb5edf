import ActionTools.Json.Reader
import ActionTools.Proofs.Binary64.Shortest
import Mathlib.Data.List.Induction

/-!
# The texts of numbers

A number is written as a literal: an optional minus, digits, and perhaps a fraction and an exponent.
`NumberLiteral.text` is that text, and reading it from the front of any text that cannot prolong it
gives the literal back (`readNumber_text`). So a number's text can be taken apart in one way only,
and what a number is follows from its literal: a whole number is what the digits say, and a double
has a fraction or an exponent and the value of the decimal that was printed for it
(`Binary64.exists_literal`). Different numbers therefore have different texts
(`Number.chars_injective`).

Whether a literal names the double it was printed for is another matter: reading rounds twice.
-/

namespace ActionTools

/-! ### Digits -/

/-- The values of the digits of a number. -/
def digitValues (n : Nat) : List Nat := (Decimal.digitChars n).map fun c ↦ c.toNat - '0'.toNat

/-- The characters of digits. -/
def digitsText (digits : List Nat) : List Char := digits.map Nat.digitChar

/-- There are digits, and all are below ten. -/
structure IsDigits (digits : List Nat) : Prop where
  ne_nil : digits ≠ []
  lt_ten : ∀ digit ∈ digits, digit < 10

theorem isDigits_zero : IsDigits [0] := ⟨List.cons_ne_nil 0 [], by simp⟩

theorem length_digitsText (digits : List Nat) : (digitsText digits).length = digits.length :=
  List.length_map _

theorem digitsText_append (digits more : List Nat) :
    digitsText (digits ++ more) = digitsText digits ++ digitsText more :=
  List.map_append

theorem digitsText_replicate_zero (count : Nat) :
    digitsText (List.replicate count 0) = List.replicate count '0' :=
  List.map_replicate

theorem IsDigits.append {digits more : List Nat} (h : IsDigits digits)
    (hmore : ∀ digit ∈ more, digit < 10) : IsDigits (digits ++ more) := by
  refine ⟨List.append_ne_nil_of_left_ne_nil h.ne_nil _, fun digit hdigit ↦ ?_⟩
  rcases List.mem_append.1 hdigit with hmem | hmem
  · exact h.lt_ten digit hmem
  · exact hmore digit hmem

theorem IsDigits.of_subset {digits part : List Nat} (h : IsDigits digits) (hpart : part ⊆ digits)
    (hne : part ≠ []) : IsDigits part :=
  ⟨hne, fun digit hdigit ↦ h.lt_ten digit (hpart hdigit)⟩

theorem toNat_of_isDigit {c : Char} (h : c.isDigit = true) : 48 ≤ c.toNat ∧ c.toNat ≤ 57 := by
  simp only [Char.isDigit, Bool.and_eq_true, decide_eq_true_eq, ge_iff_le,
    UInt32.le_iff_toNat_le] at h
  exact h

theorem digitChar_of_isDigit {c : Char} (h : c.isDigit = true) :
    Nat.digitChar (c.toNat - '0'.toNat) = c := by
  have hrange := toNat_of_isDigit h
  have hvalue : c.toNat - 48 < 10 := by omega
  show Nat.digitChar (c.toNat - 48) = c
  apply Char.toNat_inj.1
  rw [Nat.toNat_digitChar_of_lt_ten hvalue]
  omega

theorem isDigit_digitChar {digit : Nat} (h : digit < 10) :
    (Nat.digitChar digit).isDigit = true := by
  revert digit
  decide

theorem toNat_digitChar {digit : Nat} (h : digit < 10) :
    (Nat.digitChar digit).toNat - '0'.toNat = digit := by
  revert digit
  decide

/-- The digits of a number are written as the number is. -/
theorem digitsText_digitValues (n : Nat) : digitsText (digitValues n) = Decimal.digitChars n := by
  rw [digitsText, digitValues, List.map_map]
  conv_rhs => rw [← List.map_id (Decimal.digitChars n)]
  exact List.map_congr_left fun c hc ↦ digitChar_of_isDigit (Decimal.isDigit_of_mem_digitChars hc)

/-- The digits of a number are digits, and there is at least one. -/
theorem isDigits_digitValues (n : Nat) : IsDigits (digitValues n) := by
  refine ⟨by simpa [digitValues] using Decimal.digitChars_ne_nil n, fun digit hdigit ↦ ?_⟩
  obtain ⟨c, hc, rfl⟩ := List.mem_map.1 hdigit
  have hrange := toNat_of_isDigit (Decimal.isDigit_of_mem_digitChars hc)
  show c.toNat - 48 < 10
  omega

/-- Only zero starts with the digit zero. -/
theorem head_digitValues_ne_zero {n : Nat} (h : 0 < n) {rest : List Nat} :
    digitValues n ≠ 0 :: rest := by
  induction n using Nat.strongRecOn generalizing rest with
  | ind n ih =>
    intro hzero
    by_cases hsmall : n < 10
    · rw [digitValues, Decimal.digitChars_of_lt_ten hsmall, List.map_singleton,
        toNat_digitChar hsmall] at hzero
      simp only [List.cons.injEq] at hzero
      omega
    · have hten : 10 ≤ n := Nat.le_of_not_lt hsmall
      rw [digitValues, Decimal.digitChars_of_ten_le hten, List.map_append] at hzero
      change digitValues (n / 10) ++ _ = _ at hzero
      -- The first digit is the first one of the tenth part.
      have hne := (isDigits_digitValues (n / 10)).ne_nil
      obtain ⟨first, others, hfirst⟩ := List.exists_cons_of_ne_nil hne
      rw [hfirst, List.cons_append, List.cons.injEq] at hzero
      have hpos : 0 < n / 10 := Nat.div_pos hten (by decide)
      exact ih (n / 10) (Nat.div_lt_self (by omega) (by decide)) hpos
        (hfirst.trans (by rw [hzero.1]))

namespace NumberLiteral

/-- Digits that come later shift the earlier ones by as many places as there are of them. -/
theorem ofDigits_append (first second : List Nat) :
    ofDigits (first ++ second) = ofDigits first * 10 ^ second.length + ofDigits second := by
  induction second using List.reverseRecOn with
  | nil => simp [ofDigits]
  | append_singleton second digit ih =>
    have hlast (digits : List Nat) :
        ofDigits (digits ++ [digit]) = ofDigits digits * 10 + digit := by
      rw [ofDigits, List.foldl_append]
      rfl
    rw [← List.append_assoc, hlast, hlast, ih, List.length_append, List.length_singleton, pow_succ]
    ring

theorem ofDigits_replicate_zero (count : Nat) : ofDigits (List.replicate count 0) = 0 := by
  induction count with
  | zero => rfl
  | succ count ih =>
    rw [List.replicate_succ', ofDigits, List.foldl_append]
    show ofDigits (List.replicate count 0) * 10 + 0 = 0
    rw [ih]

/-- Each zero at the end multiplies by ten. -/
theorem ofDigits_append_zeros (digits : List Nat) (count : Nat) :
    ofDigits (digits ++ List.replicate count 0) = ofDigits digits * 10 ^ count := by
  rw [ofDigits_append, ofDigits_replicate_zero, List.length_replicate, Nat.add_zero]

/-- Zeros at the front do not count. -/
theorem ofDigits_zeros_append (count : Nat) (digits : List Nat) :
    ofDigits (List.replicate count 0 ++ digits) = ofDigits digits := by
  rw [ofDigits_append, ofDigits_replicate_zero, Nat.zero_mul, Nat.zero_add]

/-- A number is read back from its digits. -/
theorem ofDigits_digitValues (n : Nat) : ofDigits (digitValues n) = n := by
  have hfold : ∀ (chars : List Char) (start : Nat),
      (chars.map fun c ↦ c.toNat - '0'.toNat).foldl (fun value digit ↦ value * 10 + digit) start =
        Nat.ofDigitChars 10 chars start := by
    intro chars
    induction chars with
    | nil => exact fun _ ↦ rfl
    | cons c rest ih =>
      intro start
      rw [List.map_cons, List.foldl_cons, ih, Nat.ofDigitChars_cons, Nat.mul_comm]
  rw [ofDigits, digitValues, hfold]
  exact Nat.ofDigitChars_toDigits (by decide) (by decide)

/-! ### Literals -/

/-- The text of a fraction. -/
def fractionText : Option (List Nat) → List Char
  | none => []
  | some digits => '.' :: digitsText digits

/-- The text of an exponent, its sign always written. -/
def exponentText : Option (Bool × List Nat) → List Char
  | none => []
  | some (negative, digits) => 'e' :: (if negative then '-' else '+') :: digitsText digits

/-- The text of a literal. -/
def text (literal : NumberLiteral) : List Char :=
  (if literal.negative then ['-'] else []) ++
    (digitsText literal.whole ++ (fractionText literal.fraction ++ exponentText literal.exponent))

/-- The literal follows the grammar: digits wherever there have to be some, and a leading zero
stands alone. -/
structure WellFormed (literal : NumberLiteral) : Prop where
  whole : IsDigits literal.whole
  leading : ∀ rest, literal.whole = 0 :: rest → rest = []
  fraction : ∀ digits, literal.fraction = some digits → IsDigits digits
  exponent : ∀ negative digits, literal.exponent = some (negative, digits) → IsDigits digits

/-- The exponent of ten that is written. -/
def written (literal : NumberLiteral) : Int :=
  match literal.exponent with
  | none => 0
  | some (negative, digits) => if negative then -(ofDigits digits : Int) else ofDigits digits

/-- The exact number of a literal, its sign left aside. -/
def magnitude (literal : NumberLiteral) : ℚ :=
  ofDigits (literal.whole ++ literal.fraction.getD []) *
    10 ^ (literal.written - (literal.fraction.getD []).length)

end NumberLiteral

/-! ### Reading a literal -/

/-- What follows a number: nothing that could prolong it. -/
def EndsNumber (rest : List Char) : Prop :=
  ∀ c ∈ rest.head?, c.isDigit = false ∧ c ≠ '.' ∧ c ≠ 'e' ∧ c ≠ 'E'

theorem EndsNumber.nil : EndsNumber [] := by
  simp [EndsNumber]

theorem EndsNumber.cons {c : Char} (h : c.isDigit = false ∧ c ≠ '.' ∧ c ≠ 'e' ∧ c ≠ 'E')
    (rest : List Char) : EndsNumber (c :: rest) := by
  intro c' hc'
  cases hc'
  exact h

namespace Document

open NumberLiteral

/-- Digits are read off a text up to the first character that is none. -/
theorem readDigits_append {digits : List Nat} (h : IsDigits digits) {rest : List Char}
    (hrest : ∀ c ∈ rest.head?, c.isDigit = false) :
    readDigits (digitsText digits ++ rest) = (digits, rest) := by
  have hall : ∀ c ∈ digitsText digits, c.isDigit = true := by
    intro c hc
    obtain ⟨digit, hdigit, rfl⟩ := List.mem_map.1 hc
    exact isDigit_digitChar (h.lt_ten digit hdigit)
  have htake : rest.takeWhile Char.isDigit = [] := by
    cases rest with
    | nil => rfl
    | cons c rest => rw [List.takeWhile_cons, hrest c rfl, if_neg Bool.false_ne_true]
  have hdrop : rest.dropWhile Char.isDigit = rest := by
    cases rest with
    | nil => rfl
    | cons c rest => rw [List.dropWhile_cons, hrest c rfl, if_neg Bool.false_ne_true]
  have hvalues : (digitsText digits).map (fun c ↦ c.toNat - '0'.toNat) = digits := by
    rw [digitsText, List.map_map]
    conv_rhs => rw [← List.map_id digits]
    exact List.map_congr_left fun digit hdigit ↦ toNat_digitChar (h.lt_ten digit hdigit)
  rw [readDigits, List.takeWhile_append_of_pos hall, List.dropWhile_append_of_pos hall, htake,
    hdrop, List.append_nil, hvalues]

/-- An exponent that is written, or none, is read back before what ends a number. -/
theorem readExponent_append {exponent : Option (Bool × List Nat)}
    (h : ∀ negative digits, exponent = some (negative, digits) → IsDigits digits)
    {rest : List Char} (hrest : EndsNumber rest) :
    readExponent (exponentText exponent ++ rest) = some (exponent, rest) := by
  have hdigit : ∀ c ∈ rest.head?, c.isDigit = false := fun c hc ↦ (hrest c hc).1
  cases exponent with
  | none =>
    cases rest with
    | nil => rfl
    | cons c rest =>
      obtain ⟨-, -, he, hE⟩ := hrest c rfl
      show readExponent (c :: rest) = _
      rw [readExponent, if_neg (by simp [he, hE])]
  | some pair =>
    obtain ⟨negative, digits⟩ := pair
    have hread := readDigits_append (h negative digits rfl) hdigit
    obtain ⟨first, others, rfl⟩ := List.exists_cons_of_ne_nil (h negative digits rfl).ne_nil
    cases negative
    · show readExponent ('e' :: '+' :: (digitsText (first :: others) ++ rest)) = _
      simp [readExponent, readSign, hread]
    · show readExponent ('e' :: '-' :: (digitsText (first :: others) ++ rest)) = _
      simp [readExponent, readSign, hread]

/-- An exponent starts with no digit and no point. -/
theorem head?_exponentText_append (exponent : Option (Bool × List Nat)) {rest : List Char}
    (hrest : EndsNumber rest) :
    ∀ c ∈ (exponentText exponent ++ rest).head?, c.isDigit = false ∧ c ≠ '.' := by
  cases exponent with
  | none => exact fun c hc ↦ ⟨(hrest c hc).1, (hrest c hc).2.1⟩
  | some pair =>
    intro c hc
    cases hc
    decide

/-- A fraction that is written, or none, is read back before what cannot prolong it. -/
theorem readFraction_append {fraction : Option (List Nat)}
    (h : ∀ digits, fraction = some digits → IsDigits digits) {rest : List Char}
    (hrest : ∀ c ∈ rest.head?, c.isDigit = false ∧ c ≠ '.') :
    readFraction (fractionText fraction ++ rest) = some (fraction, rest) := by
  cases fraction with
  | none =>
    cases rest with
    | nil => rfl
    | cons c rest =>
      show readFraction (c :: rest) = _
      rw [readFraction]
      rintro digits ⟨⟩
      exact (hrest '.' rfl).2 rfl
  | some digits =>
    have hread := readDigits_append (h digits rfl) fun c hc ↦ (hrest c hc).1
    obtain ⟨first, others, rfl⟩ := List.exists_cons_of_ne_nil (h digits rfl).ne_nil
    show readFraction ('.' :: (digitsText (first :: others) ++ rest)) = _
    simp [readFraction, hread]

/-- The sign and the digits before the point, and then what the other readers take. -/
theorem readNumber_sign_append (negative : Bool) {whole : List Nat} {body rest : List Char}
    (hwhole : readDigits body = (whole, rest)) (hne : whole ≠ [])
    (hleading : ∀ others, whole = 0 :: others → others = [])
    (hsign : ∀ c ∈ body.head?, c ≠ '-') :
    readNumber ((if negative then ['-'] else []) ++ body) =
      (readFraction rest).bind fun fraction ↦
        (readExponent fraction.2).bind fun exponent ↦
          some (⟨negative, whole, fraction.1, exponent.1⟩, exponent.2) := by
  -- A zero is the whole number when it comes first.
  have hdigits : whole = [0] ∨ ∃ first others, whole = (first + 1) :: others := by
    obtain ⟨first, others, rfl⟩ := List.exists_cons_of_ne_nil hne
    cases first with
    | zero => exact .inl (by rw [hleading others rfl])
    | succ first => exact .inr ⟨first, others, rfl⟩
  cases negative with
  | true =>
    show readNumber ('-' :: body) = _
    rw [readNumber, hwhole]
    rcases hdigits with rfl | ⟨first, others, rfl⟩
    · rfl
    · rfl
  | false =>
    have hplain : ∀ others, body ≠ '-' :: others := fun others heq ↦ hsign '-' (by simp [heq]) rfl
    show readNumber body = _
    rw [readNumber]
    · rw [hwhole]
      rcases hdigits with rfl | ⟨first, others, rfl⟩
      · rfl
      · rfl
    · exact hplain

/-- **A literal is read back from its text**, whatever follows that does not prolong it. -/
theorem readNumber_text {literal : NumberLiteral} (h : literal.WellFormed) {rest : List Char}
    (hrest : EndsNumber rest) : readNumber (literal.text ++ rest) = some (literal, rest) := by
  obtain ⟨negative, whole, fraction, exponent⟩ := literal
  have hexponent := readExponent_append h.exponent hrest
  have hfraction := readFraction_append h.fraction (head?_exponentText_append exponent hrest)
  have hhead : ∀ c ∈ (fractionText fraction ++ (exponentText exponent ++ rest)).head?,
      c.isDigit = false := by
    cases fraction with
    | none => exact fun c hc ↦ (head?_exponentText_append exponent hrest c hc).1
    | some digits =>
      intro c hc
      cases hc
      rfl
  have hwhole := readDigits_append h.whole hhead
  have hsign : ∀ c ∈ (digitsText whole ++
      (fractionText fraction ++ (exponentText exponent ++ rest))).head?, c ≠ '-' := by
    obtain ⟨first, others, rfl⟩ := List.exists_cons_of_ne_nil h.whole.ne_nil
    intro c hc
    cases hc
    have hdigit := isDigit_digitChar (h.whole.lt_ten first List.mem_cons_self)
    rintro heq
    rw [heq] at hdigit
    cases hdigit
  rw [text, List.append_assoc, List.append_assoc, List.append_assoc,
    readNumber_sign_append negative hwhole h.whole.ne_nil h.leading hsign, hfraction,
    Option.bind_some, hexponent, Option.bind_some]

end Document

/-! ### The literals of printed numbers -/

namespace NumberLiteral

/-- The literal has the text and the value, no sign, and a fraction or an exponent. -/
structure Names (literal : NumberLiteral) (text : List Char) (value : ℚ) : Prop where
  wellFormed : literal.WellFormed
  unsigned : literal.negative = false
  marked : ¬ (literal.fraction = none ∧ literal.exponent = none)
  text_eq : text = literal.text
  magnitude_eq : literal.magnitude = value

/-- A literal names a number also by another expression for the text or for the number. -/
theorem Names.congr {literal : NumberLiteral} {text text' : List Char} {value value' : ℚ}
    (h : literal.Names text value) (htext : text' = text) (hvalue : value' = value) :
    literal.Names text' value' :=
  htext ▸ hvalue ▸ h

/-- Digits, a point and digits. -/
def positional (whole fraction : List Nat) : NumberLiteral := ⟨false, whole, some fraction, none⟩

/-- A literal with a point has its digits as a whole number, shifted by the length of the
fraction. -/
theorem names_positional {whole fraction : List Nat} (hwhole : IsDigits whole)
    (hleading : ∀ rest, whole = 0 :: rest → rest = []) (hfraction : IsDigits fraction) :
    (positional whole fraction).Names (digitsText whole ++ '.' :: digitsText fraction)
      (ofDigits (whole ++ fraction) * 10 ^ (-(fraction.length : ℤ))) where
  wellFormed :=
    ⟨hwhole, hleading, fun _ heq ↦ Option.some.inj heq ▸ hfraction, by simp [positional]⟩
  unsigned := rfl
  marked := by simp [positional]
  text_eq := by simp [positional, text, fractionText, exponentText]
  magnitude_eq := by simp [positional, magnitude, written]

section Layouts

variable {values : List Nat} (hdigits : IsDigits values) (hleading : ∀ rest, values ≠ 0 :: rest)

include hdigits

/-- A single digit stands without a point in front of the exponent. -/
theorem exists_fraction :
    ∃ fraction : Option (List Nat), fraction.getD [] = values.tail ∧
      (∀ digits, fraction = some digits → IsDigits digits) ∧
      fractionText fraction =
        if values.length = 1 then [] else '.' :: (digitsText values).drop 1 := by
  obtain ⟨first, others, rfl⟩ := List.exists_cons_of_ne_nil hdigits.ne_nil
  cases others with
  | nil => exact ⟨none, rfl, by simp, rfl⟩
  | cons second others =>
    refine ⟨some (second :: others), rfl, fun digits heq ↦ ?_, by simp [fractionText, digitsText]⟩
    exact Option.some.inj heq ▸ hdigits.of_subset (List.subset_cons_self _ _) (List.cons_ne_nil _ _)

/-- One digit, perhaps a point and digits, and an exponent. -/
theorem exists_names_scientific (exponent : ℤ) :
    ∃ literal : NumberLiteral, literal.Names
      ((digitsText values).take 1 ++
        (if values.length = 1 then [] else '.' :: (digitsText values).drop 1) ++
          (if exponent < 0 then ['e', '-'] else ['e', '+']) ++
            digitsText (digitValues exponent.natAbs))
      (ofDigits values * 10 ^ (exponent - values.tail.length)) := by
  obtain ⟨fraction, hgetD, hfraction, htext⟩ := exists_fraction hdigits
  obtain ⟨first, others, rfl⟩ := List.exists_cons_of_ne_nil hdigits.ne_nil
  refine ⟨⟨false, [first], fraction, some (decide (exponent < 0), digitValues exponent.natAbs)⟩,
    ⟨hdigits.of_subset (by simp) (by simp), fun rest hrest ↦ (List.cons.inj hrest).2.symm,
      hfraction, ?_⟩, rfl, by simp, ?_, ?_⟩
  · rintro _ _ ⟨⟩
    exact isDigits_digitValues _
  · rw [text, htext, exponentText]
    by_cases hneg : exponent < 0
    · simp [digitsText, hneg]
    · simp [digitsText, hneg]
  · have hwritten : written ⟨false, [first], fraction,
        some (decide (exponent < 0), digitValues exponent.natAbs)⟩ = exponent := by
      simp only [written, ofDigits_digitValues, decide_eq_true_eq]
      split
      · omega
      · omega
    rw [magnitude, hwritten, hgetD, List.singleton_append, List.tail_cons]

/-- Zeros between the point and the digits. -/
theorem names_zeros_append (zeros : Nat) :
    (positional [0] (List.replicate zeros 0 ++ values)).Names
      ('0' :: '.' :: List.replicate zeros '0' ++ digitsText values)
      (ofDigits values * 10 ^ (-(zeros + values.length : ℤ))) := by
  have hfraction : IsDigits (List.replicate zeros 0 ++ values) := by
    refine ⟨List.append_ne_nil_of_right_ne_nil _ hdigits.ne_nil, fun digit hdigit ↦ ?_⟩
    rcases List.mem_append.1 hdigit with hmem | hmem
    · exact List.eq_of_mem_replicate hmem ▸ (by decide)
    · exact hdigits.lt_ten digit hmem
  have hzeros : [0] ++ (List.replicate zeros 0 ++ values) =
      List.replicate (zeros + 1) 0 ++ values := rfl
  refine (names_positional isDigits_zero (fun rest hrest ↦ (List.cons.inj hrest).2.symm)
    hfraction).congr ?_ ?_
  · rw [digitsText_append, digitsText_replicate_zero]
    rfl
  · rw [hzeros, ofDigits_zeros_append, List.length_append, List.length_replicate, Nat.cast_add]

include hleading

/-- Zeros between the digits and the point, and one behind it. -/
theorem names_append_zeros (zeros : Nat) :
    (positional (values ++ List.replicate zeros 0) [0]).Names
      (digitsText values ++ List.replicate zeros '0' ++ ['.', '0'])
      (ofDigits values * 10 ^ zeros) := by
  have hwhole : IsDigits (values ++ List.replicate zeros 0) :=
    hdigits.append fun digit hdigit ↦ List.eq_of_mem_replicate hdigit ▸ (by decide)
  have hstarts (rest : List Nat) : values ++ List.replicate zeros 0 ≠ 0 :: rest := by
    obtain ⟨first, others, rfl⟩ := List.exists_cons_of_ne_nil hdigits.ne_nil
    rintro ⟨⟩
    exact hleading others rfl
  have hzeros : List.replicate zeros 0 ++ [0] = List.replicate (zeros + 1) 0 :=
    List.replicate_succ'.symm
  refine (names_positional hwhole (fun rest hrest ↦ absurd hrest (hstarts rest))
    isDigits_zero).congr ?_ ?_
  · rw [digitsText_append, digitsText_replicate_zero]
    rfl
  · rw [List.append_assoc, hzeros, ofDigits_append_zeros, pow_succ, List.length_singleton]
    push_cast
    ring

/-- The point is among the digits. -/
theorem names_take_drop {count : Nat} (hpos : 0 < count) (hlt : count < values.length) :
    (positional (values.take count) (values.drop count)).Names
      ((digitsText values).take count ++ '.' :: (digitsText values).drop count)
      (ofDigits values * 10 ^ (count - values.length : ℤ)) := by
  have hwhole : values.take count ≠ [] :=
    List.ne_nil_of_length_pos (by rw [List.length_take]; omega)
  have hfraction : values.drop count ≠ [] :=
    List.ne_nil_of_length_pos (by rw [List.length_drop]; omega)
  have hstarts (rest : List Nat) : values.take count ≠ 0 :: rest := by
    intro heq
    refine hleading (rest ++ values.drop count) ?_
    rw [← List.cons_append, ← heq, List.take_append_drop]
  have hlength : -((values.drop count).length : ℤ) = count - values.length := by
    rw [List.length_drop]
    omega
  refine (names_positional (hdigits.of_subset (List.take_subset _ _) hwhole)
    (fun rest hrest ↦ absurd hrest (hstarts rest))
    (hdigits.of_subset (List.drop_subset _ _) hfraction)).congr ?_ ?_
  · rw [digitsText, digitsText, digitsText, List.map_take, List.map_drop]
  · rw [List.take_append_drop, hlength]

end Layouts

end NumberLiteral

/-- **A printed decimal is a literal of its value**, whichever of the four layouts it has. -/
theorem Decimal.exists_literal (layout : DecimalLayout) {d : Decimal} (h : 0 < d.digits) :
    ∃ literal : NumberLiteral, literal.Names (d.render layout) d.value := by
  obtain ⟨digits, exponent⟩ := d
  have hdigits := isDigits_digitValues digits
  have hleading (rest : List Nat) : digitValues digits ≠ 0 :: rest := head_digitValues_ne_zero h
  have hpos : 0 < (digitValues digits).length := List.length_pos_of_ne_nil hdigits.ne_nil
  have hvalue := NumberLiteral.ofDigits_digitValues digits
  rw [render, value]
  simp only [← digitsText_digitValues, length_digitsText]
  generalize digitValues digits = values at *
  subst hvalue
  -- The layouts differ in where the point is put, or in having an exponent instead.
  split
  · next hwhole =>
    obtain ⟨zeros, rfl⟩ : ∃ zeros : ℕ, exponent = zeros := ⟨exponent.toNat, by omega⟩
    exact ⟨_, NumberLiteral.names_append_zeros hdigits hleading zeros⟩
  · split
    · next hpoint =>
      obtain ⟨count, hcount⟩ : ∃ count : ℕ, exponent + values.length = count :=
        ⟨(exponent + values.length).toNat, by omega⟩
      have hnames := @NumberLiteral.names_take_drop values hdigits hleading count (by omega)
        (by omega)
      refine ⟨_, hnames.congr (by rw [hcount, Int.toNat_natCast]) ?_⟩
      congr 2
      omega
    · split
      · next hsmall =>
        obtain ⟨zeros, hzeros⟩ : ∃ zeros : ℕ, -(exponent + values.length) = zeros :=
          ⟨(-(exponent + values.length)).toNat, by omega⟩
        have hnames := NumberLiteral.names_zeros_append hdigits zeros
        refine ⟨_, hnames.congr (by rw [hzeros, Int.toNat_natCast]) ?_⟩
        congr 2
        omega
      · obtain ⟨literal, hnames⟩ := NumberLiteral.exists_names_scientific hdigits
          (exponent + values.length - 1)
        refine ⟨literal, hnames.congr rfl ?_⟩
        rw [List.length_tail, Nat.cast_sub hpos, Nat.cast_one]
        congr 2
        omega

namespace Binary64

/-- **The text of a double is a literal** with its sign and the value that was printed, and it has a
fraction or an exponent. -/
theorem exists_literal (x : Binary64) :
    ∃ literal : NumberLiteral, literal.WellFormed ∧ literal.negative = x.negative ∧
      x.chars Number.layout = literal.text ∧
      literal.magnitude = (if x.rank = 0 then 0 else (shortest x.rank).value) ∧
      ¬ (literal.fraction = none ∧ literal.exponent = none) := by
  obtain ⟨negative, rank, hrank⟩ := x
  obtain ⟨literal, hnames⟩ : ∃ literal : NumberLiteral, literal.Names
      (if rank = 0 then ['0', '.', '0'] else (shortest rank).render Number.layout)
      (if rank = 0 then 0 else (shortest rank).value) := by
    by_cases hzero : rank = 0
    · rw [if_pos hzero, if_pos hzero]
      exact ⟨_, (NumberLiteral.names_positional isDigits_zero
        (fun rest hrest ↦ (List.cons.inj hrest).2.symm) isDigits_zero).congr rfl
        (by simp [NumberLiteral.ofDigits])⟩
    · rw [if_neg hzero, if_neg hzero]
      have hpos := value_shortest_pos (Nat.pos_of_ne_zero hzero)
      refine Decimal.exists_literal Number.layout (Nat.pos_of_ne_zero fun hdigits ↦ ?_)
      rw [Decimal.value, hdigits, Nat.cast_zero, zero_mul] at hpos
      exact lt_irrefl _ hpos
  have hwell := hnames.wellFormed
  have htext := hnames.text_eq
  refine ⟨{ literal with negative := negative }, ⟨hwell.whole, hwell.leading, hwell.fraction,
    hwell.exponent⟩, rfl, ?_, hnames.magnitude_eq, hnames.marked⟩
  simp only [NumberLiteral.text, hnames.unsigned, if_neg Bool.false_ne_true,
    List.nil_append] at htext
  simp only [chars, htext, NumberLiteral.text]
  cases negative
  · rfl
  · rfl

end Binary64

/-- **The text of a whole number is a literal** that names it, without fraction and exponent. -/
theorem Whole.exists_literal (n : Whole) :
    ∃ literal : NumberLiteral, literal.WellFormed ∧ Number.intChars n.value = literal.text ∧
      literal.value? = some (.whole n) ∧ literal.fraction = none ∧ literal.exponent = none := by
  refine ⟨⟨decide (n.value < 0), digitValues n.value.natAbs, none, none⟩,
    ⟨isDigits_digitValues _, fun rest hrest ↦ ?_, by simp, by simp⟩, ?_, ?_, rfl, rfl⟩
  · rcases Nat.eq_zero_or_pos n.value.natAbs with hzero | hpos
    · rw [hzero] at hrest
      cases hrest
      rfl
    · exact absurd hrest (head_digitValues_ne_zero hpos)
  · by_cases hneg : n.value < 0
    · simp [Number.intChars, NumberLiteral.text, hneg, digitsText_digitValues,
        NumberLiteral.fractionText, NumberLiteral.exponentText]
    · simp [Number.intChars, NumberLiteral.text, hneg, digitsText_digitValues,
        NumberLiteral.fractionText, NumberLiteral.exponentText]
  · have hinteger : NumberLiteral.integer?
        ⟨decide (n.value < 0), digitValues n.value.natAbs, none, none⟩ = some n := by
      simp only [NumberLiteral.integer?, NumberLiteral.ofDigits_digitValues, decide_eq_true_eq]
      by_cases hneg : n.value < 0
      · have hback : -(n.value.natAbs : Int) = n.value := by omega
        rw [if_pos hneg, if_neg (by omega), hback, Whole.ofInt?_value]
      · have hback : (n.value.natAbs : Int) = n.value := by omega
        rw [if_neg hneg, hback, Whole.ofInt?_value]
    rw [NumberLiteral.value?, hinteger]

namespace Number

/-- **The text of every number is a well-formed literal.** -/
theorem exists_literal (n : Number) :
    ∃ literal : NumberLiteral, literal.WellFormed ∧ n.chars = literal.text := by
  cases n with
  | whole n =>
    obtain ⟨literal, hwell, htext, -⟩ := n.exists_literal
    exact ⟨literal, hwell, htext⟩
  | double x =>
    obtain ⟨literal, hwell, -, htext, -⟩ := x.exists_literal
    exact ⟨literal, hwell, htext⟩

end Number

/-- A text is the text of one literal at most. -/
theorem NumberLiteral.eq_of_text_eq {literal literal' : NumberLiteral} (h : literal.WellFormed)
    (h' : literal'.WellFormed) (htext : literal.text = literal'.text) : literal = literal' := by
  have hread := Document.readNumber_text h EndsNumber.nil
  rw [htext, Document.readNumber_text h' EndsNumber.nil] at hread
  cases hread
  rfl

/-- **Different doubles have different texts**: the sign is written, and the shortest decimals of
two ranks differ. -/
theorem Binary64.chars_injective : Function.Injective (Binary64.chars Number.layout) := by
  intro x y htext
  obtain ⟨literal, hwell, hsign, hx, hvalue, -⟩ := x.exists_literal
  obtain ⟨literal', hwell', hsign', hy, hvalue', -⟩ := y.exists_literal
  obtain rfl := NumberLiteral.eq_of_text_eq hwell hwell' (hx.symm.trans (htext.trans hy))
  obtain ⟨negative, rank, hrank⟩ := x
  obtain ⟨negative', rank', hrank'⟩ := y
  have hnegative : negative = negative' := hsign.symm.trans hsign'
  have hranks : rank = rank' := by
    have hequal : (if rank = 0 then 0 else (shortest rank).value) =
        if rank' = 0 then 0 else (shortest rank').value := hvalue.symm.trans hvalue'
    -- A positive rank is printed as a positive number.
    by_cases hzero : rank = 0
    · by_cases hzero' : rank' = 0
      · rw [hzero, hzero']
      · rw [if_pos hzero, if_neg hzero'] at hequal
        exact absurd hequal (value_shortest_pos (Nat.pos_of_ne_zero hzero')).ne
    · by_cases hzero' : rank' = 0
      · rw [if_neg hzero, if_pos hzero'] at hequal
        exact absurd hequal (value_shortest_pos (Nat.pos_of_ne_zero hzero)).ne'
      · rw [if_neg hzero, if_neg hzero'] at hequal
        exact eq_of_value_shortest_eq (Nat.pos_of_ne_zero hzero) (Nat.pos_of_ne_zero hzero') hequal
  subst hnegative hranks
  rfl

/-- **Different numbers have different texts.** -/
theorem Number.chars_injective : Function.Injective Number.chars := by
  have hkinds (n : Whole) (x : Binary64) : intChars n.value ≠ x.chars layout := by
    intro htext
    obtain ⟨literal, hwell, hn, -, hfraction, hexponent⟩ := n.exists_literal
    obtain ⟨literal', hwell', -, hx, -, hmark⟩ := x.exists_literal
    obtain rfl := NumberLiteral.eq_of_text_eq hwell hwell' (hn.symm.trans (htext.trans hx))
    exact hmark ⟨hfraction, hexponent⟩
  intro m n htext
  cases m with
  | whole m =>
    cases n with
    | whole n =>
      obtain ⟨literal, hwell, hm, hvalue, -⟩ := m.exists_literal
      obtain ⟨literal', hwell', hn, hvalue', -⟩ := n.exists_literal
      obtain rfl := NumberLiteral.eq_of_text_eq hwell hwell' (hm.symm.trans (htext.trans hn))
      exact Option.some.inj (hvalue.symm.trans hvalue')
    | double y => exact absurd htext (hkinds m y)
  | double x =>
    cases n with
    | whole n => exact absurd htext.symm (hkinds n x)
    | double y => exact congrArg Number.double (Binary64.chars_injective htext)

end ActionTools
