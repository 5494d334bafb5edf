import ActionTools.Binary64.Basic
import ActionTools.Json.Number
import ActionTools.Toml.Basic

/-!
# Bare scalars

A scalar that is not in quotes is a run of letters, digits and the characters `+ - _ . :`. What it
is follows from the whole run: a truth value, a date or time, a float or an integer. A date may be
followed by a blank and a time; the reader of values looks for that.

Integers have 64 bits. Underscores may stand between digits. A float that is too large is refused,
but a negative one is not.
-/

namespace ActionTools.Toml

/-- Whether a character can stand in a scalar without quotes. -/
def isBareChar (c : Char) : Bool :=
  c.isAlphanum || c == '+' || c == '-' || c == '_' || c == '.' || c == ':'

/-! ### Digits -/

/-- The value of a digit in a base up to sixteen. -/
def digitValue? (base : Nat) (c : Char) : Option Nat :=
  let value :=
    if c.isDigit then c.toNat - '0'.toNat
    else if 'a' ≤ c ∧ c ≤ 'f' then c.toNat - 'a'.toNat + 10
    else if 'A' ≤ c ∧ c ≤ 'F' then c.toNat - 'A'.toNat + 10
    else base
  if value < base then some value else none

/-- The values of digits between which single underscores may stand. There is at least one digit. -/
def digits? (base : Nat) : List Char → Option (List Nat)
  | [] => none
  | [c] => (digitValue? base c).map fun value ↦ [value]
  | c :: '_' :: rest => do
    let value ← digitValue? base c
    let values ← digits? base rest
    some (value :: values)
  | c :: rest => do
    let value ← digitValue? base c
    let values ← digits? base rest
    some (value :: values)

/-- The number of digits in a base. -/
def ofDigits (base : Nat) (digits : List Nat) : Nat :=
  digits.foldl (fun value digit ↦ value * base + digit) 0

/-- Decimal digits of which the first is zero only when it stands alone. -/
def wholeDigits? (text : List Char) : Option (List Nat) :=
  match digits? 10 text with
  | some (0 :: _ :: _) => none
  | digits => digits

/-- Whether a sign is minus, and the text after it; no sign counts as plus. -/
def splitSign : List Char → Bool × List Char
  | '-' :: rest => (true, rest)
  | '+' :: rest => (false, rest)
  | rest => (false, rest)

/-! ### Numbers -/

/-- An integer of 64 bits. -/
def boundedInteger? (value : Int) : Option Int :=
  if -0x8000000000000000 ≤ value ∧ value ≤ 0x7FFFFFFFFFFFFFFF then some value else none

/-- The integer that a scalar is. -/
def integer? (text : List Char) : Option Int :=
  let based (base : Nat) (digits : List Char) : Option Int :=
    (digits? base digits).bind fun digits ↦ boundedInteger? (ofDigits base digits)
  match text with
  | '0' :: 'x' :: digits => based 16 digits
  | '0' :: 'o' :: digits => based 8 digits
  | '0' :: 'b' :: digits => based 2 digits
  | _ =>
    let (negative, digits) := splitSign text
    (wholeDigits? digits).bind fun digits ↦
      let value : Int := ofDigits 10 digits
      boundedInteger? (if negative then -value else value)

/-- Whether `significand · 10 ^ exponent` is too large for a double. -/
def overflows (significand : Nat) (exponent : Int) : Bool :=
  let magnitude := ((Decimal.digitChars significand).length : Int) + exponent
  if significand = 0 ∨ magnitude < 300 then false
  else if 320 < magnitude then true
  else
    let num := significand * Nat.pow 10 exponent.toNat
    let den := Nat.pow 10 (-exponent).toNat
    (Binary64.ofFraction? false num den).isNone

/-- Whether a scalar is a float. -/
def isFloat (text : List Char) : Bool :=
  let (negative, text) := splitSign text
  if text = ['i', 'n', 'f'] ∨ text = ['n', 'a', 'n'] then true
  else
    let isMark (c : Char) : Bool := c == 'e' || c == 'E'
    let mantissa := text.takeWhile fun c ↦ !isMark c
    let whole? := wholeDigits? (mantissa.takeWhile (· != '.'))
    let fraction? := match mantissa.dropWhile (· != '.') with
      | [] => some []
      | _ :: digits => digits? 10 digits
    let exponent? := match text.dropWhile fun c ↦ !isMark c with
      | [] => some 0
      | _ :: exponent =>
        let (negative, digits) := splitSign exponent
        (digits? 10 digits).map fun digits ↦
          let value : Int := ofDigits 10 digits
          if negative then -value else value
    let hasPart := text.any fun c ↦ c == '.' || isMark c
    match whole?, fraction?, exponent? with
    | some whole, some fraction, some exponent =>
      let significand := ofDigits 10 (whole ++ fraction)
      hasPart && (negative || !overflows significand (exponent - fraction.length))
    | _, _, _ => false

/-! ### Dates and times -/

/-- The number of two decimal digits. -/
def twoDigits? (a b : Char) : Option Nat := do
  some ((← digitValue? 10 a) * 10 + (← digitValue? 10 b))

/-- Whether two digits are a number in a range. -/
def isTwoDigits (low high : Nat) (a b : Char) : Bool :=
  match twoDigits? a b with
  | some value => low ≤ value && value ≤ high
  | none => false

/-- The number of days of a month. -/
def daysOfMonth (year month : Nat) : Nat :=
  if month = 2 then
    if year % 4 = 0 ∧ (year % 100 ≠ 0 ∨ year % 400 = 0) then 29 else 28
  else if month = 4 ∨ month = 6 ∨ month = 9 ∨ month = 11 then 30
  else 31

/-- Whether a text is a date. -/
def isDate : List Char → Bool
  | [y1, y2, y3, y4, '-', m1, m2, '-', d1, d2] =>
    match twoDigits? y1 y2, twoDigits? y3 y4, twoDigits? m1 m2 with
    | some century, some year, some month =>
      isTwoDigits 1 12 m1 m2 && isTwoDigits 1 (daysOfMonth (century * 100 + year) month) d1 d2
    | _, _, _ => false
  | _ => false

/-- A text without the fraction of a second at its front. -/
def afterFraction : List Char → List Char
  | '.' :: c :: rest => if c.isDigit then rest.dropWhile Char.isDigit else '.' :: c :: rest
  | rest => rest

/-- What follows the time at the front of a text. -/
def afterTime? : List Char → Option (List Char)
  | h1 :: h2 :: ':' :: m1 :: m2 :: ':' :: s1 :: s2 :: rest =>
    if isTwoDigits 0 23 h1 h2 && isTwoDigits 0 59 m1 m2 && isTwoDigits 0 60 s1 s2 then
      some (afterFraction rest)
    else none
  | _ => none

/-- Whether a text is the offset of a time zone. -/
def isOffset : List Char → Bool
  | [c] => c == 'Z' || c == 'z'
  | [sign, h1, h2, ':', m1, m2] =>
    (sign == '+' || sign == '-') && isTwoDigits 0 23 h1 h2 && isTwoDigits 0 59 m1 m2
  | _ => false

/-- Whether a text is a time, with an offset or without. -/
def isZonedTime (text : List Char) : Bool :=
  match afterTime? text with
  | some rest => rest.isEmpty || isOffset rest
  | none => false

/-- Whether a text is a date, a time, or a date with a time. -/
def isDateTime (text : List Char) : Bool :=
  isDate text || afterTime? text == some [] ||
    (isDate (text.take 10) &&
      match text.drop 10 with
      | c :: time => (c == 'T' || c == 't' || c == ' ') && isZonedTime time
      | [] => false)

/-! ### Scalars -/

/-- The value of a scalar without quotes. -/
def scalar? (text : List Char) : Option Toml :=
  if text = ['t', 'r', 'u', 'e'] then some (.boolean true)
  else if text = ['f', 'a', 'l', 's', 'e'] then some (.boolean false)
  else if isDateTime text then some (.dateTime (String.ofList text))
  else if isFloat text then some (.float (String.ofList text))
  else (integer? text).map .integer

end ActionTools.Toml
