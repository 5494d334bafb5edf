import ActionTools.Binary64.Shortest
import ActionTools.Binary64.Literal

/-!
# JSON numbers

A number is a whole number that fits 64 bits, signed or unsigned, or a finite double. The two kinds
are never equal, and the text shows the kind: a double always has a point or an exponent.

`NumberLiteral` is what the grammar of JSON sees in a number; `NumberLiteral.value?` says which
number it names. A literal of an integer that fits names that integer. `-0`, integers that do not
fit, and everything with a point or an exponent name doubles.
-/

namespace ActionTools

/-- A whole number from -2⁶³ up to 2⁶⁴ - 1. -/
structure Whole where
  value : Int
  lower : -0x8000000000000000 ≤ value
  upper : value ≤ 0xFFFFFFFFFFFFFFFF
  deriving DecidableEq

namespace Whole

/-- The whole number of a value in range. -/
def ofInt? (value : Int) : Option Whole :=
  if h : -0x8000000000000000 ≤ value ∧ value ≤ 0xFFFFFFFFFFFFFFFF then some ⟨value, h.1, h.2⟩
  else none

/-- The integer of a whole number gives this number back. -/
theorem ofInt?_value (n : Whole) : ofInt? n.value = some n :=
  dif_pos ⟨n.lower, n.upper⟩

end Whole

/-- A JSON number. -/
inductive Number where
  | whole (value : Whole)
  | double (value : Binary64)
  deriving DecidableEq

namespace Number

/-- The number of a natural number that fits. -/
def ofNat (n : Nat) (h : n ≤ 0xFFFFFFFFFFFFFFFF := by decide) : Number :=
  .whole ⟨n, by omega, by omega⟩

/-- The natural number, when it is one. -/
def nat? : Number → Option Nat
  | .whole n => if 0 ≤ n.value then some n.value.toNat else none
  | .double _ => none

/-- Equality of numbers: of the same kind, and the two zeros among the doubles are equal. -/
def equal : Number → Number → Bool
  | .whole m, .whole n => m == n
  | .double x, .double y => x.equal y
  | _, _ => false

/-- Doubles are positional from `0.00001` up to sixteen integer digits. -/
def layout : DecimalLayout := ⟨5, 16⟩

/-- The decimal text of an integer. -/
def intChars (value : Int) : List Char :=
  if value < 0 then '-' :: Decimal.digitChars value.natAbs else Decimal.digitChars value.natAbs

/-- The text of a number. -/
def chars : Number → List Char
  | .whole n => intChars n.value
  | .double x => x.chars layout

theorem equal_refl (n : Number) : n.equal n = true := by
  cases n <;> simp [equal, Binary64.equal_refl]

end Number

/-- The parts of a number in JSON text. -/
structure NumberLiteral where
  negative : Bool
  /-- The digits before the point. -/
  whole : List Nat
  /-- The digits after the point, when there is a point. -/
  fraction : Option (List Nat)
  /-- The sign and the digits of the exponent, when there is one; `true` is minus. -/
  exponent : Option (Bool × List Nat)

namespace NumberLiteral

/-- The number with the given decimal digits. -/
def ofDigits (digits : List Nat) : Nat := digits.foldl (fun value digit ↦ value * 10 + digit) 0

/-- The integer a literal without point and exponent names, when it is one that fits. -/
def integer? (literal : NumberLiteral) : Option Whole :=
  match literal.fraction, literal.exponent with
  | none, none =>
    if literal.negative then
      if ofDigits literal.whole = 0 then none else Whole.ofInt? (-(ofDigits literal.whole : Int))
    else Whole.ofInt? (ofDigits literal.whole)
  | _, _ => none

/-- The literal as one for a double. -/
def decimal (literal : NumberLiteral) : DecimalLiteral where
  negative := literal.negative
  whole := literal.whole
  fraction := literal.fraction.getD []
  exponentNegative := (literal.exponent.map Prod.fst).getD false
  exponent := (literal.exponent.map Prod.snd).getD []

/-- The number a literal names, or `none` when it is too large for a double. -/
def value? (literal : NumberLiteral) : Option Number :=
  match literal.integer? with
  | some n => some (.whole n)
  | none => literal.decimal.value?.map .double

end NumberLiteral

end ActionTools
