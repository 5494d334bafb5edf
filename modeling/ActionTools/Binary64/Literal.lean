import ActionTools.Binary64.Basic

/-!
# Reading a decimal literal as a double

The digits of a literal are gathered into a significand of 64 bits as long as it does not overflow.
Integer digits beyond that only raise the exponent, fraction digits beyond that are dropped. The
significand is rounded to a double and then multiplied or divided, with a second rounding, by the
double nearest to the power of ten. Two roundings can miss the nearest double by one rank; they are
the rule of the format all the same, and the texts of `Binary64.chars` are chosen independently
of it.

A literal too large for a double names none; one too small names a zero of its sign.
-/

namespace ActionTools

/-- A number literal with a point, an exponent or too many digits for an integer. -/
structure DecimalLiteral where
  negative : Bool
  /-- The digits before the point. -/
  whole : List Nat
  /-- The digits after the point. -/
  fraction : List Nat
  /-- Whether the exponent has a minus sign. -/
  exponentNegative : Bool
  /-- The digits of the exponent, none when there is no exponent. -/
  exponent : List Nat

namespace DecimalLiteral

/-- `value` extended by leading digits as long as it stays below `limit`, and the digits left. -/
def gather (limit value : Nat) : List Nat → Nat × List Nat
  | [] => (value, [])
  | digit :: rest =>
    if value * 10 + digit < limit then gather limit (value * 10 + digit) rest
    else (value, digit :: rest)

/-- The significand of a literal and its exponent of ten before the written one. -/
def significand (literal : DecimalLiteral) : Nat × Int :=
  let (value, skipped) := gather 0x10000000000000000 0 literal.whole
  let (value', dropped) := gather 0x10000000000000000 value literal.fraction
  (value', (skipped.length : Int) - (literal.fraction.length - dropped.length : Nat))

/-- The written exponent, or `none` when its digits do not fit 31 bits. -/
def writtenExponent? (literal : DecimalLiteral) : Option Int :=
  match gather 0x80000000 0 literal.exponent with
  | (value, []) => some (if literal.exponentNegative then -(value : Int) else value)
  | (_, _ :: _) => none

/-- The double nearest to a power of ten up to 10³⁰⁸. -/
def powerOfTen? (exponent : Nat) : Option Binary64 :=
  Binary64.ofFraction? false (Nat.pow 10 exponent) 1

/-- `significand · 10 ^ exponent`, rounded twice. Below 10⁻³⁰⁸ the quotient is taken in two
steps, and below 10⁻⁶¹⁶ every significand of 64 bits has become zero. -/
def scaled? (significand : Nat) (exponent : Int) : Option Binary64 := do
  let base ← Binary64.ofFraction? false significand 1
  if base.isZero then
    some base
  else if 308 < exponent then
    none
  else if 0 ≤ exponent then
    base.mul? (← powerOfTen? exponent.toNat)
  else if -308 ≤ exponent then
    base.div? (← powerOfTen? (-exponent).toNat)
  else if -616 ≤ exponent then
    (← base.div? (← powerOfTen? 308)).div? (← powerOfTen? ((-exponent).toNat - 308))
  else
    some (.zero false)

/-- The double a literal names, or `none` when it is too large for one. -/
def value? (literal : DecimalLiteral) : Option Binary64 := do
  let (significand, exponent) := literal.significand
  let magnitude ←
    match literal.writtenExponent? with
    | some written => scaled? significand (exponent + written)
    | none =>
      if significand = 0 || literal.exponentNegative then some (.zero false) else none
  some (if literal.negative then magnitude.neg else magnitude)

end DecimalLiteral

end ActionTools
