import ActionTools.Binary64.Basic

/-!
# The shortest decimal digits of a double

Each rank owns the interval of reals that round to it, ends included exactly when the rank is even.
The shortest decimal of a double is found on the grids of one, two, … seventeen significant digits:
on each grid only the two neighbours of the exact value can be nearest, and the first grid with a
neighbour inside the interval wins. Of two such neighbours the nearer is taken, and of two equally
near ones the even one. All comparisons are between natural numbers.

`DecimalLayout` says where positional notation ends; the sign of an exponent is always written.
-/

namespace ActionTools

/-- A decimal number: `digits` followed by `exponent` zeros, or with a point that many places in. -/
structure Decimal where
  digits : Nat
  exponent : Int
  deriving DecidableEq

/-- Which decimal numbers are written positionally. -/
structure DecimalLayout where
  /-- A number below one is positional when fewer zeros than this stand between point and digits. -/
  zeroLimit : Nat
  /-- A number with more integer digits than this is not positional. -/
  integerDigits : Nat

namespace Decimal

/-- The digits of a natural number. -/
def digitChars (n : Nat) : List Char := Nat.toDigits 10 n

/-- The same number with no trailing zero among its digits. -/
def trim (d : Decimal) : Decimal :=
  let zeros := ((digitChars d.digits).reverse.takeWhile (· == '0')).length
  ⟨d.digits / Nat.pow 10 zeros, d.exponent + zeros⟩

/-- The digits before the point and after it, when there is a point, and otherwise an exponent of
ten behind a number with one digit before the point. -/
def render (layout : DecimalLayout) (d : Decimal) : List Char :=
  let digits := digitChars d.digits
  let point := d.exponent + digits.length
  if 0 ≤ d.exponent ∧ point ≤ layout.integerDigits then
    digits ++ List.replicate d.exponent.toNat '0' ++ ['.', '0']
  else if 0 < point ∧ point ≤ layout.integerDigits then
    digits.take point.toNat ++ '.' :: digits.drop point.toNat
  else if point ≤ 0 ∧ -point < layout.zeroLimit then
    '0' :: '.' :: List.replicate (-point).toNat '0' ++ digits
  else
    let exponent := point - 1
    let mark := if exponent < 0 then ['e', '-'] else ['e', '+']
    let fraction := if digits.length = 1 then [] else '.' :: digits.drop 1
    digits.take 1 ++ fraction ++ mark ++ digitChars exponent.natAbs

end Decimal

namespace Binary64

/-- Whether `digits · 10 ^ exponent` lies among the reals that round to `rank`. The ends of that
interval are half-way to the neighbouring ranks. -/
def rounds (rank : Nat) (d : Decimal) : Bool :=
  let num := d.digits * Nat.pow 10 d.exponent.toNat * (2 * unitsPerOne)
  let den := Nat.pow 10 (-d.exponent).toNat
  let low := (units (rank - 1) + units rank) * den
  let high := (units rank + units (rank + 1)) * den
  if rank % 2 = 0 then low ≤ num && num ≤ high else low < num && num < high

/-- The exponent of ten of a positive rank: the value is at least its power and less than ten times
that. Scaling by 10⁴⁰⁰ makes the least double a number with an integer part. -/
def decimalExponent (rank : Nat) : Int :=
  ((Decimal.digitChars (units rank * Nat.pow 10 400 / unitsPerOne)).length : Int) - 401

/-- The decimal of `count` significant digits that rounds to `rank` and is nearest to it. -/
def nearestWithDigits? (rank count : Nat) : Option Decimal :=
  let exponent := decimalExponent rank - count + 1
  let num := units rank * Nat.pow 10 (-exponent).toNat
  let den := unitsPerOne * Nat.pow 10 exponent.toNat
  let below : Decimal := ⟨num / den, exponent⟩
  let above : Decimal := ⟨num / den + 1, exponent⟩
  match rounds rank below, rounds rank above with
  | true, true => some ⟨divNearestEven num den, exponent⟩
  | true, false => some below
  | false, true => some above
  | false, false => none

/-- The shortest decimal that rounds to a positive rank. Neighbouring doubles differ by more than
one part in 10¹⁷, so the last grid always has one; `⟨0, 0⟩` stands only for rank zero. -/
def shortest (rank : Nat) : Decimal :=
  match (List.range 17).findSome? fun n ↦ nearestWithDigits? rank (n + 1) with
  | some d => d.trim
  | none => ⟨0, 0⟩

/-- The text of a double. -/
def chars (layout : DecimalLayout) (x : Binary64) : List Char :=
  let digits := if x.rank = 0 then ['0', '.', '0'] else (shortest x.rank).render layout
  if x.negative then '-' :: digits else digits

end Binary64

end ActionTools
