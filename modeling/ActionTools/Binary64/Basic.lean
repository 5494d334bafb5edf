/-!
# Finite binary64 numbers

A finite double is a sign and a *rank*: the non-negative finite doubles are counted upward from
zero, and the rank is the position in that count. Every one of them is a whole multiple of
2⁻¹⁰⁷⁴, the least positive double, and `units` says which multiple. So comparing, rounding,
multiplying and dividing are all exact arithmetic on natural numbers, with one rounding at the end:
`nearestRank` finds the double nearest to a fraction, a tie going to the even rank.

There is no infinity and no NaN here. An operation whose exact result rounds beyond the largest
finite double answers `none`.
-/

namespace ActionTools

/-- A finite double. -/
structure Binary64 where
  /-- Whether the sign is minus; zero has both signs. -/
  negative : Bool
  /-- The place of the magnitude among the non-negative doubles in increasing order, zero first. -/
  rank : Nat
  /-- The ranks from this one on would be infinite. -/
  rank_lt : rank < 0x7FF0000000000000
  deriving DecidableEq

namespace Binary64

/-- The number of ranks from one power of two to the next, 2⁵². -/
def binadeSize : Nat := 0x10000000000000

/-- The binary scale of a rank: in the first two binades neighbours are one unit apart, and their
distance doubles with every binade from there. -/
def scale (rank : Nat) : Nat := rank / binadeSize - 1

/-- The digits of a rank as a number below 2⁵³, to be doubled as often as `scale rank` says. -/
def significand (rank : Nat) : Nat :=
  if rank < binadeSize then rank else binadeSize + rank % binadeSize

/-- The magnitude of a rank in units of 2⁻¹⁰⁷⁴. -/
def units (rank : Nat) : Nat := significand rank * Nat.pow 2 (scale rank)

/-- The number of units in one. -/
def unitsPerOne : Nat := Nat.pow 2 1074

/-! ### Rounding -/

/-- The quotient `num / den` rounded to the nearest number, a half going to the even one. -/
def divNearestEven (num den : Nat) : Nat :=
  let quotient := num / den
  let twice := 2 * (num % den)
  if twice < den then quotient
  else if den < twice then quotient + 1
  else quotient + quotient % 2

/-- The rank nearest to `num / den` units, a tie going to the even rank; it may lie beyond the
finite ones. The quotient is scaled down until it has at most 53 binary digits, and a rounding that
carries into the next binade is the next rank all the same. -/
def nearestRank (num den : Nat) : Nat :=
  let shift := Nat.log2 (num / den) + 1 - 53
  shift * binadeSize + divNearestEven num (den * Nat.pow 2 shift)

/-- The double of a sign and a rank, when the rank is finite. -/
def ofRank? (negative : Bool) (rank : Nat) : Option Binary64 :=
  if h : rank < 0x7FF0000000000000 then some ⟨negative, rank, h⟩ else none

/-- The double nearest to the fraction `num / den`, when that is finite. -/
def ofFraction? (negative : Bool) (num den : Nat) : Option Binary64 :=
  ofRank? negative (nearestRank (num * unitsPerOne) den)

/-! ### Arithmetic on doubles -/

/-- The two zeros. -/
def zero (negative : Bool) : Binary64 := ⟨negative, 0, by decide⟩

/-- Whether a double is one of the zeros. -/
def isZero (x : Binary64) : Bool := x.rank == 0

/-- The double with the other sign. -/
def neg (x : Binary64) : Binary64 := { x with negative := !x.negative }

/-- Equality of numbers: the two zeros are equal, other doubles only to themselves. -/
def equal (x y : Binary64) : Bool :=
  x.rank == y.rank && (x.rank == 0 || x.negative == y.negative)

/-- The rounded product. -/
def mul? (x y : Binary64) : Option Binary64 :=
  ofFraction? (x.negative != y.negative) (units x.rank * units y.rank) (unitsPerOne * unitsPerOne)

/-- The rounded quotient by a double that is not zero. -/
def div? (x y : Binary64) : Option Binary64 :=
  ofFraction? (x.negative != y.negative) (units x.rank) (units y.rank)

theorem equal_refl (x : Binary64) : x.equal x = true := by
  simp [equal]

/-- Doubles are equal if they are the same or both are a zero. -/
theorem equal_iff {x y : Binary64} :
    x.equal y = true ↔ x = y ∨ (x.isZero = true ∧ y.isZero = true) := by
  obtain ⟨sx, rx, hx⟩ := x
  obtain ⟨sy, ry, hy⟩ := y
  simp only [equal, isZero, Bool.and_eq_true, Bool.or_eq_true, beq_iff_eq, mk.injEq]
  constructor
  · rintro ⟨rfl, h | h⟩
    · exact .inr ⟨h, h⟩
    · exact .inl ⟨h, rfl⟩
  · rintro (⟨rfl, rfl⟩ | ⟨rfl, rfl⟩)
    · exact ⟨rfl, .inr rfl⟩
    · exact ⟨rfl, .inl rfl⟩

end Binary64

end ActionTools
