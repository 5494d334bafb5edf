import ActionTools.Binary64.Shortest
import Mathlib.Algebra.Order.Field.Power
import Mathlib.Data.Nat.Cast.Field
import Mathlib.Algebra.Order.Field.Rat
import Mathlib.Tactic.FieldSimp
import Mathlib.Tactic.Linarith
import Mathlib.Tactic.Ring

/-!
# The shortest decimal of a double

Printing chooses, for each rank, a decimal out of the interval of reals that round to it. Two ranks
never share such a decimal (`eq_of_rounds`): the intervals of neighbours meet in one point, half-way
between them, and of two neighbours only the even one owns that point. So the decimal chosen
determines the rank (`eq_of_value_shortest_eq`), provided that one is chosen at all.

That is what the limit of seventeen digits is for (`exists_nearestWithDigits?`). The two neighbours
of a value on a decimal grid are one step apart; if both missed the interval, the step would be as
long as the interval. But neighbouring doubles are more than one part in 10¹⁶ of their value apart
(`units_gap`), and a grid of seventeen digits is finer than that.

Trailing zeros are dropped from the decimal in the end, which changes its digits and its exponent
but not its value (`Decimal.value_trim`).
-/

namespace ActionTools

/-! ### Decimals as numbers -/

namespace Decimal

/-- The rational number that a decimal stands for. -/
def value (d : Decimal) : ℚ := d.digits * 10 ^ d.exponent

theorem digitChars_ne_nil (n : Nat) : digitChars n ≠ [] := Nat.toDigits_ne_nil

theorem isDigit_of_mem_digitChars {n : Nat} {c : Char} (h : c ∈ digitChars n) :
    c.isDigit = true :=
  Nat.isDigit_of_mem_toDigits (by decide) (by decide) h

/-- The last digit stands behind the digits of the tenth part. -/
theorem digitChars_of_ten_le {n : Nat} (h : 10 ≤ n) :
    digitChars n = digitChars (n / 10) ++ [Nat.digitChar (n % 10)] :=
  Nat.toDigits_of_base_le (by decide) h

theorem digitChars_of_lt_ten {n : Nat} (h : n < 10) : digitChars n = [Nat.digitChar n] :=
  Nat.toDigits_of_lt_base h

/-- A number is divisible by as many tens as it has trailing zeros. -/
theorem pow_trailing_zeros_dvd (n : Nat) :
    10 ^ ((digitChars n).reverse.takeWhile (· == '0')).length ∣ n := by
  induction n using Nat.strongRecOn with
  | ind n ih =>
    by_cases hsmall : n < 10
    · rw [digitChars_of_lt_ten hsmall]
      by_cases hzero : n = 0
      · simp [hzero]
      · have hchar : (Nat.digitChar n == '0') = false := by
          simpa using hzero
        simp [hchar]
    · have hten : 10 ≤ n := Nat.le_of_not_lt hsmall
      rw [digitChars_of_ten_le hten, List.reverse_append, List.reverse_singleton,
        List.singleton_append]
      -- A last zero is a factor of ten, and the others are those of the tenth part.
      by_cases hzero : n % 10 = 0
      · have hchar : (Nat.digitChar (n % 10) == '0') = true := by
          simp [hzero]
        have hdvd := ih (n / 10) (Nat.div_lt_self (by omega) (by decide))
        rw [List.takeWhile_cons, if_pos hchar, List.length_cons, pow_succ]
        have hn : n / 10 * 10 = n := Nat.div_mul_cancel (Nat.dvd_of_mod_eq_zero hzero)
        calc 10 ^ _ * 10 ∣ n / 10 * 10 := Nat.mul_dvd_mul_right hdvd 10
          _ = n := hn
      · have hchar : ¬ (Nat.digitChar (n % 10) == '0') = true := by
          simpa using hzero
        rw [List.takeWhile_cons, if_neg hchar]
        exact one_dvd n

/-- Dropping trailing zeros does not change the number. -/
theorem value_trim (d : Decimal) : d.trim.value = d.value := by
  obtain ⟨digits, exponent⟩ := d
  simp only [trim, value, Nat.pow_eq]
  generalize hzeros : ((digitChars digits).reverse.takeWhile (· == '0')).length = zeros
  have hdvd : 10 ^ zeros ∣ digits := hzeros ▸ pow_trailing_zeros_dvd digits
  have hten : (10 : ℚ) ≠ 0 := by norm_num
  rw [Nat.cast_div hdvd (by simp), Nat.cast_pow, Nat.cast_ofNat, zpow_add₀ hten, zpow_natCast]
  field_simp

end Decimal

namespace Binary64

/-! ### Distances between neighbours -/

theorem unitsPerOne_pos : 0 < unitsPerOne := by decide +kernel

/-- The least double is not below 10⁻⁴⁰⁰. -/
theorem unitsPerOne_le : unitsPerOne ≤ Nat.pow 10 400 := by decide +kernel

/-- In the first binade, and at the start of the second, a rank counts its units. -/
theorem units_of_le {m : Nat} (h : m ≤ binadeSize) : units m = m := by
  rcases Nat.lt_or_eq_of_le h with hlt | rfl
  · simp [units, significand, scale, hlt, Nat.div_eq_of_lt hlt]
  · rfl

/-- From the second binade on the distance of neighbours doubles with every binade. -/
theorem units_of_binade (q : Nat) {m : Nat} (h : m ≤ binadeSize) :
    units (binadeSize * (q + 1) + m) = (binadeSize + m) * 2 ^ q := by
  have hstart : binadeSize ≤ binadeSize * (q + 1) := Nat.le_mul_of_pos_right _ (Nat.succ_pos q)
  rcases Nat.lt_or_eq_of_le h with hlt | rfl
  · have hdiv : (binadeSize * (q + 1) + m) / binadeSize = q + 1 := by
      rw [Nat.mul_add_div (by decide), Nat.div_eq_of_lt hlt, Nat.add_zero]
    have hmod : (binadeSize * (q + 1) + m) % binadeSize = m := by
      rw [Nat.mul_add_mod, Nat.mod_eq_of_lt hlt]
    rw [units, significand, if_neg (by omega), scale, hdiv, hmod, Nat.add_sub_cancel, Nat.pow_eq]
  · -- The end of a binade is the start of the next one.
    have hdiv : (binadeSize * (q + 1) + binadeSize) / binadeSize = q + 2 := by
      rw [← Nat.mul_succ, Nat.mul_div_cancel_left _ (by decide)]
    have hmod : (binadeSize * (q + 1) + binadeSize) % binadeSize = 0 := by
      rw [← Nat.mul_succ, Nat.mul_mod_right]
    rw [units, significand, if_neg (by omega), scale, hdiv, hmod, Nat.pow_eq]
    show (binadeSize + 0) * 2 ^ (q + 1) = _
    rw [pow_succ]
    ring

/-- Every rank lies in the first binade or at some distance from the start of a later one. -/
theorem exists_binade (rank : Nat) :
    rank < binadeSize ∨ ∃ q m, m < binadeSize ∧ rank = binadeSize * (q + 1) + m := by
  rcases Nat.lt_or_ge rank binadeSize with hlt | hge
  · exact .inl hlt
  · have hpos : 0 < rank / binadeSize := Nat.div_pos hge (by decide)
    refine .inr ⟨rank / binadeSize - 1, rank % binadeSize, Nat.mod_lt _ (by decide), ?_⟩
    rw [Nat.sub_add_cancel hpos]
    exact (Nat.div_add_mod rank binadeSize).symm

/-- The units of ranks increase, through the subnormal numbers and across all binary exponents. -/
theorem units_strictMono : StrictMono units := by
  refine strictMono_nat_of_lt_succ fun rank ↦ ?_
  rcases exists_binade rank with hlt | ⟨q, m, hm, rfl⟩
  · rw [units_of_le hlt.le, units_of_le hlt]
    exact Nat.lt_succ_self rank
  · rw [Nat.add_assoc, units_of_binade q hm.le, units_of_binade q hm]
    exact Nat.mul_lt_mul_of_pos_right (by omega) (Nat.two_pow_pos q)

/-- The neighbours of a double are more than two parts in 10¹⁶ of its value apart. -/
theorem units_gap (rank : Nat) (h : 0 < rank) :
    2 * units rank + 10 ^ 16 * units (rank - 1) < 10 ^ 16 * units (rank + 1) := by
  have hsize : binadeSize = 4503599627370496 := rfl
  rcases exists_binade rank with hlt | ⟨q, m, hm, rfl⟩
  · rw [units_of_le (by omega), units_of_le (by omega), units_of_le hlt]
    omega
  rw [Nat.add_assoc _ m 1, units_of_binade q hm.le, units_of_binade q hm]
  have hpos : 0 < 2 ^ q := Nat.two_pow_pos q
  rcases Nat.eq_zero_or_pos m with rfl | hm'
  · -- Below the start of a binade neighbours are half as far apart as above it.
    rw [Nat.add_zero, Nat.add_zero]
    rcases q with _ | q
    · have hbefore : binadeSize * (0 + 1) - 1 = binadeSize - 1 := by omega
      rw [hbefore, units_of_le (by omega), pow_zero]
      omega
    · have hbefore : binadeSize * (q + 1 + 1) - 1 = binadeSize * (q + 1) + (binadeSize - 1) := by
        have : binadeSize * (q + 1 + 1) = binadeSize * (q + 1) + binadeSize := Nat.mul_succ _ _
        omega
      rw [hbefore, units_of_binade q (Nat.sub_le _ _), pow_succ]
      have : 0 < 2 ^ q := Nat.two_pow_pos q
      rw [hsize]
      omega
  · have hbefore : binadeSize * (q + 1) + m - 1 = binadeSize * (q + 1) + (m - 1) := by omega
    rw [hbefore, units_of_binade q (by omega)]
    have hfactor : 2 * (binadeSize + m) + 10 ^ 16 * (binadeSize + (m - 1)) <
        10 ^ 16 * (binadeSize + (m + 1)) := by omega
    calc 2 * ((binadeSize + m) * 2 ^ q) + 10 ^ 16 * ((binadeSize + (m - 1)) * 2 ^ q)
        = (2 * (binadeSize + m) + 10 ^ 16 * (binadeSize + (m - 1))) * 2 ^ q := by ring
      _ < 10 ^ 16 * (binadeSize + (m + 1)) * 2 ^ q := Nat.mul_lt_mul_of_pos_right hfactor hpos
      _ = 10 ^ 16 * ((binadeSize + (m + 1)) * 2 ^ q) := by ring

/-! ### The interval of a rank -/

/-- The value of a rank. -/
def rankValue (rank : Nat) : ℚ := units rank / unitsPerOne

/-- Half-way from the rank below, where the reals that round to a rank begin. -/
def lowerEnd (rank : Nat) : ℚ := (rankValue (rank - 1) + rankValue rank) / 2

/-- Half-way to the rank above, where the reals that round to a rank end. -/
def upperEnd (rank : Nat) : ℚ := (rankValue rank + rankValue (rank + 1)) / 2

/-- A higher rank has a greater value. -/
theorem rankValue_strictMono : StrictMono rankValue := fun rank rank' h ↦ by
  have hunits : (units rank : ℚ) < units rank' := Nat.cast_lt.2 (units_strictMono h)
  exact div_lt_div_of_pos_right hunits (Nat.cast_pos.2 unitsPerOne_pos)

/-- The ends of the intervals increase with the ranks. -/
theorem upperEnd_strictMono : StrictMono upperEnd := fun rank rank' h ↦ by
  have hlow := rankValue_strictMono h
  have hhigh := rankValue_strictMono (Nat.succ_lt_succ h)
  simp only [upperEnd]
  simp only [Nat.succ_eq_add_one] at hhigh
  linarith

/-- The reals that round to neighbouring ranks lie side by side. -/
theorem lowerEnd_succ (rank : Nat) : lowerEnd (rank + 1) = upperEnd rank := rfl

theorem rankValue_lt_upperEnd (rank : Nat) : rankValue rank < upperEnd rank := by
  have := rankValue_strictMono (Nat.lt_succ_self rank)
  simp only [upperEnd]
  simp only [Nat.succ_eq_add_one] at this
  linarith

theorem lowerEnd_lt_rankValue {rank : Nat} (h : 0 < rank) : lowerEnd rank < rankValue rank := by
  have := rankValue_strictMono (Nat.sub_lt h Nat.one_pos)
  simp only [lowerEnd]
  linarith

/-- What rounds to a positive rank is positive. -/
theorem zero_lt_lowerEnd {rank : Nat} (h : 0 < rank) : 0 < lowerEnd rank := by
  have hzero : rankValue 0 = 0 := by
    rw [rankValue, units_of_le (Nat.zero_le _), Nat.cast_zero, zero_div]
  have hpos : rankValue 0 < rankValue rank := rankValue_strictMono h
  have hle : rankValue 0 ≤ rankValue (rank - 1) := rankValue_strictMono.monotone (Nat.zero_le _)
  simp only [lowerEnd]
  linarith

/-- The test on natural numbers is a comparison with the ends of the interval, which belong to it
when the rank is even. -/
theorem rounds_iff {rank : Nat} {d : Decimal} :
    rounds rank d = true ↔
      if rank % 2 = 0 then lowerEnd rank ≤ d.value ∧ d.value ≤ upperEnd rank
      else lowerEnd rank < d.value ∧ d.value < upperEnd rank := by
  have hone : (0 : ℚ) < unitsPerOne := Nat.cast_pos.2 unitsPerOne_pos
  simp only [rounds, lowerEnd, upperEnd, rankValue, Nat.pow_eq]
  generalize unitsPerOne = one at hone ⊢
  have hden : (0 : ℚ) < 10 ^ (-d.exponent).toNat := by positivity
  have hvalue : d.value =
      d.digits * 10 ^ d.exponent.toNat / 10 ^ (-d.exponent).toNat := by
    have hexp : (10 : ℚ) ^ d.exponent =
        10 ^ (d.exponent.toNat : ℤ) / 10 ^ ((-d.exponent).toNat : ℤ) := by
      rw [← zpow_sub₀ (by norm_num)]
      congr 1
      omega
    rw [Decimal.value, hexp, zpow_natCast, zpow_natCast, mul_div_assoc]
  have hhalf (first second : Nat) :
      ((first : ℚ) / one + second / one) / 2 = ((first + second : Nat) : ℚ) / (2 * one) := by
    rw [Nat.cast_add]
    field_simp
  rw [hhalf, hhalf, hvalue]
  split
  · rw [Bool.and_eq_true, decide_eq_true_iff, decide_eq_true_iff,
      div_le_div_iff₀ (by positivity) hden, div_le_div_iff₀ hden (by positivity)]
    norm_cast
  · rw [Bool.and_eq_true, decide_eq_true_iff, decide_eq_true_iff,
      div_lt_div_iff₀ (by positivity) hden, div_lt_div_iff₀ hden (by positivity)]
    norm_cast

/-- A decimal that rounds to a rank is not below the lower end, whether that belongs to the interval
or not. -/
theorem lowerEnd_le_value {rank : Nat} {d : Decimal} (h : rounds rank d = true) :
    lowerEnd rank ≤ d.value := by
  have h := rounds_iff.1 h
  split at h
  · exact h.1
  · exact h.1.le

theorem value_le_upperEnd {rank : Nat} {d : Decimal} (h : rounds rank d = true) :
    d.value ≤ upperEnd rank := by
  have h := rounds_iff.1 h
  split at h
  · exact h.2
  · exact h.2.le

/-- A decimal between the two ends rounds to the rank, whether the ends do or not. -/
theorem rounds_of_inside {rank : Nat} {d : Decimal} (hlower : lowerEnd rank < d.value)
    (hupper : d.value < upperEnd rank) : rounds rank d = true := by
  refine rounds_iff.2 ?_
  split
  · exact ⟨hlower.le, hupper.le⟩
  · exact ⟨hlower, hupper⟩

/-- Of two ranks that a number rounds to, none is below the other. -/
theorem not_lt_of_rounds {rank rank' : Nat} {d d' : Decimal} (h : rounds rank d = true)
    (h' : rounds rank' d' = true) (hvalue : d.value = d'.value) : ¬ rank < rank' := by
  intro hlt
  have hupper : d.value ≤ upperEnd rank := value_le_upperEnd h
  have hlower : upperEnd (rank' - 1) ≤ d'.value := by
    have := lowerEnd_le_value h'
    rwa [← Nat.sub_add_cancel (Nat.one_le_of_lt hlt), lowerEnd_succ] at this
  have hmono : upperEnd rank ≤ upperEnd (rank' - 1) :=
    upperEnd_strictMono.monotone (Nat.le_sub_one_of_lt hlt)
  -- So the two intervals meet, and the number is where they do.
  have hmeet : upperEnd rank = upperEnd (rank' - 1) := by linarith
  have hnext : rank' = rank + 1 := by
    have := upperEnd_strictMono.injective hmeet
    omega
  subst hnext
  -- One of the two ranks is odd and does not own its ends.
  rcases Nat.mod_two_eq_zero_or_one rank with heven | hodd
  · have := rounds_iff.1 h'
    rw [if_neg (by omega), lowerEnd_succ] at this
    linarith
  · have := rounds_iff.1 h
    rw [if_neg (by omega)] at this
    rw [Nat.add_sub_cancel] at hlower
    linarith

/-- **A number rounds to one rank at most.** -/
theorem eq_of_rounds {rank rank' : Nat} {d d' : Decimal} (h : rounds rank d = true)
    (h' : rounds rank' d' = true) (hvalue : d.value = d'.value) : rank = rank' :=
  Nat.le_antisymm (Nat.not_lt.1 (not_lt_of_rounds h' h hvalue.symm))
    (Nat.not_lt.1 (not_lt_of_rounds h h' hvalue))

/-! ### Decimals of few digits -/

/-- A value is at least the power of ten with its exponent. -/
theorem pow_decimalExponent_le {rank : Nat} (h : 0 < rank) :
    (10 : ℚ) ^ decimalExponent rank ≤ rankValue rank := by
  have hunits : 0 < units rank := by
    have := units_strictMono h
    omega
  have hquotient : 0 < units rank * Nat.pow 10 400 / unitsPerOne := by
    refine Nat.div_pos ?_ unitsPerOne_pos
    exact unitsPerOne_le.trans (Nat.le_mul_of_pos_left _ hunits)
  have hpos : 0 < unitsPerOne := unitsPerOne_pos
  simp only [decimalExponent, rankValue]
  generalize hscaling : 400 = scaling at hquotient ⊢
  generalize unitsPerOne = one at hquotient hpos ⊢
  generalize hq : units rank * Nat.pow 10 scaling / one = quotient at hquotient ⊢
  -- A number of `count + 1` digits is at least the power of ten with the exponent `count`.
  obtain ⟨count, hcount⟩ : ∃ count, (Decimal.digitChars quotient).length = count + 1 :=
    Nat.exists_eq_succ_of_ne_zero (List.length_pos_of_ne_nil (Decimal.digitChars_ne_nil _)).ne'
  have hpow : 10 ^ count ≤ quotient := by
    rcases Nat.eq_zero_or_pos count with rfl | hcount'
    · rwa [pow_zero]
    · have := Nat.length_toDigits_le_iff (b := 10) (n := quotient) (by decide) hcount'
      rw [Decimal.digitChars] at hcount
      omega
  have hmul : 10 ^ count * one ≤ units rank * 10 ^ scaling := by
    calc 10 ^ count * one ≤ quotient * one := Nat.mul_le_mul_right one hpow
      _ ≤ units rank * 10 ^ scaling := by
        rw [← hq, Nat.pow_eq]
        exact Nat.div_mul_le_self _ _
  have hmul' : (10 : ℚ) ^ count * one ≤ units rank * 10 ^ scaling := by exact_mod_cast hmul
  have hexp : ((Decimal.digitChars quotient).length : ℤ) - 401 = (count : ℤ) - (scaling : ℤ) := by
    omega
  have hone : (0 : ℚ) < one := Nat.cast_pos.2 hpos
  rw [hexp, zpow_sub₀ (by norm_num), zpow_natCast, zpow_natCast,
    div_le_div_iff₀ (by positivity) hone]
  exact hmul'

/-- The two numbers of a grid around the value of a rank are on either side of it. -/
theorem grid_around (rank : Nat) (exponent : Int) :
    let quotient := units rank * Nat.pow 10 (-exponent).toNat /
      (unitsPerOne * Nat.pow 10 exponent.toNat)
    (Decimal.value ⟨quotient, exponent⟩) ≤ rankValue rank ∧
      rankValue rank < Decimal.value ⟨quotient + 1, exponent⟩ := by
  intro quotient
  have hpos : 0 < unitsPerOne := unitsPerOne_pos
  simp only [Decimal.value, rankValue, quotient, Nat.pow_eq]
  generalize unitsPerOne = one at hpos ⊢
  have hone : (0 : ℚ) < one := Nat.cast_pos.2 hpos
  have hten : (0 : ℚ) < 10 ^ (-exponent).toNat := by positivity
  have hexp : (10 : ℚ) ^ exponent = 10 ^ exponent.toNat / 10 ^ (-exponent).toNat := by
    rw [← zpow_natCast, ← zpow_natCast, ← zpow_sub₀ (by norm_num)]
    congr 1
    omega
  have hden : 0 < one * 10 ^ exponent.toNat := by positivity
  -- Among natural numbers this is division with remainder.
  have hlow := Nat.div_mul_le_self (units rank * 10 ^ (-exponent).toNat) (one * 10 ^ exponent.toNat)
  have hhigh := Nat.lt_div_mul_add (a := units rank * 10 ^ (-exponent).toNat) hden
  generalize units rank * 10 ^ (-exponent).toNat / (one * 10 ^ exponent.toNat) = q at hlow hhigh ⊢
  have hlow' : (q : ℚ) * (one * 10 ^ exponent.toNat) ≤ units rank * 10 ^ (-exponent).toNat := by
    exact_mod_cast hlow
  have hhigh' : (units rank : ℚ) * 10 ^ (-exponent).toNat <
      (q + 1) * (one * 10 ^ exponent.toNat) := by
    rw [add_mul, one_mul]
    exact_mod_cast hhigh
  rw [hexp, ← mul_div_assoc, ← mul_div_assoc, div_le_div_iff₀ hten hone, div_lt_div_iff₀ hone hten]
  constructor
  · linarith
  · push_cast
    linarith

/-- The nearer of two numbers is one of them. -/
theorem divNearestEven_eq_or (num den : Nat) :
    divNearestEven num den = num / den ∨ divNearestEven num den = num / den + 1 := by
  simp only [divNearestEven]
  split
  · exact .inl rfl
  · split
    · exact .inr rfl
    · omega

/-- What is found on a grid rounds to the rank. -/
theorem rounds_of_nearestWithDigits? {rank count : Nat} {d : Decimal}
    (h : nearestWithDigits? rank count = some d) : rounds rank d = true := by
  simp only [nearestWithDigits?] at h
  generalize decimalExponent rank - count + 1 = exponent at h
  generalize units rank * Nat.pow 10 (-exponent).toNat = num at h
  generalize unitsPerOne * Nat.pow 10 exponent.toNat = den at h
  split at h
  · rename_i hbelow habove
    cases h
    rcases divNearestEven_eq_or num den with hnear | hnear
    · exact hnear.symm ▸ hbelow
    · exact hnear.symm ▸ habove
  · rename_i hbelow _
    cases h
    exact hbelow
  · rename_i _ habove
    cases h
    exact habove
  · cases h

/-- **Seventeen digits suffice.** -/
theorem exists_nearestWithDigits? {rank : Nat} (h : 0 < rank) :
    ∃ d, nearestWithDigits? rank 17 = some d := by
  simp only [nearestWithDigits?]
  generalize hexponent : decimalExponent rank - (17 : ℕ) + 1 = exponent
  obtain ⟨hbelow, habove⟩ := grid_around rank exponent
  generalize units rank * Nat.pow 10 (-exponent).toNat /
    (unitsPerOne * Nat.pow 10 exponent.toNat) = q at hbelow habove ⊢
  split
  · exact ⟨_, rfl⟩
  · exact ⟨_, rfl⟩
  · exact ⟨_, rfl⟩
  rename_i hbelow' habove'
  exfalso
  -- Both miss the interval, so a step of the grid is as long as the interval.
  have hlower : Decimal.value ⟨q, exponent⟩ ≤ lowerEnd rank := by
    by_contra hinside
    rw [rounds_of_inside (lt_of_not_ge hinside) (hbelow.trans_lt (rankValue_lt_upperEnd rank))]
      at hbelow'
    cases hbelow'
  have hupper : upperEnd rank ≤ Decimal.value ⟨q + 1, exponent⟩ := by
    by_contra hinside
    rw [rounds_of_inside ((lowerEnd_lt_rankValue h).trans habove) (lt_of_not_ge hinside)]
      at habove'
    cases habove'
  have hstep : 10 ^ 16 * (10 : ℚ) ^ exponent ≤ rankValue rank := by
    have hsplit : (10 : ℚ) ^ decimalExponent rank = 10 ^ 16 * 10 ^ exponent := by
      rw [← zpow_natCast, ← zpow_add₀ (by norm_num)]
      congr 1
      omega
    rw [← hsplit]
    exact pow_decimalExponent_le h
  have hgap : 2 * rankValue rank < 10 ^ 16 * (rankValue (rank + 1) - rankValue (rank - 1)) := by
    have hunits : (2 * units rank + 10 ^ 16 * units (rank - 1) : ℚ) <
        10 ^ 16 * units (rank + 1) := by
      exact_mod_cast units_gap rank h
    have hpos : 0 < unitsPerOne := unitsPerOne_pos
    simp only [rankValue]
    generalize unitsPerOne = one at hpos ⊢
    rw [← sub_div, ← mul_div_assoc, ← mul_div_assoc]
    exact div_lt_div_of_pos_right (by linarith) (Nat.cast_pos.2 hpos)
  simp only [Decimal.value, lowerEnd, upperEnd, Nat.cast_add, Nat.cast_one] at hlower hupper
  linarith

/-- What is printed for a rank has the value of a decimal that rounds to it. -/
theorem exists_rounds_shortest {rank : Nat} (h : 0 < rank) :
    ∃ d, rounds rank d = true ∧ (shortest rank).value = d.value := by
  obtain ⟨d, hd⟩ := exists_nearestWithDigits? h
  simp only [shortest]
  split
  · rename_i d' hd'
    obtain ⟨count, -, hcount⟩ := List.exists_of_findSome?_eq_some hd'
    exact ⟨d', rounds_of_nearestWithDigits? hcount, Decimal.value_trim d'⟩
  · rename_i hnone
    have := List.findSome?_eq_none_iff.1 hnone 16 (by decide)
    rw [hd] at this
    cases this

theorem value_shortest_pos {rank : Nat} (h : 0 < rank) : 0 < (shortest rank).value := by
  obtain ⟨d, hd, hvalue⟩ := exists_rounds_shortest h
  rw [hvalue]
  exact (zero_lt_lowerEnd h).trans_le (lowerEnd_le_value hd)

/-- **The decimal that is printed determines the rank.** -/
theorem eq_of_value_shortest_eq {rank rank' : Nat} (h : 0 < rank) (h' : 0 < rank')
    (hvalue : (shortest rank).value = (shortest rank').value) : rank = rank' := by
  obtain ⟨d, hd, hvalue_d⟩ := exists_rounds_shortest h
  obtain ⟨d', hd', hvalue_d'⟩ := exists_rounds_shortest h'
  exact eq_of_rounds hd hd' (by rw [← hvalue_d, ← hvalue_d', hvalue])

end Binary64

end ActionTools
