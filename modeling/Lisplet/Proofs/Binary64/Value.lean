/-
# Lisplet.Proofs.Binary64.Value -- numbers as exact rationals

The sixty-four bits of a number are a sign, eleven bits of exponent and fifty-two bits of fraction, and what
they denote is said here by these fields alone.  `value_eq` ties that to the units in which magnitudes are
counted elsewhere.

`Rounds r x` is the rule of rounding to nearest, over all finite numbers `x` is compared with: none is nearer
to `r`, and where another is as near the fraction of `x` is even.  From `overflow` on, half a step above the
greatest finite number, nothing finite is the result.  A decimal is read by that rule (`ofDecimal_eq_iff`,
`ofDecimal_eq_infinity_iff`).
-/

import Mathlib.Tactic
import Lisplet.Proofs.Binary64.Rounding

namespace Lisplet.Binary64

/-! ## Fields -/

/-- The eleven bits of the exponent. -/
def exponent (x : Binary64) : Nat := x.bits.toNat / 2 ^ 52 % 2 ^ 11

/-- The fifty-two bits of the fraction. -/
def fraction (x : Binary64) : Nat := x.bits.toNat % 2 ^ 52

/-- The greatest exponent, which no finite number has. -/
def maxExponent : Nat := 0x7ff

/-- The sign of a rational. -/
def signed (negative : Bool) (q : ℚ) : ℚ := if negative then -q else q

/-- What the fields denote: the exponent zero is that of the subnormal numbers, every other one has a bit
before the fraction that is not stored. -/
def value (x : Binary64) : ℚ :=
  signed x.isNegative <|
    if x.exponent = 0 then x.fraction * 2 ^ (-1074 : ℤ)
    else (2 ^ 52 + x.fraction) * 2 ^ ((x.exponent : ℤ) - 1075)

theorem binade_eq : binade = 2 ^ 52 := rfl

theorem pattern_div_binade (x : Binary64) : x.pattern / binade = x.exponent := by
  have hweight : signWeight = 2 ^ 52 * 2 ^ 11 := rfl
  rw [pattern, exponent, hweight, binade_eq, Nat.mod_mul_right_div_self]

theorem pattern_mod_binade (x : Binary64) : x.pattern % binade = x.fraction := by
  have hweight : signWeight = 2 ^ 52 * 2 ^ 11 := rfl
  rw [pattern, fraction, hweight, binade_eq, Nat.mod_mul_right_mod]

theorem pattern_eq (x : Binary64) : x.pattern = x.exponent * binade + x.fraction := by
  rw [← pattern_div_binade, ← pattern_mod_binade, Nat.mul_comm, Nat.div_add_mod]

theorem fraction_lt (x : Binary64) : x.fraction < binade := Nat.mod_lt _ binade_pos

theorem exponent_le (x : Binary64) : x.exponent ≤ maxExponent :=
  Nat.le_of_lt_succ (Nat.mod_lt _ (by decide))

/-- The finite numbers are those below the greatest exponent. -/
theorem isFinite_iff_exponent (x : Binary64) : x.isFinite = true ↔ x.exponent < maxExponent := by
  rw [isFinite_iff, ← pattern_div_binade, Nat.div_lt_iff_lt_mul binade_pos]
  rfl

/-- With the greatest exponent, a fraction other than zero is not a number. -/
theorem isNaN_iff_fields (x : Binary64) :
    x.isNaN = true ↔ x.exponent = maxExponent ∧ x.fraction ≠ 0 := by
  have hinfinity : infinityPattern = maxExponent * binade := rfl
  have hle := x.exponent_le
  rw [isNaN_iff, hinfinity, pattern_eq]
  constructor
  · intro h
    have heq : x.exponent = maxExponent := by
      by_contra hne
      have hscaled := Nat.mul_le_mul_right binade (Nat.succ_le_of_lt (lt_of_le_of_ne hle hne))
      have hfraction := x.fraction_lt
      rw [Nat.succ_mul] at hscaled
      omega
    rw [heq] at h
    exact ⟨heq, by omega⟩
  · rintro ⟨heq, hne⟩
    rw [heq]
    omega

/-- With the greatest exponent, the fraction zero is infinity. -/
theorem isInfinite_iff_fields (x : Binary64) :
    x.isInfinite = true ↔ x.exponent = maxExponent ∧ x.fraction = 0 := by
  have hnan := x.isNaN_iff_fields
  have hfinite := x.isFinite_iff_exponent
  have hle := x.exponent_le
  rw [isNaN_iff] at hnan
  rw [isFinite_iff] at hfinite
  rw [isInfinite_iff]
  omega

/-- The parity of a pattern is that of its fraction. -/
theorem pattern_mod_two (x : Binary64) : x.pattern % 2 = x.fraction % 2 := by
  obtain ⟨k, hk⟩ := binade_even
  have hexp : x.exponent * binade = 2 * (x.exponent * k) := by
    rw [hk]
    ring
  rw [pattern_eq, hexp, Nat.mul_add_mod]

/-! ## Values in units -/

theorem twoPow_cast (n : ℕ) : (twoPow n : ℚ) = 2 ^ (n : ℤ) := by
  rw [twoPow, Nat.pow_eq, Nat.cast_pow, Nat.cast_ofNat, zpow_natCast]

theorem unitsPerOne_cast_pos : (0 : ℚ) < unitsPerOne := Nat.cast_pos.2 unitsPerOne_pos

/-- The magnitude that the fields denote, in units. -/
theorem units_pattern (x : Binary64) :
    units x.pattern = if x.exponent = 0 then x.fraction else (binade + x.fraction) * 2 ^ (x.exponent - 1) := by
  rw [units, significand, scale, pattern_div_binade, pattern_eq]
  split
  · next hzero => simp [hzero, twoPow]
  · next hpos =>
    obtain ⟨e, he⟩ : ∃ e, x.exponent = e + 1 := ⟨x.exponent - 1, by omega⟩
    rw [he, Nat.add_sub_cancel, Nat.succ_mul, Nat.add_assoc, Nat.add_sub_cancel_left]
    rfl

/-- The value of a number is its magnitude in units, with its sign. -/
theorem value_eq (x : Binary64) : x.value = signed x.isNegative (units x.pattern / unitsPerOne) := by
  rw [value, units_pattern, unitsPerOne, twoPow_cast]
  congr 1
  split
  · rw [zpow_neg, div_eq_mul_inv]
    rfl
  · next hpos =>
    obtain ⟨e, he⟩ : ∃ e, x.exponent = e + 1 := ⟨x.exponent - 1, by omega⟩
    have hexp : ((e + 1 : ℕ) : ℤ) - 1075 = (e : ℤ) - (1074 : ℕ) := by
      push_cast
      ring
    rw [he, Nat.add_sub_cancel, hexp, zpow_sub₀ two_ne_zero, zpow_natCast, zpow_natCast, binade_eq,
      Nat.cast_mul, Nat.cast_add, Nat.cast_pow, Nat.cast_pow, mul_div_assoc]
    rfl

theorem value_eq_signedUnits (x : Binary64) : x.value = x.signedUnits / unitsPerOne := by
  rw [value_eq, signedUnits, signed]
  split
  · rw [Int.cast_neg, Int.cast_natCast, neg_div]
  · rw [Int.cast_natCast]

theorem abs_signed (negative : Bool) (q : ℚ) : |signed negative q| = |q| := by
  unfold signed
  split
  · exact abs_neg q
  · rfl

theorem signed_sub_signed (negative : Bool) (p q : ℚ) :
    |signed negative p - signed negative q| = |p - q| := by
  unfold signed
  split
  · rw [neg_sub_neg, abs_sub_comm]
  · rfl

theorem signed_not (negative : Bool) (q : ℚ) : signed (!negative) q = -signed negative q := by
  cases negative <;> simp [signed]

theorem signed_add (negative : Bool) (p q : ℚ) :
    signed negative p + signed negative q = signed negative (p + q) := by
  unfold signed
  split
  · ring
  · rfl

theorem abs_value (x : Binary64) : |x.value| = units x.pattern / unitsPerOne := by
  rw [value_eq, abs_signed, abs_of_nonneg (by positivity)]

/-! ## Rounding to nearest -/

/-- The magnitude from which on nothing finite is the result: half a step above the greatest finite
number. -/
def overflow : ℚ := 2 ^ (1023 : ℤ) * (2 - 2 ^ (-53 : ℤ))

/-- `x` is the finite number that `r` is rounded to: none is nearer, and if another is as near, the fraction of
`x` is even. -/
structure Rounds (r : ℚ) (x : Binary64) : Prop where
  finite : x.isFinite = true
  bounded : |r| < overflow
  nearest : ∀ y : Binary64, y.isFinite = true → |x.value - r| ≤ |y.value - r|
  even : ∀ y : Binary64, y.isFinite = true → |y.value - r| = |x.value - r| →
    y.value = x.value ∨ x.fraction % 2 = 0

/-- The midpoint above the greatest finite number. -/
theorem overflow_eq : overflow = lowerEnd infinityPattern / (2 * unitsPerOne) := by
  have hpattern : infinityPattern = 2045 * binade + 2 * binade := by decide
  have hend := lowerEnd_of_scale hpattern (Nat.mul_pos two_pos binade_pos) (Or.inr (by decide))
    (by decide)
  have hcast : (lowerEnd infinityPattern : ℚ) + twoPow 2045 = 2 * (2 * twoPow 52) * twoPow 2045 := by
    rw [← Nat.cast_add, hend, Nat.cast_mul, Nat.cast_mul, Nat.cast_mul, Nat.cast_ofNat, binade]
  have hsplit : (twoPow 2045 : ℚ) = twoPow 971 * unitsPerOne := by
    rw [unitsPerOne, ← Nat.cast_mul, ← twoPow_add]
  have hpower : (2 : ℚ) ^ (1023 : ℤ) = twoPow 52 * twoPow 971 := by
    rw [← Nat.cast_mul, ← twoPow_add, twoPow_cast]
    rfl
  have hstep : (2 : ℚ) ^ (-53 : ℤ) * twoPow 52 = 1 / 2 := by
    rw [twoPow_cast, ← zpow_add₀ two_ne_zero]
    norm_num
  have hunits := unitsPerOne_cast_pos.ne'
  rw [overflow, hpower, eq_sub_of_add_eq hcast, hsplit]
  generalize (twoPow 971 : ℚ) = a, (twoPow 52 : ℚ) = b, (unitsPerOne : ℚ) = u,
    (2 : ℚ) ^ (-53 : ℤ) = h at *
  field_simp
  linear_combination (-2 * a) * hstep

/-- Every finite pattern is that of a number, of either sign. -/
theorem ofPattern_finite (negative : Bool) {p : Nat} (hp : p < infinityPattern) :
    (ofPattern negative p).isFinite = true ∧ (ofPattern negative p).pattern = p ∧
      (ofPattern negative p).value = signed negative (units p / unitsPerOne) := by
  have hlt := hp.trans infinityPattern_lt_signWeight
  have hpattern := pattern_ofPattern negative hlt
  refine ⟨(isFinite_iff _).2 (hpattern.trans_lt hp), hpattern, ?_⟩
  rw [value_eq, isNegative_ofPattern negative hlt, hpattern]

/-- Distances between rationals of one sign are those between their magnitudes in units. -/
theorem abs_signed_div_sub (negative : Bool) (a b : ℚ) :
    |signed negative (a / unitsPerOne) - signed negative (b / unitsPerOne)| = |a - b| / unitsPerOne := by
  rw [signed_sub_signed, ← sub_div, abs_div, abs_of_pos unitsPerOne_cast_pos]

theorem cast_lowerEnd (p : Nat) : (lowerEnd p : ℚ) = units (p - 1) + units p := by
  rw [lowerEnd, Nat.cast_add]

theorem cast_upperEnd (p : Nat) : (upperEnd p : ℚ) = units p + units (p + 1) := by
  rw [upperEnd, Nat.cast_add]

theorem units_cast_le {p q : Nat} (h : p ≤ q) : (units p : ℚ) ≤ units q :=
  Nat.cast_le.2 (units_strictMono.monotone h)

theorem units_cast_lt {p q : Nat} (h : p < q) : (units p : ℚ) < units q :=
  Nat.cast_lt.2 (units_strictMono h)

/-- `t` units lie between the midpoints around `p`, and on a midpoint only if `p` is even. -/
structure Encloses (p : Nat) (t : ℚ) : Prop where
  lower : (lowerEnd p : ℚ) ≤ 2 * t
  upper : 2 * t ≤ upperEnd p
  lower_odd : p % 2 = 1 → (lowerEnd p : ℚ) < 2 * t
  upper_odd : p % 2 = 1 → 2 * t < upperEnd p

/-- A quotient is enclosed as a rational. -/
theorem between_iff {p num den : Nat} (hden : 0 < den) : Between p num den ↔ Encloses p (num / den) := by
  have hden' : (0 : ℚ) < den := Nat.cast_pos.2 hden
  have hlower : lowerEnd p * den ≤ 2 * num ↔ (lowerEnd p : ℚ) ≤ 2 * (num / den) := by
    rw [mul_div_assoc', le_div_iff₀ hden']
    exact_mod_cast Iff.rfl
  have hupper : 2 * num ≤ upperEnd p * den ↔ 2 * (num / den : ℚ) ≤ upperEnd p := by
    rw [mul_div_assoc', div_le_iff₀ hden']
    exact_mod_cast Iff.rfl
  have hlower' : lowerEnd p * den < 2 * num ↔ (lowerEnd p : ℚ) < 2 * (num / den) := by
    rw [mul_div_assoc', lt_div_iff₀ hden']
    exact_mod_cast Iff.rfl
  have hupper' : 2 * num < upperEnd p * den ↔ 2 * (num / den : ℚ) < upperEnd p := by
    rw [mul_div_assoc', div_lt_iff₀ hden']
    exact_mod_cast Iff.rfl
  constructor
  · intro h
    exact ⟨hlower.1 h.lower, hupper.1 h.upper, fun hodd => hlower'.1 (h.lower_odd hodd),
      fun hodd => hupper'.1 (h.upper_odd hodd)⟩
  · intro h
    exact ⟨hlower.2 h.lower, hupper.2 h.upper, fun hodd => hlower'.2 (h.lower_odd hodd),
      fun hodd => hupper'.2 (h.upper_odd hodd)⟩

namespace Encloses

variable {p q : Nat} {t : ℚ}

/-- No magnitude is nearer than the one that encloses. -/
theorem abs_sub_le (h : Encloses p t) (q : Nat) : |units p - t| ≤ |units q - t| := by
  have hlower := cast_lowerEnd p ▸ h.lower
  have hupper := cast_upperEnd p ▸ h.upper
  have hnext := units_cast_le (Nat.le_succ p)
  have hprevious := units_cast_le (Nat.sub_le p 1)
  rcases lt_trichotomy q p with hlt | rfl | hgt
  · have hq := units_cast_le (Nat.le_sub_one_of_lt hlt)
    refine le_trans (abs_le.2 ⟨?_, ?_⟩) (neg_le_abs _) <;> linarith
  · exact le_rfl
  · have hq := units_cast_le (Nat.succ_le_of_lt hgt)
    refine le_trans (abs_le.2 ⟨?_, ?_⟩) (le_abs_self _) <;> linarith

/-- And if the pattern is odd, none is as near. -/
theorem abs_sub_lt (h : Encloses p t) (hodd : p % 2 = 1) (hq : q ≠ p) : |units p - t| < |units q - t| := by
  have hlower := cast_lowerEnd p ▸ h.lower_odd hodd
  have hupper := cast_upperEnd p ▸ h.upper_odd hodd
  have hnext := units_cast_lt (Nat.lt_succ_self p)
  have hprevious : (units (p - 1) : ℚ) < units p := units_cast_lt (by omega)
  rcases hq.lt_or_gt with hlt | hgt
  · have hq := units_cast_le (Nat.le_sub_one_of_lt hlt)
    refine lt_of_lt_of_le (abs_lt.2 ⟨?_, ?_⟩) (neg_le_abs _) <;> linarith
  · have hq := units_cast_le (Nat.succ_le_of_lt hgt)
    refine lt_of_lt_of_le (abs_lt.2 ⟨?_, ?_⟩) (le_abs_self _) <;> linarith

/-- Nothing encloses zero but zero. -/
theorem eq_zero (h : Encloses p 0) : p = 0 := by
  by_contra hne
  have hlower := h.lower
  have hpos := units_cast_lt (Nat.pos_of_ne_zero hne)
  have hnonneg : (0 : ℚ) ≤ units (p - 1) := Nat.cast_nonneg _
  rw [cast_lowerEnd] at hlower
  rw [units_zero, Nat.cast_zero] at hpos
  linarith

end Encloses

/-- If of two magnitudes the greater one is no farther, `t` is not below the midpoint. -/
theorem midpoint_le {a b t : ℚ} (hab : a < b) (h : |b - t| ≤ |a - t|) : a + b ≤ 2 * t := by
  by_contra hlt
  have hnearer : |a - t| < b - t := abs_lt.2 ⟨by linarith, by linarith⟩
  have := le_abs_self (b - t)
  linarith

/-- If of two magnitudes the smaller one is no farther, `t` is not above the midpoint. -/
theorem le_midpoint {a b t : ℚ} (hab : a < b) (h : |a - t| ≤ |b - t|) : 2 * t ≤ a + b := by
  by_contra hlt
  have hnearer : |b - t| < t - a := abs_lt.2 ⟨by linarith, by linarith⟩
  have := neg_le_abs (a - t)
  linarith

/-- The midpoint is equally far from both. -/
theorem abs_sub_midpoint {a b t : ℚ} (h : a + b = 2 * t) : |a - t| = |b - t| := by
  rw [← abs_neg (a - t)]
  congr 1
  linarith

/-- Below `overflow` is below the midpoint above the greatest finite pattern. -/
theorem div_lt_overflow_iff (t : ℚ) :
    t / unitsPerOne < overflow ↔ 2 * t < lowerEnd infinityPattern := by
  have hunits := unitsPerOne_cast_pos
  rw [overflow_eq, mul_comm (2 : ℚ), ← div_div, div_right_comm, div_lt_div_iff_of_pos_right hunits,
    lt_div_iff₀ two_pos, mul_comm]

/-- What a finite pattern encloses does not overflow. -/
theorem Encloses.lt_lowerEnd {p : Nat} {t : ℚ} (h : Encloses p t) (hp : p < infinityPattern) :
    2 * t < lowerEnd infinityPattern := by
  rcases Nat.lt_or_ge (p + 1) infinityPattern with hlt | hge
  · have hupper := cast_upperEnd p ▸ h.upper
    have hself := units_cast_le (Nat.le_sub_one_of_lt hp)
    have hnext := units_cast_lt hlt
    rw [cast_lowerEnd]
    linarith
  · -- the greatest finite pattern is odd
    have hlast : infinityPattern = p + 1 := by omega
    have hodd : p % 2 = 1 := by
      have heven : infinityPattern % 2 = 0 := by decide
      omega
    rw [hlast, lowerEnd_succ]
    exact h.upper_odd hodd

section Rounding

variable {x : Binary64} {t : ℚ}

/-- How far a number is from a rational, by their magnitudes in units. -/
theorem abs_value_sub (x : Binary64) (t : ℚ) :
    |x.value - signed x.isNegative (t / unitsPerOne)| = |units x.pattern - t| / unitsPerOne := by
  rw [value_eq, abs_signed_div_sub]

/-- A number of another sign is at least as far as one of the same magnitude. -/
theorem le_abs_value_sub (x y : Binary64) (ht : 0 ≤ t) :
    |units y.pattern - t| / unitsPerOne ≤ |y.value - signed x.isNegative (t / unitsPerOne)| := by
  have hunits := unitsPerOne_cast_pos
  refine le_trans (le_of_eq ?_) (abs_abs_sub_abs_le _ _)
  rw [abs_value, abs_signed, abs_of_nonneg (div_nonneg ht hunits.le), ← sub_div, abs_div,
    abs_of_pos hunits]

/-- The negation of a number is farther, unless one of the magnitudes is zero. -/
theorem eq_zero_of_abs_value_sub {y : Binary64} (hpattern : y.pattern = x.pattern)
    (hvalue : y.value ≠ x.value) (ht : 0 ≤ t)
    (h : |y.value - signed x.isNegative (t / unitsPerOne)| = |units x.pattern - t| / unitsPerOne) :
    (units x.pattern : ℚ) = 0 ∨ t = 0 := by
  have hunits := unitsPerOne_cast_pos
  have hnonneg : (0 : ℚ) ≤ units x.pattern := Nat.cast_nonneg _
  have hsign : y.isNegative = !x.isNegative := by
    by_contra hsame
    rw [Bool.eq_not, not_not] at hsame
    exact hvalue (by rw [value_eq, value_eq, hpattern, hsame])
  have hnegated : |y.value - signed x.isNegative (t / unitsPerOne)| =
      (units x.pattern + t) / unitsPerOne := by
    rw [value_eq, hpattern, hsign, signed_not, ← neg_add', abs_neg, signed_add, abs_signed, ← add_div,
      abs_of_nonneg (div_nonneg (add_nonneg hnonneg ht) hunits.le)]
  rw [hnegated, div_left_inj' hunits.ne'] at h
  rcases abs_cases ((units x.pattern : ℚ) - t) with ⟨habs, -⟩ | ⟨habs, -⟩
  · exact Or.inr (by linarith)
  · exact Or.inl (by linarith)

/-- The number that encloses a magnitude is what a rational of that magnitude and of the sign of the number
is rounded to. -/
theorem Encloses.rounds (h : Encloses x.pattern t) (hx : x.isFinite = true) (ht : 0 ≤ t) :
    Rounds (signed x.isNegative (t / unitsPerOne)) x := by
  have hunits := unitsPerOne_cast_pos
  refine ⟨hx, ?_, fun y _ => ?_, fun y _ heq => ?_⟩
  · rw [abs_signed, abs_of_nonneg (div_nonneg ht hunits.le), div_lt_overflow_iff]
    exact h.lt_lowerEnd ((isFinite_iff x).1 hx)
  · rw [abs_value_sub]
    exact ((div_le_div_iff_of_pos_right hunits).2 (h.abs_sub_le y.pattern)).trans
      (le_abs_value_sub x y ht)
  · rw [← pattern_mod_two]
    by_contra! hne
    have hodd : x.pattern % 2 = 1 := by omega
    rw [abs_value_sub] at heq
    have hle := (div_le_div_iff_of_pos_right hunits).1 (heq ▸ le_abs_value_sub x y ht)
    -- an odd magnitude is nearer than all others, so the other number can only be the negation
    have hpattern : y.pattern = x.pattern := by
      by_contra hother
      exact absurd (h.abs_sub_lt hodd hother) hle.not_gt
    rcases eq_zero_of_abs_value_sub hpattern hne.1 ht heq with hzero | rfl
    · have hpos := units_cast_lt (show 0 < x.pattern by omega)
      rw [units_zero, Nat.cast_zero] at hpos
      exact hpos.ne' hzero
    · have := h.eq_zero
      omega

/-- No other magnitude with the sign of the number is nearer, and one is as near only if the pattern is
even. -/
theorem Rounds.neighbour (h : Rounds (signed x.isNegative (t / unitsPerOne)) x) {q : Nat}
    (hq : q < infinityPattern) :
    |units x.pattern - t| ≤ |units q - t| ∧
      (|units q - t| = |units x.pattern - t| → q ≠ x.pattern → x.pattern % 2 = 0) := by
  have hunits := unitsPerOne_cast_pos
  obtain ⟨hfinite, hpattern, hvalue⟩ := ofPattern_finite x.isNegative hq
  have hother : |(ofPattern x.isNegative q).value - signed x.isNegative (t / unitsPerOne)| =
      |units q - t| / unitsPerOne := by
    rw [hvalue, abs_signed_div_sub]
  have hnearest := h.nearest _ hfinite
  rw [abs_value_sub, hother, div_le_div_iff_of_pos_right hunits] at hnearest
  refine ⟨hnearest, fun heq hne => ?_⟩
  rw [pattern_mod_two]
  refine (h.even _ hfinite (by rw [abs_value_sub, hother, heq])).resolve_left fun hsame => hne ?_
  have habs : |(ofPattern x.isNegative q).value| = |x.value| := by rw [hsame]
  rw [abs_value, abs_value, hpattern, div_left_inj' hunits.ne'] at habs
  exact units_strictMono.injective (Nat.cast_injective habs)

/-- And the rule of rounding says no less. -/
theorem Rounds.encloses (h : Rounds (signed x.isNegative (t / unitsPerOne)) x) (ht : 0 ≤ t) :
    Encloses x.pattern t := by
  have hunits := unitsPerOne_cast_pos
  have hlt := (isFinite_iff x).1 h.finite
  have hneighbour : ∀ q, q < infinityPattern → |units x.pattern - t| ≤ |units q - t| ∧
      (|units q - t| = |units x.pattern - t| → q ≠ x.pattern → x.pattern % 2 = 0) := fun q => h.neighbour
  generalize x.pattern = p at *
  have hlower : lowerEnd p ≤ 2 * t ∧ (p % 2 = 1 → lowerEnd p < 2 * t) := by
    rcases Nat.eq_zero_or_pos p with rfl | hpos
    · simp [lowerEnd, units_zero, ht]
    · have hprevious := hneighbour (p - 1) (by omega)
      have hle : (lowerEnd p : ℚ) ≤ 2 * t :=
        cast_lowerEnd p ▸ midpoint_le (units_cast_lt (by omega)) hprevious.1
      refine ⟨hle, fun hodd => lt_of_le_of_ne hle fun heq => ?_⟩
      have := hprevious.2 (abs_sub_midpoint (cast_lowerEnd p ▸ heq)) (by omega)
      omega
  have hupper : 2 * t ≤ upperEnd p ∧ (p % 2 = 1 → 2 * t < upperEnd p) := by
    rcases Nat.lt_or_ge (p + 1) infinityPattern with hfinite | hlast
    · have hnext := hneighbour (p + 1) hfinite
      have hle : 2 * t ≤ upperEnd p :=
        cast_upperEnd p ▸ le_midpoint (units_cast_lt (Nat.lt_succ_self p)) hnext.1
      refine ⟨hle, fun hodd => lt_of_le_of_ne hle fun heq => ?_⟩
      have := hnext.2 (abs_sub_midpoint (cast_upperEnd p ▸ heq.symm)).symm (by omega)
      omega
    · have hbounded := h.bounded
      rw [abs_signed, abs_of_nonneg (div_nonneg ht hunits.le), div_lt_overflow_iff,
        show infinityPattern = p + 1 by omega, lowerEnd_succ] at hbounded
      exact ⟨hbounded.le, fun _ => hbounded⟩
  exact ⟨hlower.1, hupper.1, hlower.2, hupper.2⟩

end Rounding

/-! ## Reading decimals -/

/-- The magnitude of a decimal in units. -/
theorem cast_digits_div (digits places : Nat) :
    ((digits * unitsPerOne : Nat) : ℚ) / (tenPow places : Nat) = (digits / 10 ^ places : ℚ) * unitsPerOne := by
  rw [tenPow, Nat.pow_eq, Nat.cast_mul, Nat.cast_pow, Nat.cast_ofNat, div_mul_eq_mul_div]

variable {negative : Bool} {digits places : Nat}

/-- The pattern that a decimal is rounded to encloses it. -/
theorem nearest_eq_iff_encloses {p : Nat} (hp : p < infinityPattern) :
    nearest (digits * unitsPerOne) (tenPow places) = p ↔
      Encloses p ((digits / 10 ^ places : ℚ) * unitsPerOne) := by
  rw [nearest_eq_iff (tenPow_pos places) hp, between_iff (tenPow_pos places), cast_digits_div]

/-- A decimal is read with its sign and the pattern that it is rounded to. -/
theorem ofDecimal_fields (negative : Bool) (digits places : Nat) :
    (ofDecimal negative digits places).isNegative = negative ∧
      (ofDecimal negative digits places).pattern = nearest (digits * unitsPerOne) (tenPow places) := by
  have hle : nearest (digits * unitsPerOne) (tenPow places) ≤ infinityPattern := Nat.min_le_left _ _
  have hlt := hle.trans_lt infinityPattern_lt_signWeight
  exact ⟨isNegative_ofPattern negative hlt, pattern_ofPattern negative hlt⟩

/-- A decimal is read as the finite number of its sign that its exact value is rounded to. -/
theorem ofDecimal_eq_iff {x : Binary64} (hx : x.isFinite = true) :
    ofDecimal negative digits places = x ↔
      x.isNegative = negative ∧ Rounds (signed negative (digits / 10 ^ places)) x := by
  obtain ⟨hsign, hpattern⟩ := ofDecimal_fields negative digits places
  have hlt := (isFinite_iff x).1 hx
  have hdecimal : (0 : ℚ) ≤ digits / 10 ^ places := by positivity
  have hnonneg := mul_nonneg hdecimal unitsPerOne_cast_pos.le
  have hunits : (digits / 10 ^ places : ℚ) = (digits / 10 ^ places : ℚ) * unitsPerOne / unitsPerOne :=
    (mul_div_cancel_right₀ _ unitsPerOne_cast_pos.ne').symm
  constructor
  · rintro rfl
    refine ⟨hsign, ?_⟩
    have hencloses := (nearest_eq_iff_encloses hlt).1 hpattern.symm
    have hrounds := hencloses.rounds hx hnonneg
    rwa [← hunits, hsign] at hrounds
  · rintro ⟨rfl, hrounds⟩
    rw [hunits] at hrounds
    have hnearest := (nearest_eq_iff_encloses hlt).2 (hrounds.encloses hnonneg)
    exact eq_of_pattern_eq hsign (hpattern.trans hnearest)

/-- A decimal is read as an infinity of its sign exactly from `overflow` on. -/
theorem isInfinite_ofDecimal_iff :
    (ofDecimal negative digits places).isInfinite = true ↔ overflow ≤ (digits / 10 ^ places : ℚ) := by
  have hunits : (digits / 10 ^ places : ℚ) = (digits / 10 ^ places : ℚ) * unitsPerOne / unitsPerOne :=
    (mul_div_cancel_right₀ _ unitsPerOne_cast_pos.ne').symm
  obtain ⟨p, hp⟩ := exists_between (digits * unitsPerOne) (tenPow_pos places)
  have hencloses := (between_iff (tenPow_pos places)).1 hp
  rw [cast_digits_div] at hencloses
  rw [isInfinite_iff, (ofDecimal_fields negative digits places).2, nearest_eq_min (tenPow_pos places) hp,
    hunits, ← not_lt, div_lt_overflow_iff, not_lt]
  constructor
  · intro h
    have hle : infinityPattern ≤ p := h ▸ Nat.min_le_right infinityPattern p
    have hends : (lowerEnd infinityPattern : ℚ) ≤ lowerEnd p := by
      rw [cast_lowerEnd, cast_lowerEnd]
      exact add_le_add (units_cast_le (by omega)) (units_cast_le hle)
    exact hends.trans hencloses.lower
  · intro h
    refine Nat.min_eq_left (not_lt.1 fun hlt => ?_)
    exact absurd (hencloses.lt_lowerEnd hlt) h.not_gt

end Lisplet.Binary64
