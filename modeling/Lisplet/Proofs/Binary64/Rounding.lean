/-
# Lisplet.Proofs.Binary64.Rounding -- what rounds to a pattern

The magnitudes that round to a finite pattern are those between the midpoints to its two neighbours,
the midpoints included exactly if the pattern is even.  `nearest_of_between` is that statement for
`nearest`, which sees its input only as a quotient.  A binade is closed at both ends for this purpose:
on `[(e + 1) * binade, (e + 2) * binade]` the magnitude is linear in the pattern, the upper end being
the first pattern of the next binade.
-/

import Mathlib.Tactic
import Lisplet.Binary64.Shortest

namespace Lisplet.Binary64

/-! ## Powers and binades -/

theorem twoPow_pos (n : Nat) : 0 < twoPow n := Nat.pow_pos (by decide)

theorem twoPow_succ (n : Nat) : twoPow (n + 1) = 2 * twoPow n :=
  (Nat.pow_succ 2 n).trans (Nat.mul_comm _ _)

theorem twoPow_add (m n : Nat) : twoPow (m + n) = twoPow m * twoPow n := Nat.pow_add 2 m n

theorem tenPow_pos (n : Nat) : 0 < tenPow n := Nat.pow_pos (by decide)

theorem unitsPerOne_pos : 0 < unitsPerOne := twoPow_pos 1074

theorem binade_pos : 0 < binade := twoPow_pos 52

/-- A binade has an even number of patterns, so the parity of a pattern is that of its significand. -/
theorem binade_even : ∃ k, binade = 2 * k := ⟨twoPow 51, twoPow_succ 51⟩

/-! ## Magnitudes -/

/-- Within a closed binade the magnitude is linear in the pattern. -/
theorem units_of_scale {p e : Nat} (hlo : e = 0 ∨ (e + 1) * binade ≤ p)
    (hhi : p ≤ (e + 2) * binade) : units p = (p - e * binade) * twoPow e := by
  have hB := binade_pos
  have h1 : (e + 1) * binade = e * binade + binade := by ring
  have h2 : (e + 2) * binade = e * binade + 2 * binade := by ring
  rcases Nat.lt_or_ge p ((e + 2) * binade) with hlt | hge
  · have hscale : scale p = e := by
      have hupper : p / binade < e + 2 := (Nat.div_lt_iff_lt_mul hB).2 hlt
      unfold scale
      rcases hlo with rfl | hlo
      · omega
      · have hlower : e + 1 ≤ p / binade := (Nat.le_div_iff_mul_le hB).2 hlo
        omega
    simp only [units, significand, hscale]
  · -- the upper end belongs to the next binade, whose unit is twice as large
    have hp : p = (e + 2) * binade := Nat.le_antisymm hhi hge
    have hscale : scale p = e + 1 := by
      rw [hp, scale, Nat.mul_div_cancel _ hB]
      omega
    have hsig : significand p = binade := by
      rw [significand, hscale]
      omega
    have hsub : p - e * binade = 2 * binade := by omega
    rw [units, hsig, hscale, hsub, twoPow_succ]
    ring

/-- Every pattern lies in the binade of its scale. -/
theorem scale_spec (p : Nat) :
    (scale p = 0 ∨ (scale p + 1) * binade ≤ p) ∧ p < (scale p + 2) * binade := by
  have hB := binade_pos
  have hdiv := Nat.div_add_mod p binade
  have hmod := Nat.mod_lt p hB
  unfold scale
  rcases Nat.eq_zero_or_pos (p / binade) with h0 | hpos
  · refine ⟨Or.inl (by omega), ?_⟩
    rw [h0] at hdiv ⊢
    omega
  · obtain ⟨q, hq⟩ : ∃ q, p / binade = q + 1 := ⟨p / binade - 1, by omega⟩
    rw [hq] at hdiv ⊢
    have hexp : binade * (q + 1) = (q + 1) * binade := Nat.mul_comm _ _
    have hexp' : (q + 1 - 1 + 2) * binade = (q + 1) * binade + binade := by
      rw [Nat.add_sub_cancel]
      ring
    refine ⟨Or.inr ?_, ?_⟩
    · rw [Nat.add_sub_cancel]
      omega
    · omega

/-- A greater pattern is a greater magnitude. -/
theorem units_lt_succ (p : Nat) : units p < units (p + 1) := by
  obtain ⟨hlo, hhi⟩ := scale_spec p
  have hle : scale p * binade ≤ p := by
    rcases hlo with h0 | hlo
    · simp [h0]
    · exact (Nat.mul_le_mul_right _ (Nat.le_succ _)).trans hlo
  rw [units_of_scale hlo hhi.le, units_of_scale (hlo.imp_right fun h => h.trans (Nat.le_succ p)) hhi]
  exact Nat.mul_lt_mul_of_pos_right (by omega) (twoPow_pos _)

theorem units_zero : units 0 = 0 := by
  simp [units, significand]

theorem units_strictMono : StrictMono units := strictMono_nat_of_lt_succ units_lt_succ

/-- The first pattern of a binade is a power of two. -/
theorem units_binade (e : Nat) : units ((e + 1) * binade) = twoPow (52 + e) := by
  rw [units_of_scale (Or.inr le_rfl) (Nat.mul_le_mul_right _ (by omega)), twoPow_add]
  have h : (e + 1) * binade - e * binade = binade := by
    rw [← Nat.sub_mul]
    simp
  rw [h]
  rfl

/-- The midpoint below a pattern, if that is not the first of its binade. -/
theorem lowerEnd_of_scale {p e m : Nat} (hp : p = e * binade + m) (hm : 0 < m)
    (hlo : e = 0 ∨ (e + 1) * binade < p) (hhi : p ≤ (e + 2) * binade) :
    lowerEnd p + twoPow e = 2 * m * twoPow e := by
  have hpred : units (p - 1) = (p - 1 - e * binade) * twoPow e :=
    units_of_scale (hlo.imp_right Nat.le_sub_one_of_lt) ((Nat.sub_le p 1).trans hhi)
  have hself : units p = (p - e * binade) * twoPow e := units_of_scale (hlo.imp_right le_of_lt) hhi
  obtain ⟨k, rfl⟩ : ∃ k, m = k + 1 := ⟨m - 1, by omega⟩
  rw [lowerEnd, hpred, hself, hp, show e * binade + (k + 1) - 1 - e * binade = k by omega,
    Nat.add_sub_cancel_left]
  ring

/-- The midpoint above a pattern of a binade. -/
theorem upperEnd_of_scale {p e m : Nat} (hp : p = e * binade + m)
    (hlo : e = 0 ∨ (e + 1) * binade ≤ p) (hhi : p < (e + 2) * binade) :
    upperEnd p = 2 * m * twoPow e + twoPow e := by
  have hsucc : units (p + 1) = (p + 1 - e * binade) * twoPow e :=
    units_of_scale (hlo.imp_right fun h => h.trans (Nat.le_succ p)) hhi
  have hself : units p = (p - e * binade) * twoPow e := units_of_scale hlo hhi.le
  rw [upperEnd, hsucc, hself, hp, show e * binade + m + 1 - e * binade = m + 1 by omega,
    Nat.add_sub_cancel_left]
  ring

/-! ## Signs and patterns -/

theorem isFinite_iff (x : Binary64) : x.isFinite = true ↔ x.pattern < infinityPattern := by
  simp [isFinite]

theorem isNaN_iff (x : Binary64) : x.isNaN = true ↔ infinityPattern < x.pattern := by
  simp [isNaN]

theorem isInfinite_iff (x : Binary64) : x.isInfinite = true ↔ x.pattern = infinityPattern := by
  simp [isInfinite]

/-- Sign and pattern determine a number. -/
theorem ofPattern_pattern (x : Binary64) : ofPattern x.isNegative x.pattern = x := by
  have hlt : x.bits.toNat < 2 * signWeight := x.bits.toNat_lt
  have hbits : (if x.isNegative then signWeight + x.pattern else x.pattern) = x.bits.toNat := by
    unfold isNegative pattern
    by_cases h : signWeight ≤ x.bits.toNat
    · have hmod : x.bits.toNat % signWeight = x.bits.toNat - signWeight := by
        rw [Nat.mod_eq_sub_mod h, Nat.mod_eq_of_lt (by omega)]
      simp only [h, decide_true, if_true, hmod]
      omega
    · simp only [h, decide_false, Bool.false_eq_true, if_false]
      exact Nat.mod_eq_of_lt (not_le.1 h)
  cases x with
  | mk bits => simp only [ofPattern, hbits, UInt64.ofNat_toNat]

theorem infinityPattern_lt_signWeight : infinityPattern < signWeight := by decide

/-- A pattern is what it was made from. -/
theorem pattern_ofPattern (negative : Bool) {p : Nat} (h : p < signWeight) :
    (ofPattern negative p).pattern = p := by
  have hweight : signWeight = 9223372036854775808 := rfl
  show (UInt64.ofNat (if negative then signWeight + p else p)).toNat % signWeight = p
  rw [UInt64.toNat_ofNat']
  simp only [hweight] at h ⊢
  split <;> omega

/-- A sign is what was made with it. -/
theorem isNegative_ofPattern (negative : Bool) {p : Nat} (h : p < signWeight) :
    (ofPattern negative p).isNegative = negative := by
  have hweight : signWeight = 9223372036854775808 := rfl
  show decide (signWeight ≤ (UInt64.ofNat (if negative then signWeight + p else p)).toNat) = negative
  rw [UInt64.toNat_ofNat']
  simp only [hweight] at h ⊢
  cases negative
  · simp only [Bool.false_eq_true, if_false, decide_eq_false_iff_not]
    omega
  · simp only [if_true, decide_eq_true_eq]
    omega

/-! ## Numeric equality -/

/-- Two numbers are the same number: finite ones by value, whatever their sign if both are zero, and
infinite ones by sign.  What is not a number is the same as nothing. -/
inductive SameNumber (x y : Binary64) : Prop
  | finite (hx : x.isFinite = true) (hy : y.isFinite = true) (h : x.signedUnits = y.signedUnits)
  | infinite (hx : x.isInfinite = true) (hy : y.isInfinite = true)
      (h : x.isNegative = y.isNegative)

theorem eq_of_pattern_eq {x y : Binary64} (hsign : x.isNegative = y.isNegative)
    (hpattern : x.pattern = y.pattern) : x = y := by
  rw [← ofPattern_pattern x, ← ofPattern_pattern y, hsign, hpattern]

/-- Numbers of one value have one pattern, and one sign unless they are zero. -/
theorem pattern_of_signedUnits_eq {x y : Binary64} (h : x.signedUnits = y.signedUnits) :
    x.pattern = y.pattern ∧ (x.isNegative = y.isNegative ∨ x.pattern = 0) := by
  have hinj := units_strictMono.injective
  have hzero : ∀ p, units p = 0 → p = 0 := fun p hp => hinj (hp.trans units_zero.symm)
  unfold signedUnits at h
  split at h <;> split at h
  · next hx hy => exact ⟨hinj (by omega), Or.inl (hx.trans hy.symm)⟩
  · have hx := hzero x.pattern (by omega)
    have hy := hzero y.pattern (by omega)
    exact ⟨hx.trans hy.symm, Or.inr hx⟩
  · have hx := hzero x.pattern (by omega)
    have hy := hzero y.pattern (by omega)
    exact ⟨hx.trans hy.symm, Or.inr hx⟩
  · next hx hy => exact ⟨hinj (by omega), Or.inl (by simp_all)⟩

/-- `equals` is equality of numbers. -/
theorem equals_iff (x y : Binary64) : x.equals y = true ↔ SameNumber x y := by
  simp only [equals, Bool.and_eq_true, Bool.not_eq_true', Bool.or_eq_true, beq_iff_eq,
    ← Bool.not_eq_true, isNaN_iff, not_lt]
  constructor
  · rintro ⟨⟨hx, hy⟩, hbits | ⟨hx0, hy0⟩⟩
    · obtain rfl : x = y := by
        cases x
        cases y
        exact congrArg mk hbits
      rcases hx.lt_or_eq with hlt | heq
      · exact .finite ((isFinite_iff x).2 hlt) ((isFinite_iff x).2 hlt) rfl
      · exact .infinite ((isInfinite_iff x).2 heq) ((isInfinite_iff x).2 heq) rfl
    · have hpos : 0 < infinityPattern := Nat.mul_pos (by decide) binade_pos
      refine .finite ((isFinite_iff x).2 (hx0 ▸ hpos)) ((isFinite_iff y).2 (hy0 ▸ hpos)) ?_
      simp [signedUnits, hx0, hy0, units_zero]
  · rintro (⟨hx, hy, h⟩ | ⟨hx, hy, h⟩)
    · refine ⟨⟨((isFinite_iff x).1 hx).le, ((isFinite_iff y).1 hy).le⟩, ?_⟩
      obtain ⟨hpattern, hsign | hx0⟩ := pattern_of_signedUnits_eq h
      · exact Or.inl (congrArg bits (eq_of_pattern_eq hsign hpattern))
      · exact Or.inr ⟨hx0, hpattern ▸ hx0⟩
    · have hxp := (isInfinite_iff x).1 hx
      have hyp := (isInfinite_iff y).1 hy
      exact ⟨⟨hxp.le, hyp.le⟩, Or.inl (congrArg bits (eq_of_pattern_eq h (hxp.trans hyp.symm)))⟩

/-! ## Rounding a quotient -/

/-- A whole number at most half away is the rounded quotient; exactly half away, it has to be even. -/
theorem divNearestEven_eq {num den m : Nat} (hden : 0 < den)
    (hlo : 2 * m * den ≤ 2 * num + den) (hhi : 2 * num ≤ 2 * m * den + den)
    (hlo' : m % 2 = 1 → 2 * m * den < 2 * num + den)
    (hhi' : m % 2 = 1 → 2 * num < 2 * m * den + den) : divNearestEven num den = m := by
  have hdiv := Nat.div_add_mod num den
  have hmod := Nat.mod_lt num hden
  unfold divNearestEven
  dsimp only
  generalize num / den = q at *
  generalize num % den = r at *
  -- the rounded quotient is the truncated one or the one above it, and the remainder decides which
  have hle : m ≤ q + 1 := by
    by_contra h
    have hmul : (q + 2) * den ≤ m * den := Nat.mul_le_mul_right _ (by omega)
    linarith
  have hge : q ≤ m := by
    by_contra h
    have hmul : (m + 1) * den ≤ q * den := Nat.mul_le_mul_right _ (by omega)
    linarith
  rcases Nat.lt_or_ge q m with hlt | hge'
  · obtain rfl : m = q + 1 := by omega
    have hexp : 2 * (q + 1) * den = 2 * (den * q) + 2 * den := by ring
    rw [hexp] at hlo hhi hlo' hhi'
    rw [if_neg (by omega)]
    split
    · rfl
    · omega
  · obtain rfl : m = q := by omega
    have hexp : 2 * m * den = 2 * (den * m) := by ring
    rw [hexp] at hlo hhi hlo' hhi'
    split
    · rfl
    · rw [if_neg (by omega)]
      omega

/-- The binade in which a quotient is rounded, by the power of two below it. -/
theorem log2_sub_spec (num den : Nat) (hden : 0 < den) :
    ((num / den).log2 - 52 = 0 ∨ twoPow (52 + ((num / den).log2 - 52)) * den ≤ num) ∧
      num < twoPow (53 + ((num / den).log2 - 52)) * den := by
  set s := (num / den).log2 - 52 with hs
  have hupper : num / den < twoPow (53 + s) := by
    have hlt : num / den < twoPow ((num / den).log2 + 1) := Nat.lt_log2_self
    exact hlt.trans_le (Nat.pow_le_pow_right (by decide) (by omega))
  refine ⟨?_, (Nat.div_lt_iff_lt_mul hden).1 hupper⟩
  rcases Nat.eq_zero_or_pos s with h0 | hpos
  · exact Or.inl h0
  · right
    have hne : num / den ≠ 0 := by
      intro h
      simp [h] at hs
      omega
    have hlower : twoPow (num / den).log2 ≤ num / den := Nat.log2_self_le hne
    have hexp : 52 + s = (num / den).log2 := by omega
    rw [hexp]
    exact (Nat.le_div_iff_mul_le hden).1 hlower

/-- `num / den` units lie between the midpoints to the neighbours of `p`, and on a midpoint only if `p`
is even. -/
structure Between (p num den : Nat) : Prop where
  lower : lowerEnd p * den ≤ 2 * num
  upper : 2 * num ≤ upperEnd p * den
  lower_odd : p % 2 = 1 → lowerEnd p * den < 2 * num
  upper_odd : p % 2 = 1 → 2 * num < upperEnd p * den

namespace Between

variable {p num den s : Nat}

/-- A quotient above a power of two is between no midpoints below it. -/
theorem first_le (h : Between p num den) (hden : 0 < den) (hpower : twoPow (52 + s) * den ≤ num) :
    (s + 1) * binade ≤ p := by
  by_contra hlt
  have hsucc : units (p + 1) ≤ twoPow (52 + s) :=
    units_binade s ▸ units_strictMono.monotone (by omega)
  have hself : units p < units (p + 1) := units_lt_succ p
  have hbound : upperEnd p < 2 * twoPow (52 + s) := by
    unfold upperEnd
    omega
  have hscaled := Nat.mul_lt_mul_of_pos_right hbound hden
  have hupper := h.upper
  linarith

/-- A quotient below a power of two is between no midpoints above it. -/
theorem le_last (h : Between p num den) (hden : 0 < den) (hpower : num < twoPow (53 + s) * den) :
    p ≤ (s + 2) * binade := by
  by_contra hgt
  have hpred : twoPow (53 + s) ≤ units (p - 1) := by
    have hfirst := units_binade (s + 1)
    rw [show 52 + (s + 1) = 53 + s by omega] at hfirst
    exact hfirst ▸ units_strictMono.monotone (Nat.le_sub_one_of_lt (not_le.1 hgt))
  have hself : units (p - 1) < units p := units_strictMono (by omega)
  have hbound : 2 * twoPow (53 + s) < lowerEnd p := by
    unfold lowerEnd
    omega
  have hscaled := Nat.mul_lt_mul_of_pos_right hbound hden
  have hlower := h.lower
  linarith

variable {m : Nat}

/-- Measured in the unit of its binade, the quotient is at most half a step below the pattern.  Below
the first pattern of a binade the step is smaller, but there no quotient of the binade lies. -/
theorem half_below (h : Between p num den) (hden : 0 < den) (hp : p = s * binade + m)
    (hparity : m % 2 = p % 2) (hlo : s = 0 ∨ (s + 1) * binade ≤ p) (hhi : p ≤ (s + 2) * binade)
    (hpower : s = 0 ∨ twoPow (52 + s) * den ≤ num) :
    2 * m * (den * twoPow s) ≤ 2 * num + den * twoPow s ∧
      (m % 2 = 1 → 2 * m * (den * twoPow s) < 2 * num + den * twoPow s) := by
  have hunit : 0 < den * twoPow s := Nat.mul_pos hden (twoPow_pos s)
  rcases Nat.eq_zero_or_pos m with rfl | hm
  · exact ⟨by omega, fun hodd => absurd hodd (by decide)⟩
  by_cases hinner : s = 0 ∨ (s + 1) * binade < p
  · have hend := lowerEnd_of_scale hp hm hinner hhi
    have hscaled : 2 * m * (den * twoPow s) = lowerEnd p * den + den * twoPow s := by
      calc 2 * m * (den * twoPow s) = 2 * m * twoPow s * den := by ring
        _ = lowerEnd p * den + den * twoPow s := by
          rw [← hend]
          ring
    rw [hscaled]
    exact ⟨Nat.add_le_add_right h.lower _,
      fun hodd => Nat.add_lt_add_right (h.lower_odd (hparity ▸ hodd)) _⟩
  · -- the pattern is the first of the binade, whose lower midpoint is nearer than half a step
    obtain ⟨hne, hle⟩ := not_or.1 hinner
    have hm' : m = binade := by
      have hfirst := hlo.resolve_left hne
      have hexp : (s + 1) * binade = s * binade + binade := by ring
      omega
    have hpower' := hpower.resolve_left hne
    rw [twoPow_add] at hpower'
    have hscaled : 2 * m * (den * twoPow s) = 2 * (twoPow 52 * twoPow s * den) := by
      rw [hm', binade]
      ring
    rw [hscaled]
    exact ⟨by omega, fun _ => by omega⟩

/-- Measured in the unit of its binade, the quotient is at most half a step above the pattern.  Above
the last pattern of a closed binade the step is greater, but there no quotient of the binade lies. -/
theorem half_above (h : Between p num den) (hden : 0 < den) (hp : p = s * binade + m)
    (hparity : m % 2 = p % 2) (hlo : s = 0 ∨ (s + 1) * binade ≤ p) (hhi : p ≤ (s + 2) * binade)
    (hpower : num < twoPow (53 + s) * den) :
    2 * num ≤ 2 * m * (den * twoPow s) + den * twoPow s ∧
      (m % 2 = 1 → 2 * num < 2 * m * (den * twoPow s) + den * twoPow s) := by
  have hunit : 0 < den * twoPow s := Nat.mul_pos hden (twoPow_pos s)
  rcases Nat.lt_or_ge p ((s + 2) * binade) with hinner | hlast
  · have hend := upperEnd_of_scale hp hlo hinner
    have hscaled : 2 * m * (den * twoPow s) + den * twoPow s = upperEnd p * den := by
      rw [hend]
      ring
    rw [hscaled]
    exact ⟨h.upper, fun hodd => h.upper_odd (hparity ▸ hodd)⟩
  · -- the pattern is the power of two that closes the binade, and the quotient lies below it
    have hm : m = 2 * binade := by
      have hexp : (s + 2) * binade = s * binade + 2 * binade := by ring
      omega
    rw [twoPow_add] at hpower
    have hscaled : 2 * m * (den * twoPow s) = 2 * (twoPow 53 * twoPow s * den) := by
      rw [hm, binade, twoPow_succ 52]
      ring
    rw [hscaled]
    exact ⟨by omega, fun _ => by omega⟩

end Between

/-- What lies between the midpoints around a pattern is rounded to it, unless the pattern is past the last
finite one. -/
theorem nearest_eq_min {p num den : Nat} (hden : 0 < den) (h : Between p num den) :
    nearest num den = min infinityPattern p := by
  obtain ⟨hfloor, hceil⟩ := log2_sub_spec num den hden
  unfold nearest
  dsimp only
  generalize (num / den).log2 - 52 = s at *
  -- the quotient and the pattern lie in the same closed binade
  have hlo : s = 0 ∨ (s + 1) * binade ≤ p := hfloor.imp_right (h.first_le hden)
  have hhi : p ≤ (s + 2) * binade := h.le_last hden hceil
  obtain ⟨m, hm⟩ : ∃ m, p = s * binade + m := by
    refine ⟨p - s * binade, (Nat.add_sub_of_le ?_).symm⟩
    rcases hlo with rfl | hlo
    · simp
    · exact (Nat.mul_le_mul_right _ (Nat.le_succ s)).trans hlo
  have hparity : m % 2 = p % 2 := by
    obtain ⟨k, hk⟩ := binade_even
    have hsk : s * binade = 2 * (s * k) := by
      rw [hk]
      ring
    omega
  have hbelow := h.half_below hden hm hparity hlo hhi hfloor
  have habove := h.half_above hden hm hparity hlo hhi hceil
  have hrounded : divNearestEven num (den * twoPow s) = m :=
    divNearestEven_eq (Nat.mul_pos hden (twoPow_pos s)) hbelow.1 habove.1 hbelow.2 habove.2
  rw [hrounded, ← hm]

/-- The magnitudes that round to a finite pattern are those between the midpoints to its neighbours. -/
theorem nearest_of_between {p num den : Nat} (hden : 0 < den) (hp : p < infinityPattern)
    (h : Between p num den) : nearest num den = p :=
  (nearest_eq_min hden h).trans (Nat.min_eq_right hp.le)

/-- The midpoint above a pattern is the one below the next. -/
theorem lowerEnd_succ (p : Nat) : lowerEnd (p + 1) = upperEnd p := by
  rw [lowerEnd, upperEnd, Nat.add_sub_cancel]

/-- Every quotient lies between the midpoints around some pattern: around the last pattern whose lower
midpoint it reaches, or around the one before, if it is that midpoint and the last pattern is odd. -/
theorem exists_between (num : Nat) {den : Nat} (hden : 0 < den) : ∃ p, Between p num den := by
  have hgrows : ∀ p, p ≤ lowerEnd (p + 1) := fun p => by
    have hle : p ≤ units p := units_strictMono.le_apply
    rw [lowerEnd_succ, upperEnd]
    omega
  have hbound : ∀ p, lowerEnd p * den ≤ 2 * num → p ≤ 2 * num + 1 := by
    intro p hp
    have hle : lowerEnd p ≤ lowerEnd p * den := Nat.le_mul_of_pos_right _ hden
    rcases Nat.eq_zero_or_pos p with rfl | hpos
    · exact Nat.zero_le _
    · obtain ⟨q, rfl⟩ : ∃ q, p = q + 1 := ⟨p - 1, by omega⟩
      have := hgrows q
      omega
  have hzero : lowerEnd 0 * den ≤ 2 * num := by simp [lowerEnd, units_zero]
  have hself := Nat.findGreatest_spec (P := fun p => lowerEnd p * den ≤ 2 * num)
    (Nat.zero_le (2 * num + 1)) hzero
  have hnext : ∀ p, Nat.findGreatest (fun p => lowerEnd p * den ≤ 2 * num) (2 * num + 1) < p →
      2 * num < lowerEnd p * den := fun p hlt => by
    by_contra hle
    have hreached : lowerEnd p * den ≤ 2 * num := not_lt.1 hle
    exact (Nat.findGreatest_is_greatest hlt (hbound p hreached)) hreached
  generalize Nat.findGreatest (fun p => lowerEnd p * den ≤ 2 * num) (2 * num + 1) = p at hself hnext
  have hupper : 2 * num < upperEnd p * den := lowerEnd_succ p ▸ hnext (p + 1) (Nat.lt_succ_self p)
  by_cases hend : p % 2 = 1 ∧ lowerEnd p * den = 2 * num
  · obtain ⟨q, rfl⟩ : ∃ q, p = q + 1 := ⟨p - 1, by omega⟩
    have hshared : upperEnd q * den = 2 * num := lowerEnd_succ q ▸ hend.2
    refine ⟨q, ?_, hshared.ge, fun hodd => by omega, fun hodd => by omega⟩
    have hmono : lowerEnd q ≤ upperEnd q :=
      Nat.add_le_add (units_strictMono.monotone (Nat.sub_le q 1))
        (units_strictMono.monotone (Nat.le_succ q))
    exact (Nat.mul_le_mul_right den hmono).trans hshared.le
  · exact ⟨p, hself, hupper.le, fun hodd => lt_of_le_of_ne hself fun heq => hend ⟨hodd, heq⟩,
      fun _ => hupper⟩

/-- A finite pattern is the nearest one to exactly the magnitudes between the midpoints around it. -/
theorem nearest_eq_iff {p num den : Nat} (hden : 0 < den) (hp : p < infinityPattern) :
    nearest num den = p ↔ Between p num den := by
  refine ⟨fun h => ?_, nearest_of_between hden hp⟩
  obtain ⟨q, hq⟩ := exists_between num hden
  have hmin := (nearest_eq_min hden hq).symm.trans h
  obtain rfl : q = p := by omega
  exact hq

/-- What is not above the magnitude of a pattern is below the midpoint that follows it. -/
theorem lt_upperEnd {p num den : Nat} (hden : 0 < den) (h : num ≤ units p * den) :
    2 * num < upperEnd p * den := by
  have hbound : 2 * units p < upperEnd p := by
    have := units_lt_succ p
    unfold upperEnd
    omega
  have hscaled := Nat.mul_lt_mul_of_pos_right hbound hden
  linarith

/-- What is not below the magnitude of a pattern is above the midpoint that precedes it, save that the
pattern zero has no midpoint below. -/
theorem lowerEnd_lt {p num den : Nat} (hden : 0 < den) (hp : 0 < p) (h : units p * den ≤ num) :
    lowerEnd p * den < 2 * num := by
  have hbound : lowerEnd p < 2 * units p := by
    have : units (p - 1) < units p := units_strictMono (by omega)
    unfold lowerEnd
    omega
  have hscaled := Nat.mul_lt_mul_of_pos_right hbound hden
  linarith

/-- A magnitude rounds to its own pattern. -/
theorem nearest_units {p den : Nat} (hden : 0 < den) (hp : p < infinityPattern) :
    nearest (units p * den) den = p := by
  have hupper : 2 * (units p * den) < upperEnd p * den := lt_upperEnd hden le_rfl
  refine nearest_of_between hden hp ⟨?_, hupper.le, ?_, fun _ => hupper⟩
  · rcases Nat.eq_zero_or_pos p with rfl | hpos
    · exact (Nat.zero_le _).trans' (by simp [lowerEnd, units, significand])
    · exact (lowerEnd_lt hden hpos le_rfl).le
  · intro hodd
    exact lowerEnd_lt hden (by omega) le_rfl

end Lisplet.Binary64
