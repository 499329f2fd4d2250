/-
# Lisplet.Proofs.Binary64.Fewest -- no shorter decimal reads back

The search for a decimal passes the grids from the coarsest on and looks at two points of each.  That is enough:
if any point of a grid rounds to the pattern, so does the one next to the magnitude on the same side
(`onGrid_eq_none`, `onGrid_nearest`).  So what the search ends with has the fewest places of all decimals that
round to the pattern, and no other of that many places is nearer (`shortest_fewest`).

The search starts with one place.  A whole number that rounds to a pattern is that pattern's magnitude, since
the distance of neighbours divides one wherever it is less than one (`isWhole_of_between`).
-/

import Mathlib.Tactic
import Lisplet.Proofs.Binary64.ReadBack

namespace Lisplet.Binary64

/-! ## Whole numbers -/

/-- Neighbours are as far from each other as the significand is scaled. -/
theorem units_succ (p : Nat) : units (p + 1) = units p + twoPow (scale p) := by
  obtain ⟨hlo, hhi⟩ := scale_spec p
  have hle : scale p * binade ≤ p := by
    rcases hlo with h0 | hlo
    · simp [h0]
    · exact (Nat.mul_le_mul_right _ (Nat.le_succ _)).trans hlo
  rw [units_of_scale hlo hhi.le, units_of_scale (hlo.imp_right fun h => h.trans (Nat.le_succ p)) hhi,
    Nat.succ_sub hle, Nat.succ_mul]

theorem scale_le_succ (p : Nat) : scale p ≤ scale (p + 1) :=
  Nat.sub_le_sub_right (Nat.div_le_div_right (Nat.le_succ p)) 1

/-- A multiple of the distance of neighbours that rounds to a pattern is its magnitude. -/
theorem Between.eq_units {p num : Nat} (h : Between p num 1) (hdvd : twoPow (scale p) ∣ num) :
    num = units p := by
  have hpos := twoPow_pos (scale p)
  obtain ⟨a, rfl⟩ := hdvd
  have hself : units p = twoPow (scale p) * significand p := Nat.mul_comm _ _
  have hupper : twoPow (scale p) * (2 * a) ≤ twoPow (scale p) * (2 * significand p + 1) := by
    have hend := h.upper
    rw [upperEnd, units_succ, hself] at hend
    linarith
  have hlower : twoPow (scale p) * (2 * significand p) ≤ twoPow (scale p) * (2 * a + 1) := by
    have hend := h.lower
    rcases Nat.eq_zero_or_pos p with rfl | hp
    · simp [significand]
    · obtain ⟨q, rfl⟩ : ∃ q, p = q + 1 := ⟨p - 1, by omega⟩
      have hstep : twoPow (scale q) ≤ twoPow (scale (q + 1)) :=
        Nat.pow_le_pow_right two_pos (scale_le_succ q)
      have hsucc := units_succ q
      rw [lowerEnd_succ, upperEnd] at hend
      rw [hself] at hend hsucc
      linarith
  have hle := Nat.le_of_mul_le_mul_left hupper hpos
  have hge := Nat.le_of_mul_le_mul_left hlower hpos
  rw [hself, show a = significand p by omega]

theorem twoPow_dvd_twoPow {m n : Nat} (h : m ≤ n) : twoPow m ∣ twoPow n := pow_dvd_pow 2 h

/-- If a whole number rounds to a pattern, its magnitude is whole. -/
theorem isWhole_of_between {p n : Nat} (h : Between p (n * unitsPerOne) (tenPow 0)) :
    isWhole p = true := by
  refine decide_eq_true (Nat.mod_eq_zero_of_dvd ?_)
  rcases le_total (scale p) 1074 with hle | hge
  · have hdvd : twoPow (scale p) ∣ unitsPerOne := twoPow_dvd_twoPow hle
    rw [← h.eq_units (hdvd.mul_left n)]
    exact Dvd.intro_left n rfl
  · have hdvd : unitsPerOne ∣ twoPow (scale p) := twoPow_dvd_twoPow hge
    exact hdvd.mul_left _

/-! ## Grids -/

variable {p k n : Nat} {d : Decimal}

/-- The magnitude of a pattern on the grid of `k` places. -/
def onScale (p k : Nat) : ℚ := units p * 10 ^ k / unitsPerOne

/-- The point that the search looks at below the magnitude is the last one that is not above it. -/
theorem floor_spec (p k : Nat) :
    ((units p * tenPow k / unitsPerOne : Nat) : ℚ) ≤ onScale p k ∧
      onScale p k < (units p * tenPow k / unitsPerOne : Nat) + 1 := by
  have hunits : (0 : ℚ) < unitsPerOne := Nat.cast_pos.2 unitsPerOne_pos
  have hcast : onScale p k = ((units p * tenPow k : Nat) : ℚ) / unitsPerOne := by
    rw [onScale, tenPow, Nat.pow_eq, Nat.cast_mul, Nat.cast_pow, Nat.cast_ofNat]
  rw [hcast, le_div_iff₀ hunits, div_lt_iff₀ hunits]
  refine ⟨by exact_mod_cast Nat.div_mul_le_self _ _, ?_⟩
  exact_mod_cast Nat.lt_mul_of_div_lt (Nat.lt_succ_self _) unitsPerOne_pos

/-- A magnitude that lies on a grid is the point that the search looks at. -/
theorem floor_exact (h : unitsPerOne ∣ units p * tenPow k) :
    ((units p * tenPow k / unitsPerOne : Nat) : ℚ) = onScale p k := by
  have hunits : (0 : ℚ) < unitsPerOne := Nat.cast_pos.2 unitsPerOne_pos
  rw [Nat.cast_div h hunits.ne', onScale, tenPow, Nat.pow_eq, Nat.cast_mul, Nat.cast_pow, Nat.cast_ofNat]

/-- The magnitude is nearer to a point than to the next. -/
theorem nearer_iff (p k b : Nat) :
    2 * units p * tenPow k < (2 * b + 1) * unitsPerOne ↔ 2 * onScale p k < 2 * b + 1 := by
  have hunits : (0 : ℚ) < unitsPerOne := Nat.cast_pos.2 unitsPerOne_pos
  rw [onScale, mul_div_assoc', div_lt_iff₀ hunits, ← mul_assoc, tenPow, Nat.pow_eq]
  exact_mod_cast Iff.rfl

/-- If a point rounds to the pattern, so does every point between it and the magnitude. -/
theorem fitsBelow_of_le {b : Nat} (h : Between p (n * unitsPerOne) (tenPow k)) (hle : n ≤ b) :
    fitsBelow p k b = true := by
  have hmono : n * unitsPerOne ≤ b * unitsPerOne := Nat.mul_le_mul_right _ hle
  have hlower := h.lower
  have hodd := h.lower_odd
  unfold fitsBelow
  rw [Nat.mul_assoc]
  split
  · exact decide_eq_true (by omega)
  · have := hodd (by omega)
    exact decide_eq_true (by omega)

theorem fitsAbove_of_le {a : Nat} (h : Between p (n * unitsPerOne) (tenPow k)) (hle : a ≤ n) :
    fitsAbove p k a = true := by
  have hmono : a * unitsPerOne ≤ n * unitsPerOne := Nat.mul_le_mul_right _ hle
  have hupper := h.upper
  have hodd := h.upper_odd
  unfold fitsAbove
  rw [Nat.mul_assoc]
  split
  · exact decide_eq_true (by omega)
  · have := hodd (by omega)
    exact decide_eq_true (by omega)

/-- A grid offers nothing only if neither of its two points next to the magnitude rounds to the pattern. -/
theorem onGrid_none_cases (h : onGrid p k = none) :
    fitsBelow p k (units p * tenPow k / unitsPerOne) = false ∧
      fitsAbove p k (units p * tenPow k / unitsPerOne + 1) = false := by
  unfold onGrid at h
  dsimp only at h
  split at h
  · split at h <;> cases h
  · cases h
  · cases h
  · next hbelow habove => exact ⟨hbelow, habove⟩

/-- If both points next to the magnitude round to the pattern, the grid offers the nearer one. -/
theorem onGrid_some_cases (h : onGrid p k = some d) :
    (d = ⟨units p * tenPow k / unitsPerOne, k⟩ ∧
      (fitsAbove p k (units p * tenPow k / unitsPerOne + 1) = true →
        2 * onScale p k < 2 * (units p * tenPow k / unitsPerOne : Nat) + 1)) ∨
    (d = ⟨units p * tenPow k / unitsPerOne + 1, k⟩ ∧
      (fitsBelow p k (units p * tenPow k / unitsPerOne) = true →
        2 * (units p * tenPow k / unitsPerOne : Nat) + 1 ≤ 2 * onScale p k)) := by
  unfold onGrid at h
  dsimp only at h
  split at h
  · split at h
    · next hnear => exact Or.inl ⟨(Option.some.inj h).symm, fun _ => (nearer_iff _ _ _).1 hnear⟩
    · next hfar =>
      exact Or.inr ⟨(Option.some.inj h).symm, fun _ => not_lt.1 (mt (nearer_iff _ _ _).2 hfar)⟩
  · next _ habove =>
    exact Or.inl ⟨(Option.some.inj h).symm, fun hfits => absurd (habove.symm.trans hfits) nofun⟩
  · next hbelow _ =>
    exact Or.inr ⟨(Option.some.inj h).symm, fun hfits => absurd (hbelow.symm.trans hfits) nofun⟩
  · cases h

/-- A grid that offers nothing has no point that rounds to the pattern. -/
theorem onGrid_eq_none (h : onGrid p k = none) : ¬ Between p (n * unitsPerOne) (tenPow k) := by
  intro hbetween
  obtain ⟨hbelow, habove⟩ := onGrid_none_cases h
  rcases Nat.lt_or_ge (units p * tenPow k / unitsPerOne) n with hlt | hge
  · have hfits := fitsAbove_of_le hbetween hlt
    rw [habove] at hfits
    cases hfits
  · have hfits := fitsBelow_of_le hbetween hge
    rw [hbelow] at hfits
    cases hfits

/-- No point of a grid that rounds to the pattern is nearer than the one that the grid offers. -/
theorem onGrid_nearest (h : onGrid p k = some d) (hn : Between p (n * unitsPerOne) (tenPow k)) :
    |(d.digits : ℚ) - onScale p k| ≤ |(n : ℚ) - onScale p k| := by
  obtain ⟨hfloor, hceil⟩ := floor_spec p k
  have hcases := onGrid_some_cases h
  have hbelow : ∀ b, n ≤ b → fitsBelow p k b = true := fun _ => fitsBelow_of_le hn
  have habove : ∀ a, a ≤ n → fitsAbove p k a = true := fun _ => fitsAbove_of_le hn
  generalize units p * tenPow k / unitsPerOne = b at *
  have hdown := neg_le_abs ((n : ℚ) - onScale p k)
  have hup := le_abs_self ((n : ℚ) - onScale p k)
  -- the point offered and the one it is compared with are on one side of the magnitude or on two
  rcases Nat.lt_or_ge b n with hlt | hge
  · have hn' : (b : ℚ) + 1 ≤ n := by exact_mod_cast hlt
    refine le_trans ?_ hup
    rcases hcases with ⟨rfl, hnear⟩ | ⟨rfl, -⟩
    · have := hnear (habove (b + 1) hlt)
      exact abs_le.2 ⟨by linarith, by linarith⟩
    · push_cast
      exact abs_le.2 ⟨by linarith, by linarith⟩
  · have hn' : (n : ℚ) ≤ b := by exact_mod_cast hge
    refine le_trans ?_ hdown
    rcases hcases with ⟨rfl, -⟩ | ⟨rfl, hfar⟩
    · exact abs_le.2 ⟨by linarith, by linarith⟩
    · have := hfar (hbelow b hge)
      push_cast
      exact abs_le.2 ⟨by linarith, by linarith⟩

/-! ## The search -/

/-- The search ends no later than at a grid that has a point which rounds to the pattern, and on that grid with
a point that is as near. -/
theorem searchFrom_fewest (fuel : Nat) {j : Nat} (hfuel : fuel + j = 1074) (hjk : j ≤ k)
    (hn : Between p (n * unitsPerOne) (tenPow k)) :
    (searchFrom p fuel j).places ≤ k ∧ ((searchFrom p fuel j).places = k →
      |((searchFrom p fuel j).digits : ℚ) - onScale p k| ≤ |(n : ℚ) - onScale p k|) := by
  induction fuel generalizing j with
  | zero =>
    refine ⟨hjk, fun hplaces => ?_⟩
    obtain rfl : j = k := hplaces
    obtain rfl : j = 1074 := by omega
    have hexact := floor_exact (p := p) ((twoPow_dvd_tenPow 1074).mul_left (units p))
    show |((units p * tenPow 1074 / unitsPerOne : Nat) : ℚ) - onScale p 1074| ≤ _
    rw [hexact, sub_self, abs_zero]
    exact abs_nonneg _
  | succ fuel ih =>
    have hstep : searchFrom p (fuel + 1) j = (onGrid p j).getD (searchFrom p fuel (j + 1)) := rfl
    rw [hstep]
    cases hgrid : onGrid p j with
    | none =>
      have hne : j ≠ k := by
        rintro rfl
        exact onGrid_eq_none hgrid hn
      exact ih (by omega) (by omega)
    | some d =>
      have hplaces : d.places = j := by
        rcases onGrid_cases hgrid with ⟨-, rfl⟩ | ⟨-, rfl⟩ <;> rfl
      refine ⟨hplaces.trans_le hjk, fun heq => ?_⟩
      obtain rfl : j = k := hplaces.symm.trans heq
      exact onGrid_nearest hgrid hn

/-- For a magnitude that is not whole, no decimal that rounds to the pattern has fewer places than the one
found, and none with as many is nearer. -/
theorem shortest_fewest (hp : isWhole p = false) (hn : Between p (n * unitsPerOne) (tenPow k)) :
    (shortest p).places ≤ k ∧ ((shortest p).places = k →
      |((shortest p).digits : ℚ) - onScale p k| ≤ |(n : ℚ) - onScale p k|) := by
  have hpos : 1 ≤ k := by
    by_contra hzero
    obtain rfl : k = 0 := by omega
    rw [isWhole_of_between hn] at hp
    cases hp
  exact searchFrom_fewest 1073 rfl hpos hn

end Lisplet.Binary64
