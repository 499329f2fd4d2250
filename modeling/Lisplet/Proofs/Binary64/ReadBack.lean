/-
# Lisplet.Proofs.Binary64.ReadBack -- a written number reads back

The written form of a finite number is a decimal that rounds to it, so reading it gives the same bit
pattern, the sign of zero included.  Whole numbers are written exactly; for the others the search for
the fewest places keeps the invariant that every candidate lies between the midpoints around the
pattern, and its last resort, 1074 places, is exact.
-/

import Mathlib.Tactic
import Lisplet.Binary64.Text
import Lisplet.Proofs.Binary64.Rounding
import Lisplet.Proofs.Token.Words

namespace Lisplet.Binary64

/-! ## The written decimal -/

/-- The decimal that is written for a finite pattern. -/
def written (p : Nat) : Decimal :=
  if isWhole p then ⟨units p / unitsPerOne * 10, 1⟩ else shortest p

/-- A decimal with at least one place that rounds to the pattern. -/
structure Decimal.RoundsTo (d : Decimal) (p : Nat) : Prop where
  places_pos : 0 < d.places
  nearest_eq : nearest (d.digits * unitsPerOne) (tenPow d.places) = p

theorem fitsBelow_spec {p k d : Nat} (h : fitsBelow p k d = true) :
    lowerEnd p * tenPow k ≤ 2 * (d * unitsPerOne) ∧
      (p % 2 = 1 → lowerEnd p * tenPow k < 2 * (d * unitsPerOne)) := by
  unfold fitsBelow at h
  rw [Nat.mul_assoc] at h
  split at h
  · next heven => exact ⟨of_decide_eq_true h, fun hodd => by omega⟩
  · exact ⟨(of_decide_eq_true h).le, fun _ => of_decide_eq_true h⟩

theorem fitsAbove_spec {p k d : Nat} (h : fitsAbove p k d = true) :
    2 * (d * unitsPerOne) ≤ upperEnd p * tenPow k ∧
      (p % 2 = 1 → 2 * (d * unitsPerOne) < upperEnd p * tenPow k) := by
  unfold fitsAbove at h
  rw [Nat.mul_assoc] at h
  split at h
  · next heven => exact ⟨of_decide_eq_true h, fun hodd => by omega⟩
  · exact ⟨(of_decide_eq_true h).le, fun _ => of_decide_eq_true h⟩

/-- A grid offers the point below the magnitude, if that fits, or the point above it, if that does. -/
theorem onGrid_cases {p k : Nat} {d : Decimal} (h : onGrid p k = some d) :
    (fitsBelow p k (units p * tenPow k / unitsPerOne) = true ∧
        d = ⟨units p * tenPow k / unitsPerOne, k⟩) ∨
      (fitsAbove p k (units p * tenPow k / unitsPerOne + 1) = true ∧
        d = ⟨units p * tenPow k / unitsPerOne + 1, k⟩) := by
  unfold onGrid at h
  dsimp only at h
  split at h
  · next hbelow habove =>
    split at h
    · exact Or.inl ⟨hbelow, (Option.some.inj h).symm⟩
    · exact Or.inr ⟨habove, (Option.some.inj h).symm⟩
  · next hbelow _ => exact Or.inl ⟨hbelow, (Option.some.inj h).symm⟩
  · next _ habove => exact Or.inr ⟨habove, (Option.some.inj h).symm⟩
  · cases h

/-- What a grid offers lies between the midpoints. -/
theorem onGrid_between {p k : Nat} {d : Decimal} (hp : 0 < p) (h : onGrid p k = some d) :
    d.places = k ∧ Between p (d.digits * unitsPerOne) (tenPow k) := by
  have hten := tenPow_pos k
  rcases onGrid_cases h with ⟨hfits, rfl⟩ | ⟨hfits, rfl⟩
  · have hbelow := lt_upperEnd hten (Nat.div_mul_le_self (units p * tenPow k) unitsPerOne)
    obtain ⟨hlo, hlo'⟩ := fitsBelow_spec hfits
    exact ⟨rfl, hlo, hbelow.le, hlo', fun _ => hbelow⟩
  · have hmagnitude : units p * tenPow k ≤ (units p * tenPow k / unitsPerOne + 1) * unitsPerOne :=
      (Nat.lt_mul_of_div_lt (Nat.lt_succ_self _) unitsPerOne_pos).le
    have habove := lowerEnd_lt hten hp hmagnitude
    obtain ⟨hhi, hhi'⟩ := fitsAbove_spec hfits
    exact ⟨rfl, habove.le, hhi, fun _ => habove, hhi'⟩

theorem twoPow_dvd_tenPow (n : Nat) : twoPow n ∣ tenPow n := pow_dvd_pow_of_dvd (by decide : 2 ∣ 10) n

/-- The search ends with a decimal that rounds to the pattern. -/
theorem searchFrom_roundsTo {p : Nat} (hp : 0 < p) (hfinite : p < infinityPattern) (fuel k : Nat)
    (hk : 0 < k) (hfuel : fuel + k = 1074) : (searchFrom p fuel k).RoundsTo p := by
  induction fuel generalizing k with
  | zero =>
    obtain rfl : k = 1074 := by omega
    refine ⟨hk, ?_⟩
    -- with 1074 places every magnitude is written exactly
    have hexact : units p * tenPow 1074 / unitsPerOne * unitsPerOne = units p * tenPow 1074 :=
      Nat.div_mul_cancel (Dvd.dvd.mul_left (twoPow_dvd_tenPow 1074) _)
    show nearest (units p * tenPow 1074 / unitsPerOne * unitsPerOne) (tenPow 1074) = p
    rw [hexact]
    exact nearest_units (tenPow_pos 1074) hfinite
  | succ fuel ih =>
    show ((onGrid p k).getD (searchFrom p fuel (k + 1))).RoundsTo p
    cases hgrid : onGrid p k with
    | none => exact ih (k + 1) (Nat.succ_pos k) (by omega)
    | some d =>
      obtain ⟨hplaces, hbetween⟩ := onGrid_between hp hgrid
      refine ⟨hplaces ▸ hk, ?_⟩
      show nearest (d.digits * unitsPerOne) (tenPow d.places) = p
      rw [hplaces]
      exact nearest_of_between (tenPow_pos k) hfinite hbetween

/-- What is written for a finite pattern rounds to it. -/
theorem written_roundsTo {p : Nat} (hfinite : p < infinityPattern) : (written p).RoundsTo p := by
  unfold written
  split
  · next hwhole =>
    refine ⟨Nat.one_pos, ?_⟩
    have hexact : units p / unitsPerOne * unitsPerOne = units p :=
      Nat.div_mul_cancel (Nat.dvd_of_mod_eq_zero (of_decide_eq_true hwhole))
    have hscaled : units p / unitsPerOne * 10 * unitsPerOne = units p * tenPow 1 := by
      calc units p / unitsPerOne * 10 * unitsPerOne
        _ = units p / unitsPerOne * unitsPerOne * 10 := by ring
        _ = units p * tenPow 1 := by rw [hexact]; rfl
    show nearest (units p / unitsPerOne * 10 * unitsPerOne) (tenPow 1) = p
    rw [hscaled]
    exact nearest_units (tenPow_pos 1) hfinite
  · next hwhole =>
    have hp : 0 < p := by
      rcases Nat.eq_zero_or_pos p with rfl | hp
      · exact absurd (by simp [isWhole, units_zero]) hwhole
      · exact hp
    exact searchFrom_roundsTo hp hfinite 1073 1 Nat.one_pos rfl

/-! ## The text of a decimal -/

/-- All places of a decimal behind its point. -/
def Decimal.fraction (d : Decimal) : List Char :=
  List.replicate (d.places - (Nat.toDigits 10 (d.digits % tenPow d.places)).length) '0' ++
    Nat.toDigits 10 (d.digits % tenPow d.places)

theorem Decimal.chars_eq (d : Decimal) :
    d.chars = Nat.toDigits 10 (d.digits / tenPow d.places) ++ '.' :: d.fraction := rfl

theorem Decimal.digits_fraction (d : Decimal) : Word.Digits d.fraction := by
  intro c hc
  rcases List.mem_append.1 hc with hc | hc
  · rw [List.eq_of_mem_replicate hc]
    rfl
  · exact Word.digits_toDigits _ c hc

theorem Decimal.length_fraction {d : Decimal} (h : 0 < d.places) : d.fraction.length = d.places := by
  have hlt : d.digits % tenPow d.places < 10 ^ d.places := Nat.mod_lt _ (tenPow_pos _)
  have hle := (Nat.length_toDigits_le_iff (by decide) h).2 hlt
  simp only [fraction, List.length_append, List.length_replicate]
  omega

/-- The digits on both sides of the point are those of the decimal. -/
theorem Decimal.ofDigitChars_chars {d : Decimal} (h : 0 < d.places) :
    Nat.ofDigitChars 10 (Nat.toDigits 10 (d.digits / tenPow d.places) ++ d.fraction) 0 = d.digits := by
  have hvalue : Nat.ofDigitChars 10 d.fraction 0 = d.digits % tenPow d.places := by
    simp only [fraction, Nat.ofDigitChars_append, Nat.ofDigitChars_replicate_zero, Nat.mul_zero,
      Nat.ofDigitChars_ten_toDigits]
  rw [Nat.ofDigitChars_append, Nat.ofDigitChars_ten_toDigits, Nat.ofDigitChars_eq_ofDigitChars_zero,
    Decimal.length_fraction h, hvalue]
  exact Nat.div_add_mod d.digits (tenPow d.places)

/-- A decimal reads back as the number nearest to it. -/
theorem Decimal.decimal?_chars {d : Decimal} (h : 0 < d.places) {sign : List Char} {negative : Bool}
    (hsign : Word.Sign sign negative) :
    Word.decimal? (sign ++ d.chars) = some (ofDecimal negative d.digits d.places) := by
  rw [Decimal.chars_eq, Word.decimal?_append hsign (Word.digits_toDigits _) d.digits_fraction
    (Or.inl Nat.toDigits_ne_nil), Decimal.ofDigitChars_chars h, Decimal.length_fraction h]

/-! ## Numbers -/

theorem magnitudeChars_eq (p : Nat) : magnitudeChars p = (written p).chars := by
  unfold magnitudeChars written
  split
  · simp [Decimal.chars, tenPow, Nat.toDigits_zero]
  · rfl

/-- The sign that is written. -/
def signChars (negative : Bool) : List Char := if negative then ['-'] else []

theorem sign_signChars : ∀ negative, Word.Sign (signChars negative) negative
  | false => .none
  | true => .minus

/-- A finite number is written as an optional minus and the decimal of its pattern. -/
theorem chars_of_isFinite {x : Binary64} (h : x.isFinite = true) :
    x.chars = signChars x.isNegative ++ (written x.pattern).chars := by
  have hlt := (isFinite_iff x).1 h
  have hnan : x.isNaN = false := by
    rw [← Bool.not_eq_true, isNaN_iff]
    exact hlt.not_gt
  have hinf : x.isInfinite = false := by
    rw [← Bool.not_eq_true, isInfinite_iff]
    exact hlt.ne
  simp only [chars, hnan, hinf, Bool.false_eq_true, if_false, magnitudeChars_eq, signChars]
  split
  · rw [List.cons_append, List.nil_append]
  · rw [List.nil_append]

/-- A finite number reads back as itself, bit for bit. -/
theorem decimal?_chars {x : Binary64} (h : x.isFinite = true) : Word.decimal? x.chars = some x := by
  have hrounds := written_roundsTo ((isFinite_iff x).1 h)
  rw [chars_of_isFinite h, Decimal.decimal?_chars hrounds.places_pos (sign_signChars _), ofDecimal,
    hrounds.nearest_eq, ofPattern_pattern]

end Lisplet.Binary64
