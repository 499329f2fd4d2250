/-
# Lisplet.Proofs.FloatPrinting -- floating point numbers in print

Every finite number is printed as an optional minus, digits, a point and digits, and those read back as the
same sixty-four bits.  `Printed` collects what is said about the digits: a number without a fraction is
printed as the exact integer and one zero; for any other no decimal with fewer places is rounded to it, and
of those with as many places none is nearer.  Reading is the other half: a word of that shape is the number
that its exact value is rounded to, or an infinity from `Binary64.overflow` on.

The patterns that are not finite are printed as words, and each of them is a symbol where it is read.
-/

import Mathlib.Tactic
import Lisplet.Proofs.Binary64.Fewest
import Lisplet.Proofs.Binary64.Value
import Lisplet.Proofs.Form.Reading
import Lisplet.Proofs.Token.Classes
import Lisplet.Proofs.Token.Produced

namespace Lisplet

open Binary64 Word

/-! ## Reading a decimal -/

/-- The exact value of a sign, digits, a point and digits. -/
def decimalValue (negative : Bool) (whole fraction : List Char) : ℚ :=
  signed negative (positional (whole ++ fraction) / 10 ^ fraction.length)

theorem abs_decimalValue (negative : Bool) (whole fraction : List Char) :
    |decimalValue negative whole fraction| = positional (whole ++ fraction) / 10 ^ fraction.length := by
  rw [decimalValue, abs_signed, abs_of_nonneg (by positivity)]

/-- A decimal is read as a number of its sign, rounded to nearest; too large a one as an infinity. -/
theorem classify_rounds {sign whole fraction : List Char} {negative : Bool} (hsign : Sign sign negative)
    (hwhole : Digits whole) (hfraction : Digits fraction) (hne : whole ≠ [] ∨ fraction ≠ []) :
    ∃ y : Binary64, classify (sign ++ (whole ++ '.' :: fraction)) = .ok (.atom (.number (.float y))) ∧
      y.isNegative = negative ∧
      (|decimalValue negative whole fraction| < overflow →
        Rounds (decimalValue negative whole fraction) y) ∧
      (overflow ≤ |decimalValue negative whole fraction| → y.isInfinite = true) := by
  have hread := decimal?_append hsign hwhole hfraction hne
  rw [ofDigitChars_eq_positional] at hread
  refine ⟨_, classify_decimal hread, (ofDecimal_fields _ _ _).1, fun hlt => ?_, fun hle => ?_⟩
  · rw [abs_decimalValue] at hlt
    refine ((ofDecimal_eq_iff (isFinite_ofDecimal (Bool.eq_false_iff.2 fun hinfinite => ?_))).1 rfl).2
    exact absurd (isInfinite_ofDecimal_iff.1 hinfinite) hlt.not_ge
  · rw [abs_decimalValue] at hle
    exact isInfinite_ofDecimal_iff.2 hle

/-! ## What is printed -/

/-- The digits that are printed for a finite number on both sides of its point. -/
structure Printed (x : Binary64) (whole fraction : List Char) : Prop where
  shape : x.chars = signChars x.isNegative ++ (whole ++ '.' :: fraction)
  digits : Digits whole ∧ Digits fraction
  nonempty : whole ≠ [] ∧ fraction ≠ []
  /-- The number is the one that the digits are rounded to. -/
  rounds : Rounds (decimalValue x.isNegative whole fraction) x
  /-- A number without a fraction is printed as the exact integer and one zero. -/
  integral : ∀ n : ℤ, x.value = n → whole = Nat.toDigits 10 n.natAbs ∧ fraction = ['0']
  /-- Of any other number no shorter decimal reads back, and none as short is nearer. -/
  fewest : (∀ n : ℤ, x.value ≠ n) → ∀ whole' fraction', Digits whole' → Digits fraction' →
    Rounds (decimalValue x.isNegative whole' fraction') x →
      fraction.length ≤ fraction'.length ∧ (fraction.length = fraction'.length →
        |decimalValue x.isNegative whole fraction - x.value| ≤
          |decimalValue x.isNegative whole' fraction' - x.value|)

variable {x : Binary64}

/-- The magnitude of an integral number is that of the integer. -/
theorem units_of_integral {n : ℤ} (h : x.value = n) : units x.pattern = n.natAbs * unitsPerOne := by
  have habs : |x.value| = n.natAbs := by rw [h, Nat.cast_natAbs, Int.cast_abs]
  rw [abs_value, div_eq_iff unitsPerOne_cast_pos.ne'] at habs
  exact_mod_cast habs

/-- A number of whole magnitude is integral. -/
theorem exists_integral (h : isWhole x.pattern = true) : ∃ n : ℤ, x.value = n := by
  have hexact : units x.pattern / unitsPerOne * unitsPerOne = units x.pattern :=
    Nat.div_mul_cancel (Nat.dvd_of_mod_eq_zero (of_decide_eq_true h))
  have hmagnitude : (units x.pattern : ℚ) / unitsPerOne = (units x.pattern / unitsPerOne : Nat) := by
    rw [div_eq_iff unitsPerOne_cast_pos.ne']
    exact_mod_cast hexact.symm
  rw [value_eq, hmagnitude]
  cases x.isNegative
  · exact ⟨(units x.pattern / unitsPerOne : Nat), (Int.cast_natCast _).symm⟩
  · exact ⟨-(units x.pattern / unitsPerOne : Nat), by rw [signed, if_pos rfl, Int.cast_neg, Int.cast_natCast]⟩

/-- The exact value of the decimal that is written for a pattern. -/
theorem decimalValue_written (negative : Bool) {d : Decimal} (h : 0 < d.places) :
    decimalValue negative (Nat.toDigits 10 (d.digits / tenPow d.places)) d.fraction =
      signed negative (d.digits / 10 ^ d.places) := by
  rw [decimalValue, ← ofDigitChars_eq_positional, Decimal.ofDigitChars_chars h, Decimal.length_fraction h]

/-- Decimals of one sign and as many places are as far from a number as their digits are from its place on the
grid. -/
theorem abs_decimal_sub (x : Binary64) (digits places : Nat) :
    |signed x.isNegative (digits / 10 ^ places) - x.value| =
      |(digits : ℚ) - onScale x.pattern places| / 10 ^ places := by
  have hpower : (0 : ℚ) < 10 ^ places := by positivity
  rw [value_eq, signed_sub_signed, ← abs_of_pos hpower, ← abs_div, abs_of_pos hpower, sub_div, onScale,
    mul_div_right_comm, mul_div_cancel_right₀ _ hpower.ne']

/-- An integral number is written as the integer and one zero. -/
theorem written_of_integral {n : ℤ} (h : x.value = n) : written x.pattern = ⟨n.natAbs * 10, 1⟩ := by
  have hunits := units_of_integral h
  have hwhole : isWhole x.pattern = true := by
    rw [isWhole, hunits, Nat.mul_mod_left]
    rfl
  rw [written, if_pos hwhole, hunits, Nat.mul_div_cancel _ unitsPerOne_pos]

/-- Any other number is written with the fewest places that read back, and as near as that many allow. -/
theorem written_fewest (hx : x.isFinite = true) (h : ∀ n : ℤ, x.value ≠ n) {whole fraction : List Char}
    (hrounds : Rounds (decimalValue x.isNegative whole fraction) x) :
    (written x.pattern).places ≤ fraction.length ∧ ((written x.pattern).places = fraction.length →
      |signed x.isNegative ((written x.pattern).digits / 10 ^ (written x.pattern).places) - x.value| ≤
        |decimalValue x.isNegative whole fraction - x.value|) := by
  have hwhole : isWhole x.pattern = false := by
    rw [Bool.eq_false_iff]
    intro hwhole
    obtain ⟨n, hvalue⟩ := exists_integral hwhole
    exact h n hvalue
  have hwritten : written x.pattern = shortest x.pattern := by rw [written, if_neg (by simp [hwhole])]
  have hread : ofDecimal x.isNegative (positional (whole ++ fraction)) fraction.length = x :=
    (ofDecimal_eq_iff hx).2 ⟨rfl, hrounds⟩
  have hpattern := (ofDecimal_fields x.isNegative (positional (whole ++ fraction)) fraction.length).2
  rw [hread, eq_comm, nearest_eq_iff (tenPow_pos _) ((isFinite_iff x).1 hx)] at hpattern
  obtain ⟨hfewest, hnear⟩ := shortest_fewest hwhole hpattern
  rw [hwritten]
  refine ⟨hfewest, fun heq => ?_⟩
  rw [decimalValue, abs_decimal_sub, abs_decimal_sub, heq]
  exact (div_le_div_iff_of_pos_right (by positivity)).2 (hnear heq)

/-- What is printed for a finite number. -/
theorem exists_printed (h : x.isFinite = true) : ∃ whole fraction, Printed x whole fraction := by
  obtain ⟨hplaces, hnearest⟩ := written_roundsTo ((isFinite_iff x).1 h)
  have hvalue := decimalValue_written x.isNegative hplaces
  have hlength := Decimal.length_fraction hplaces
  refine ⟨Nat.toDigits 10 ((written x.pattern).digits / tenPow (written x.pattern).places),
    (written x.pattern).fraction, ⟨?_, ⟨digits_toDigits _, Decimal.digits_fraction _⟩,
      ⟨Nat.toDigits_ne_nil, ?_⟩, ?_, fun n hn => ?_, fun hn whole' fraction' _ _ hrounds => ?_⟩⟩
  · rw [chars_of_isFinite h, Decimal.chars_eq]
  · rintro hnil
    rw [hnil] at hlength
    exact hplaces.ne hlength
  · rw [hvalue]
    refine ((ofDecimal_eq_iff h).1 ?_).2
    rw [ofDecimal, hnearest, ofPattern_pattern]
  · rw [written_of_integral hn]
    simp [Decimal.fraction, tenPow]
  · rw [hlength, hvalue]
    exact written_fewest h hn hrounds

/-! ## Tokens -/

/-- A written atom is scanned as one token. -/
theorem tokenize_atom {a : Atom} (h : a.Readable) : ∃ p, tokenize a.text = .ok [⟨.atom a, p⟩] := by
  obtain ⟨tokens, htokens, hkinds⟩ := Form.tokenize_text (Form.Readable.atom (p := .start) h)
  obtain ⟨⟨kind, p⟩, rfl, rfl⟩ := List.map_eq_singleton_iff.1 hkinds
  exact ⟨p, htokens⟩

/-- A word that is a symbol is scanned as one. -/
theorem Word.IsSymbol.tokenize {word : List Char} (h : Word.IsSymbol word) :
    ∃ p, tokenize (String.ofList word) = .ok [⟨.atom (.symbol (String.ofList word)), p⟩] :=
  tokenize_atom (a := .symbol (String.ofList word)) (by simpa [Atom.Readable] using h)

/-- The words that are printed for what is not finite. -/
def wordOf (x : Binary64) : List Char :=
  if x.fraction ≠ 0 then ['N', 'a', 'N']
  else if x.isNegative then ['-', 'I', 'n', 'f'] else ['+', 'I', 'n', 'f']

theorem isSymbol_wordOf (x : Binary64) : Word.IsSymbol (wordOf x) := by
  have hsymbol : ∀ {word : List Char}, word ≠ [] → word.any Text.isDelimiter = false →
      word ≠ ['.'] → word.head? ≠ some '#' → decimal? word = none → integer? word = none →
      Word.IsSymbol word := fun hne hdelimiter hdot hhead hdecimal hinteger =>
    ⟨hne, fun c hc => Bool.eq_false_iff.2 (List.any_eq_false.1 hdelimiter c hc), hdot, hhead,
      (decimal?_eq_none_iff _).1 hdecimal, (integer?_eq_none_iff _).1 hinteger⟩
  unfold wordOf
  split
  · exact hsymbol (by decide) (by decide) (by decide) (by decide) (by decide) (by decide)
  split
  · exact hsymbol (by decide) (by decide) (by decide) (by decide) (by decide) (by decide)
  · exact hsymbol (by decide) (by decide) (by decide) (by decide) (by decide) (by decide)

theorem chars_of_not_finite (h : x.exponent = maxExponent) : x.chars = wordOf x := by
  rw [chars, wordOf]
  by_cases hfraction : x.fraction = 0
  · have hnan : x.isNaN = false := by
      rw [← Bool.not_eq_true, isNaN_iff_fields]
      exact fun hfields => hfields.2 hfraction
    have hinfinite := x.isInfinite_iff_fields.2 ⟨h, hfraction⟩
    simp [hnan, hinfinite, hfraction]
  · rw [if_pos (x.isNaN_iff_fields.2 ⟨h, hfraction⟩), if_pos hfraction]

/-! ## The main statement -/

/-- A finite number is printed as an optional minus, digits, a point and digits: exactly and with one zero if it
has no fraction, shortest otherwise.  The text is one token, which is that number bit for bit.  What is not
finite is printed as a word, which is one token as well, a symbol.  And a word of digits around a point is read
as the number of its sign that its exact value is rounded to. -/
theorem finite_floats_survive_printing :
    (∀ x : Binary64, x.exponent < maxExponent →
      (∃ whole fraction, Printed x whole fraction) ∧
      classify x.chars = .ok (.atom (.number (.float x))) ∧
      ∃ p, tokenize (Number.float x).text = .ok [⟨.atom (.number (.float x)), p⟩]) ∧
    (∀ x : Binary64, x.exponent = maxExponent →
      x.chars = wordOf x ∧
      classify x.chars = .ok (.atom (.symbol (Number.float x).text)) ∧
      ∃ p, tokenize (Number.float x).text = .ok [⟨.atom (.symbol (Number.float x).text), p⟩]) ∧
    ∀ sign negative whole fraction, Sign sign negative → Digits whole → Digits fraction →
      (whole ≠ [] ∨ fraction ≠ []) →
      ∃ y : Binary64, classify (sign ++ (whole ++ '.' :: fraction)) = .ok (.atom (.number (.float y))) ∧
        y.isNegative = negative ∧
        (|decimalValue negative whole fraction| < overflow →
          Rounds (decimalValue negative whole fraction) y) ∧
        (overflow ≤ |decimalValue negative whole fraction| → y.isInfinite = true) := by
  refine ⟨fun x h => ?_, fun x h => ?_, fun _ _ _ _ => classify_rounds⟩
  · have hfinite := (isFinite_iff_exponent x).2 h
    exact ⟨exists_printed hfinite, classify_decimal (decimal?_chars hfinite),
      tokenize_atom (a := .number (.float x)) hfinite⟩
  · have hsymbol := isSymbol_wordOf x
    have htext : (Number.float x).text = String.ofList (wordOf x) := by
      rw [Number.text, Number.chars, chars_of_not_finite h]
    rw [htext, chars_of_not_finite h]
    exact ⟨rfl, hsymbol.classify_eq, hsymbol.tokenize⟩

/-- The least magnitude with a minus, the greatest one, the zero with a minus and two of the words. -/
theorem finite_floats_survive_printing_limits :
    (∃ whole fraction, Printed (ofPattern true 1) whole fraction) ∧
    classify (ofPattern true 1).chars = .ok (.atom (.number (.float (ofPattern true 1)))) ∧
    (∃ whole fraction, Printed (ofPattern false (infinityPattern - 1)) whole fraction) ∧
    classify ['-', '0', '.', '0'] = .ok (.atom (.number (.float (ofPattern true 0)))) ∧
    nan.chars = ['N', 'a', 'N'] ∧
    (ofPattern true infinityPattern).chars = ['-', 'I', 'n', 'f'] ∧
    ∃ y : Binary64, classify ['-', '.', '5'] = .ok (.atom (.number (.float y))) ∧
      y.isNegative = true := by
  obtain ⟨hfinite, hwords, hread⟩ := finite_floats_survive_printing
  obtain ⟨hleast, hreadLeast, -⟩ := hfinite (ofPattern true 1) (by decide +kernel)
  obtain ⟨hgreatest, -, -⟩ := hfinite (ofPattern false (infinityPattern - 1)) (by decide +kernel)
  obtain ⟨-, hzero, -⟩ := hfinite (ofPattern true 0) (by decide +kernel)
  have hchars : (ofPattern true 0).chars = ['-', '0', '.', '0'] := by decide +kernel
  obtain ⟨hnan, -, -⟩ := hwords nan (by decide +kernel)
  obtain ⟨hinfinity, -, -⟩ := hwords (ofPattern true infinityPattern) (by decide +kernel)
  have hhalf := hread ['-'] true [] ['5'] .minus (by simp [Digits]) (by simp [Digits]) (Or.inr (by simp))
  refine ⟨hleast, hreadLeast, hgreatest, hchars ▸ hzero, ?_, ?_, hhalf.imp fun _ h => ⟨h.1, h.2.1⟩⟩
  · rw [hnan]
    decide +kernel
  · rw [hinfinity]
    decide +kernel

end Lisplet
