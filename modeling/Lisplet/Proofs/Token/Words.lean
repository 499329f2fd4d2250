/-
# Lisplet.Proofs.Token.Words -- the patterns of numeric words

A word is a decimal or an integer by its shape alone: an optional sign, digits, and for a decimal one
point among them.  `IsDecimal` and `IsInteger` state the two shapes, and `decimal?` and `integer?`
give a number for exactly the words of their shape.  The two exclude each other, and neither holds of a
dot or of a word with a `#`; so a number is classified as what it denotes, and a word that has no other
meaning as a symbol.
-/

import Mathlib.Tactic
import Lisplet.Text.Blank
import Lisplet.Token

namespace Lisplet.Word

/-! ## Shapes -/

/-- A row of decimal digits, possibly empty. -/
def Digits (cs : List Char) : Prop := ∀ c ∈ cs, c.isDigit = true

/-- The optional sign of a number. -/
inductive Sign : List Char → Bool → Prop
  | none : Sign [] false
  | plus : Sign ['+'] false
  | minus : Sign ['-'] true

/-- An optional sign, digits, a point and digits, with a digit on at least one side of the point. -/
def IsDecimal (word : List Char) : Prop :=
  ∃ sign negative whole fraction, Sign sign negative ∧ Digits whole ∧ Digits fraction ∧
    (whole ≠ [] ∨ fraction ≠ []) ∧ word = sign ++ (whole ++ '.' :: fraction)

/-- An optional sign and at least one digit. -/
def IsInteger (word : List Char) : Prop :=
  ∃ sign negative body, Sign sign negative ∧ Digits body ∧ body ≠ [] ∧ word = sign ++ body

theorem IsDecimal.ne_nil {word : List Char} (h : IsDecimal word) : word ≠ [] := by
  obtain ⟨sign, negative, whole, fraction, -, -, -, -, rfl⟩ := h
  simp

theorem IsInteger.ne_nil {word : List Char} (h : IsInteger word) : word ≠ [] := by
  obtain ⟨sign, negative, body, -, -, hne, rfl⟩ := h
  simp [hne]

/-! ## Signs -/

/-- What follows a sign has none of its own. -/
theorem splitSign_append {sign body : List Char} {negative : Bool} (h : Sign sign negative)
    (hplus : body.head? ≠ some '+') (hminus : body.head? ≠ some '-') :
    splitSign (sign ++ body) = (negative, body) := by
  cases h with
  | plus => rfl
  | minus => rfl
  | none =>
    cases body with
    | nil => rfl
    | cons c cs =>
      have hp : c ≠ '+' := by simpa using hplus
      have hm : c ≠ '-' := by simpa using hminus
      show splitSign (c :: cs) = _
      unfold splitSign
      split <;> simp_all

/-- Every word is its sign and what follows it. -/
theorem splitSign_spec (word : List Char) :
    ∃ sign, Sign sign (splitSign word).1 ∧ word = sign ++ (splitSign word).2 := by
  unfold splitSign
  split
  · exact ⟨['+'], .plus, rfl⟩
  · exact ⟨['-'], .minus, rfl⟩
  · exact ⟨[], .none, rfl⟩

/-- A row that begins with a digit begins with no sign. -/
theorem Digits.head?_ne {cs : List Char} (h : Digits cs) {c : Char} (hc : c.isDigit = false) :
    cs.head? ≠ some c := by
  intro hhead
  have hdigit := h c (List.mem_of_mem_head? hhead)
  simp [hc] at hdigit

/-! ## Decimals -/

theorem pointed?_eq_some_iff {cs whole fraction : List Char} :
    pointed? cs = some (whole, fraction) ↔
      Digits whole ∧ Digits fraction ∧ (whole ≠ [] ∨ fraction ≠ []) ∧
        cs = whole ++ '.' :: fraction := by
  constructor
  · intro h
    unfold pointed? at h
    split at h
    · next rest hrest =>
      dsimp only at h
      split at h
      · next hcond =>
        simp only [Option.some.injEq, Prod.mk.injEq] at h
        obtain ⟨rfl, rfl⟩ := h
        simp only [Bool.and_eq_true, List.all_eq_true, Bool.not_eq_true', Bool.and_eq_false_iff,
          List.isEmpty_eq_false_iff] at hcond
        refine ⟨List.all_eq_true.1 List.all_takeWhile, hcond.1, hcond.2, ?_⟩
        rw [← hrest, List.takeWhile_append_dropWhile]
      · cases h
    · cases h
  · rintro ⟨hwhole, hfraction, hne, rfl⟩
    have hdrop : (whole ++ '.' :: fraction).dropWhile Char.isDigit = '.' :: fraction := by
      rw [List.dropWhile_append_of_pos hwhole]
      rfl
    have htake : (whole ++ '.' :: fraction).takeWhile Char.isDigit = whole := by
      rw [List.takeWhile_append_of_pos hwhole]
      simp [List.takeWhile, show Char.isDigit '.' = false from rfl]
    have hcond : (fraction.all Char.isDigit && !(whole.isEmpty && fraction.isEmpty)) = true := by
      have hall : fraction.all Char.isDigit = true := List.all_eq_true.2 hfraction
      rcases hne with hne | hne <;> simp [hall, hne]
    unfold pointed?
    simp only [hdrop, htake, hcond, if_true]

/-- The number of a signed decimal. -/
theorem decimal?_append {sign whole fraction : List Char} {negative : Bool} (h : Sign sign negative)
    (hwhole : Digits whole) (hfraction : Digits fraction) (hne : whole ≠ [] ∨ fraction ≠ []) :
    decimal? (sign ++ (whole ++ '.' :: fraction)) =
      some (Binary64.ofDecimal negative (Nat.ofDigitChars 10 (whole ++ fraction) 0) fraction.length) := by
  -- without a whole part the word starts with the point, which is no sign either
  have hhead : ∀ c, c.isDigit = false → c ≠ '.' → (whole ++ '.' :: fraction).head? ≠ some c := by
    intro c hc hdot
    cases whole with
    | nil => simpa using hdot.symm
    | cons d ds => exact Digits.head?_ne hwhole hc
  have hsplit := splitSign_append h (hhead '+' rfl (by decide)) (hhead '-' rfl (by decide))
  have hpoint := pointed?_eq_some_iff.2 ⟨hwhole, hfraction, hne, rfl⟩
  simp only [decimal?, hsplit, hpoint, Option.map_some]

/-- A word denotes a floating point number exactly if it has the shape of a decimal. -/
theorem decimal?_isSome_iff (word : List Char) : (decimal? word).isSome = true ↔ IsDecimal word := by
  constructor
  · intro h
    obtain ⟨sign, hsign, hword⟩ := splitSign_spec word
    have hpoint : (pointed? (splitSign word).2).isSome = true := by
      simpa [decimal?] using h
    obtain ⟨⟨whole, fraction⟩, hpoint⟩ := Option.isSome_iff_exists.1 hpoint
    obtain ⟨hwhole, hfraction, hne, hbody⟩ := pointed?_eq_some_iff.1 hpoint
    exact ⟨sign, _, whole, fraction, hsign, hwhole, hfraction, hne, hbody ▸ hword⟩
  · rintro ⟨sign, negative, whole, fraction, hsign, hwhole, hfraction, hne, rfl⟩
    rw [decimal?_append hsign hwhole hfraction hne]
    rfl

theorem decimal?_eq_none_iff (word : List Char) : decimal? word = none ↔ ¬ IsDecimal word := by
  rw [← decimal?_isSome_iff, Option.not_isSome_iff_eq_none]

/-! ## Integers -/

/-- The number of a signed row of digits. -/
theorem integer?_append {sign body : List Char} {negative : Bool} (h : Sign sign negative)
    (hbody : Digits body) (hne : body ≠ []) :
    integer? (sign ++ body) =
      some (if negative then -(Nat.ofDigitChars 10 body 0 : Int) else (Nat.ofDigitChars 10 body 0 : Int)) := by
  have hsplit := splitSign_append h (hbody.head?_ne rfl) (hbody.head?_ne rfl)
  have hcond : (!body.isEmpty && body.all Char.isDigit) = true := by
    have hall : body.all Char.isDigit = true := List.all_eq_true.2 hbody
    simp [hall, hne]
  simp only [integer?, hsplit, hcond, if_true]

/-- A word denotes an integer exactly if it has the shape of one. -/
theorem integer?_isSome_iff (word : List Char) : (integer? word).isSome = true ↔ IsInteger word := by
  constructor
  · intro h
    obtain ⟨sign, hsign, hword⟩ := splitSign_spec word
    unfold integer? at h
    dsimp only at h
    split at h
    · next hcond =>
      simp only [Bool.and_eq_true, Bool.not_eq_true', List.isEmpty_eq_false_iff,
        List.all_eq_true] at hcond
      exact ⟨sign, _, _, hsign, hcond.2, hcond.1, hword⟩
    · cases h
  · rintro ⟨sign, negative, body, hsign, hbody, hne, rfl⟩
    rw [integer?_append hsign hbody hne]
    rfl

theorem integer?_eq_none_iff (word : List Char) : integer? word = none ↔ ¬ IsInteger word := by
  rw [← integer?_isSome_iff, Option.not_isSome_iff_eq_none]

/-! ## The characters of a number -/

/-- The characters that occur in numbers. -/
def IsNumeric (c : Char) : Prop := c.isDigit = true ∨ c = '+' ∨ c = '-' ∨ c = '.'

theorem isDelimiter_of_isDigit {c : Char} (h : c.isDigit = true) : Text.isDelimiter c = false := by
  have hrange : 48 ≤ c.toNat ∧ c.toNat ≤ 57 := by
    simpa [Char.isDigit, UInt32.le_iff_toNat_le] using h
  have hblank : Text.isBlank c = false := by
    simp only [Text.isBlank, Text.inRanges, Text.blankRanges, List.any_cons, List.any_nil,
      Bool.or_false, Bool.or_eq_false_iff, Bool.and_eq_false_iff, decide_eq_false_iff_not]
    omega
  have hne : ∀ d : Char, d.isDigit = false → (c == d) = false := by
    intro d hd
    rw [beq_eq_false_iff_ne]
    rintro rfl
    simp [hd] at h
  simp only [Text.isDelimiter, hblank, hne '(' rfl, hne ')' rfl, hne '\'' rfl, hne '"' rfl,
    hne ';' rfl, Bool.or_self]

theorem IsNumeric.isDelimiter_eq {c : Char} (h : IsNumeric c) : Text.isDelimiter c = false := by
  rcases h with h | rfl | rfl | rfl
  · exact isDelimiter_of_isDigit h
  all_goals decide

theorem IsNumeric.ne_hash {c : Char} (h : IsNumeric c) : c ≠ '#' := by
  rintro rfl
  simp [IsNumeric, show Char.isDigit '#' = false from rfl] at h

theorem Sign.isNumeric {sign : List Char} {negative : Bool} (h : Sign sign negative) :
    ∀ c ∈ sign, IsNumeric c := by
  cases h <;> simp [IsNumeric]

theorem IsDecimal.isNumeric {word : List Char} (h : IsDecimal word) : ∀ c ∈ word, IsNumeric c := by
  obtain ⟨sign, negative, whole, fraction, hsign, hwhole, hfraction, -, rfl⟩ := h
  intro c hc
  simp only [List.mem_append, List.mem_cons] at hc
  rcases hc with hc | hc | rfl | hc
  · exact hsign.isNumeric c hc
  · exact Or.inl (hwhole c hc)
  · exact Or.inr (Or.inr (Or.inr rfl))
  · exact Or.inl (hfraction c hc)

theorem IsInteger.isNumeric {word : List Char} (h : IsInteger word) : ∀ c ∈ word, IsNumeric c := by
  obtain ⟨sign, negative, body, hsign, hbody, -, rfl⟩ := h
  intro c hc
  rcases List.mem_append.1 hc with hc | hc
  · exact hsign.isNumeric c hc
  · exact Or.inl (hbody c hc)

/-! ## Classification -/

/-- A decimal has a point, an integer has none. -/
theorem IsInteger.not_isDecimal {word : List Char} (h : IsInteger word) : ¬ IsDecimal word := by
  obtain ⟨sign, negative, body, hsign, hbody, -, rfl⟩ := h
  rintro ⟨sign', negative', whole, fraction, -, -, -, -, heq⟩
  have hdot : '.' ∈ sign ++ body := by
    rw [heq]
    simp
  rcases List.mem_append.1 hdot with hdot | hdot
  · cases hsign <;> simp at hdot
  · exact absurd (hbody '.' hdot) (by decide)

theorem IsDecimal.ne_dot {word : List Char} (h : IsDecimal word) : word ≠ ['.'] := by
  obtain ⟨sign, negative, whole, fraction, hsign, hwhole, -, hne, rfl⟩ := h
  intro heq
  have hlength := congrArg List.length heq
  simp only [List.length_append, List.length_cons, List.length_nil] at hlength
  have hw : whole = [] := List.eq_nil_of_length_eq_zero (by omega)
  have hf : fraction = [] := List.eq_nil_of_length_eq_zero (by omega)
  exact hne.elim (absurd hw) (absurd hf)

theorem head?_ne_hash {word : List Char} (h : ∀ c ∈ word, IsNumeric c) : word.head? ≠ some '#' :=
  fun hhead => (h '#' (List.mem_of_mem_head? hhead)).ne_hash rfl

/-- A decimal is classified as the number it denotes. -/
theorem classify_decimal {word : List Char} {x : Binary64} (h : decimal? word = some x) :
    classify word = .ok (.atom (.number (.float x))) := by
  have hshape : IsDecimal word := (decimal?_isSome_iff word).1 (by simp [h])
  simp [classify, hshape.ne_dot, head?_ne_hash hshape.isNumeric, h]

/-- An integer in range is classified as the number it denotes. -/
theorem classify_integer {word : List Char} {n : Int} (h : integer? word = some n)
    (hrange : inRange n = true) : classify word = .ok (.atom (.number (.int (Int64.ofInt n)))) := by
  have hshape : IsInteger word := (integer?_isSome_iff word).1 (by simp [h])
  have hdecimal : decimal? word = none := (decimal?_eq_none_iff word).2 hshape.not_isDecimal
  have hdot : word ≠ ['.'] := by
    rintro rfl
    obtain ⟨sign, negative, body, hsign, hbody, hne, heq⟩ := hshape
    cases hsign <;> simp at heq
    exact absurd (hbody '.' (by simp [← heq])) (by decide)
  simp [classify, hdot, head?_ne_hash hshape.isNumeric, hdecimal, h, hrange]

/-- The words that are symbols and nothing else. -/
structure IsSymbol (word : List Char) : Prop where
  ne_nil : word ≠ []
  not_delimiter : ∀ c ∈ word, Text.isDelimiter c = false
  ne_dot : word ≠ ['.']
  head_ne : word.head? ≠ some '#'
  not_decimal : ¬ IsDecimal word
  not_integer : ¬ IsInteger word

theorem IsSymbol.classify_eq {word : List Char} (h : IsSymbol word) :
    classify word = .ok (.atom (.symbol (String.ofList word))) := by
  simp [classify, h.ne_dot, h.head_ne, (decimal?_eq_none_iff word).2 h.not_decimal,
    (integer?_eq_none_iff word).2 h.not_integer]

/-! ## Integers as they are written -/

theorem digits_toDigits (n : Nat) : Digits (Nat.toDigits 10 n) :=
  fun _ hc => Nat.isDigit_of_mem_toDigits (by decide) (by decide) hc

/-- A written integer reads back. -/
theorem integer?_intChars (n : Int) : integer? (Number.intChars n) = some n := by
  unfold Number.intChars
  split
  · next hneg =>
    have h := integer?_append .minus (digits_toDigits n.natAbs) Nat.toDigits_ne_nil
    rw [List.singleton_append] at h
    rw [h, Nat.ofDigitChars_ten_toDigits]
    simp only [if_true]
    congr 1
    omega
  · next hpos =>
    have h := integer?_append .none (digits_toDigits n.natAbs) Nat.toDigits_ne_nil
    rw [List.nil_append] at h
    rw [h, Nat.ofDigitChars_ten_toDigits]
    simp only [Bool.false_eq_true, if_false]
    congr 1
    omega

theorem inRange_toInt (n : Int64) : inRange n.toInt = true := by
  have hlo := n.le_toInt
  have hhi := n.toInt_lt
  simp only [inRange, Bool.and_eq_true, decide_eq_true_eq]
  omega

end Lisplet.Word
