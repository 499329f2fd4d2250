/-
# Lisplet.Proofs.Token.Classes -- the class of every bare word

The classes of words are tried one after the other, and which of them a word falls into is decided by its
shape alone.  `Classified` states the classes side by side, with no order among them: a dot, a boolean,
another word that begins with `#`, a decimal, an integer that fits or one that does not, and a symbol.  It
relates every word to exactly one result, and that is what the classification gives
(`classify_eq_iff`).

What a row of digits denotes is said by the weights of its digits, and not by how they are read.
-/

import Mathlib.Data.Nat.Digits.Defs
import Mathlib.Tactic
import Lisplet.Proofs.Token.Words

namespace Lisplet.Word

/-! ## What digits denote -/

/-- The number that a row of decimal digits denotes: the last digit counts ones, the one before it tens,
and so on. -/
def positional (ds : List Char) : Nat := Nat.ofDigits 10 (ds.reverse.map fun c => c.toNat - '0'.toNat)

/-- Digits that are read from the left have the weights of their positions. -/
theorem ofDigitChars_eq_positional (ds : List Char) : Nat.ofDigitChars 10 ds 0 = positional ds := by
  induction ds using List.reverseRecOn with
  | nil => rfl
  | append_singleton ds c ih =>
    rw [Nat.ofDigitChars_append, Nat.ofDigitChars_cons, Nat.ofDigitChars_nil, ih]
    simp only [positional, List.reverse_append, List.reverse_singleton, List.singleton_append,
      List.map_cons, Nat.ofDigits_cons]
    exact Nat.add_comm _ _

/-- The word is an optional sign and digits, however many, and `n` is the integer that it denotes. -/
def Denotes (word : List Char) (n : Int) : Prop :=
  ∃ sign negative body, Sign sign negative ∧ Digits body ∧ body ≠ [] ∧ word = sign ++ body ∧
    n = if negative then -(positional body : Int) else (positional body : Int)

theorem integer?_eq_some_iff {word : List Char} {n : Int} : integer? word = some n ↔ Denotes word n := by
  constructor
  · intro h
    have hshape : IsInteger word := (integer?_isSome_iff word).1 (by simp [h])
    obtain ⟨sign, negative, body, hsign, hbody, hne, rfl⟩ := hshape
    rw [integer?_append hsign hbody hne, ofDigitChars_eq_positional] at h
    exact ⟨sign, negative, body, hsign, hbody, hne, rfl, (Option.some.inj h).symm⟩
  · rintro ⟨sign, negative, body, hsign, hbody, hne, rfl, rfl⟩
    rw [integer?_append hsign hbody hne, ofDigitChars_eq_positional]

theorem Denotes.isInteger {word : List Char} {n : Int} (h : Denotes word n) : IsInteger word := by
  obtain ⟨sign, negative, body, hsign, hbody, hne, rfl, -⟩ := h
  exact ⟨sign, negative, body, hsign, hbody, hne, rfl⟩

theorem inRange_iff (n : Int) : inRange n = true ↔ -2 ^ 63 ≤ n ∧ n ≤ 2 ^ 63 - 1 := by
  simp only [inRange, Bool.and_eq_true, decide_eq_true_eq]
  norm_num

/-! ## Classes -/

/-- The classes of words, and what a word of each class is read as. -/
inductive Classified : List Char → Except ReadFault TokenKind → Prop
  | dot : Classified ['.'] (.ok .dot)
  | bool (b : Bool) : Classified ['#', if b then 't' else 'f'] (.ok (.atom (.bool b)))
  | unknown {rest : List Char} (not_true : rest ≠ ['t']) (not_false : rest ≠ ['f']) :
      Classified ('#' :: rest) (.error (.unknownLiteral (String.ofList ('#' :: rest))))
  /-- An optional sign and digits with one point before, behind or among them. -/
  | decimal {sign whole fraction : List Char} {negative : Bool} (signed : Sign sign negative)
      (before : Digits whole) (behind : Digits fraction) (digit : whole ≠ [] ∨ fraction ≠ []) :
      Classified (sign ++ (whole ++ '.' :: fraction)) (.ok (.atom (.number (.float
        (.ofDecimal negative (positional (whole ++ fraction)) fraction.length)))))
  | integer {word : List Char} {n : Int64} (denotes : Denotes word n.toInt) :
      Classified word (.ok (.atom (.number (.int n))))
  | outOfRange {word : List Char} {n : Int} (denotes : Denotes word n)
      (outside : ¬ (-2 ^ 63 ≤ n ∧ n ≤ 2 ^ 63 - 1)) :
      Classified word (.error (.integerOutOfRange (String.ofList word)))
  | symbol {word : List Char} (not_dot : word ≠ ['.']) (not_hash : word.head? ≠ some '#')
      (not_decimal : ¬ IsDecimal word) (not_integer : ¬ IsInteger word) :
      Classified word (.ok (.atom (.symbol (String.ofList word))))

/-- An integer is neither a dot nor a word with a `#`, and has no point. -/
theorem classify_of_denotes {word : List Char} {n : Int} (h : Denotes word n) :
    classify word = if inRange n then .ok (.atom (.number (.int (Int64.ofInt n))))
      else .error (.integerOutOfRange (String.ofList word)) := by
  have hinteger := integer?_eq_some_iff.2 h
  have hdecimal : decimal? word = none := (decimal?_eq_none_iff word).2 h.isInteger.not_isDecimal
  have hdot : word ≠ ['.'] := by
    rintro rfl
    rw [show integer? ['.'] = none from rfl] at hinteger
    cases hinteger
  simp only [classify, hdot, head?_ne_hash h.isInteger.isNumeric, hdecimal, hinteger, if_false]

/-- A word of a class is read as the class says. -/
theorem Classified.classify_eq {word : List Char} {r : Except ReadFault TokenKind}
    (h : Classified word r) : classify word = r := by
  cases h with
  | dot => rfl
  | bool b => cases b <;> rfl
  | unknown not_true not_false => simp [classify, not_true, not_false]
  | decimal signed before behind digit =>
    rw [classify_decimal (decimal?_append signed before behind digit), ofDigitChars_eq_positional]
  | @integer _ n denotes => rw [classify_of_denotes denotes, if_pos (inRange_toInt n), Int64.ofInt_toInt]
  | outOfRange denotes outside => rw [classify_of_denotes denotes, if_neg (mt (inRange_iff _).1 outside)]
  | symbol not_dot not_hash not_decimal not_integer =>
    simp [classify, not_dot, not_hash, (decimal?_eq_none_iff _).2 not_decimal,
      (integer?_eq_none_iff _).2 not_integer]

/-- Every word is of a class. -/
theorem exists_classified (word : List Char) : ∃ r, Classified word r := by
  by_cases hdot : word = ['.']
  · subst hdot
    exact ⟨_, .dot⟩
  by_cases hhash : word.head? = some '#'
  · obtain ⟨rest, rfl⟩ : ∃ rest, word = '#' :: rest := List.head?_eq_some_iff.1 hhash
    by_cases htrue : rest = ['t']
    · subst htrue
      exact ⟨_, .bool true⟩
    by_cases hfalse : rest = ['f']
    · subst hfalse
      exact ⟨_, .bool false⟩
    exact ⟨_, .unknown htrue hfalse⟩
  by_cases hdecimal : IsDecimal word
  · obtain ⟨sign, negative, whole, fraction, hsign, hwhole, hfraction, hne, rfl⟩ := hdecimal
    exact ⟨_, .decimal hsign hwhole hfraction hne⟩
  by_cases hinteger : IsInteger word
  · obtain ⟨n, hn⟩ := Option.isSome_iff_exists.1 ((integer?_isSome_iff word).2 hinteger)
    have hdenotes := integer?_eq_some_iff.1 hn
    by_cases hrange : -2 ^ 63 ≤ n ∧ n ≤ 2 ^ 63 - 1
    · -- in range, sixty-four bits hold the integer itself
      have hn : (Int64.ofInt n).toInt = n := Int64.toInt_ofInt_of_le hrange.1 (by omega)
      exact ⟨_, .integer (n := Int64.ofInt n) (hn.symm ▸ hdenotes)⟩
    · exact ⟨_, .outOfRange hdenotes hrange⟩
  · exact ⟨_, .symbol hdot hhash hdecimal hinteger⟩

theorem classify_eq_iff {word : List Char} {r : Except ReadFault TokenKind} :
    classify word = r ↔ Classified word r := by
  refine ⟨?_, Classified.classify_eq⟩
  rintro rfl
  obtain ⟨r, hr⟩ := exists_classified word
  exact hr.classify_eq.symm ▸ hr

/-! ## Readers that may refuse -/

/-- Why a word is refused, if somebody else reads the decimals. -/
inductive Refusal where
  | fault (f : ReadFault)
  /-- The word has the shape of a decimal and is not taken for one. -/
  | badFloat (word : String)

/-- What a bare word is, if those of the shape of a decimal are left to `read`, which may refuse them. -/
def classifyBy (read : List Char → Option Binary64) (word : List Char) : Except Refusal TokenKind :=
  if (decimal? word).isSome then
    match read word with
    | some x => .ok (.atom (.number (.float x)))
    | none => .error (.badFloat (String.ofList word))
  else (classify word).mapError .fault

theorem classifyBy_decimal? (word : List Char) :
    classifyBy decimal? word = (classify word).mapError .fault := by
  unfold classifyBy
  cases h : decimal? word with
  | none => rfl
  | some x =>
    rw [classify_decimal h]
    rfl

/-- A reader that takes all words of the shape of a decimal refuses none that it is given. -/
theorem classifyBy_ne_badFloat {read : List Char → Option Binary64}
    (hread : ∀ word, IsDecimal word → (read word).isSome = true) (word : List Char) (text : String) :
    classifyBy read word ≠ .error (.badFloat text) := by
  unfold classifyBy
  split
  · next hdecimal =>
    obtain ⟨x, hx⟩ := Option.isSome_iff_exists.1 (hread word ((decimal?_isSome_iff word).1 hdecimal))
    rw [hx]
    nofun
  · cases classify word <;> nofun

/-! ## The main statement -/

/-- A bare word is classified exactly: it is read as its class says and as nothing else.  No decimal is ever
refused, by the reader of decimals here or by any other that takes all words of their shape.  And an
integer as it is written is classified as that integer. -/
theorem bare_words_are_classified :
    (∀ word r, classify word = r ↔ Classified word r) ∧
    (∀ word, classifyBy decimal? word = (classify word).mapError .fault) ∧
    (∀ read : List Char → Option Binary64, (∀ word, IsDecimal word → (read word).isSome = true) →
      ∀ word text, classifyBy read word ≠ .error (.badFloat text)) ∧
    ∀ n : Int64, classify (Number.int n).text.toList = .ok (.atom (.number (.int n))) := by
  refine ⟨fun _ _ => classify_eq_iff, classifyBy_decimal?, fun _ => classifyBy_ne_badFloat, fun n => ?_⟩
  have hwritten : (Number.int n).text.toList = Number.intChars n.toInt := by simp [Number.text, Number.chars]
  have hdenotes := integer?_eq_some_iff.1 (integer?_intChars n.toInt)
  rw [hwritten]
  exact (Classified.integer hdenotes).classify_eq

/-- Leading zeros count for nothing, and the limits are not the same on both sides. -/
example :
    classify "-0009223372036854775808".toList = .ok (.atom (.number (.int (-9223372036854775808)))) ∧
    classify "+9223372036854775808".toList =
      .error (.integerOutOfRange "+9223372036854775808") ∧
    classify "1.2.3".toList = .ok (.atom (.symbol "1.2.3")) := by
  decide +kernel

end Lisplet.Word
