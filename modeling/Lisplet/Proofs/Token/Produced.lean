/-
# Lisplet.Proofs.Token.Produced -- the atoms that a text can hold

A text holds fewer atoms than there are.  A word is classified as a symbol only where nothing else is
left for it, so its name is classified the same way again; a decimal denotes a finite number or, if it
is too large, an infinity, and never what is not a number; a string may hold any characters.  The
scanner therefore produces atoms that read back from their written form, infinities apart
(`tokenize_returns`).

The scanner classifies what it holds as a word.  That no such word is empty or contains a delimiter is
the invariant `Scan.Sound`, kept by every character.
-/

import Mathlib.Tactic
import Lisplet.Proofs.Binary64.Rounding
import Lisplet.Proofs.Token.Scanning

namespace Lisplet

/-! ## Decimals -/

namespace Binary64

/-- A decimal denotes a number, which may be an infinity. -/
theorem isFinite_ofDecimal {negative : Bool} {digits places : Nat}
    (h : (ofDecimal negative digits places).isInfinite = false) :
    (ofDecimal negative digits places).isFinite = true := by
  have hle : nearest (digits * unitsPerOne) (tenPow places) ≤ infinityPattern := Nat.min_le_left _ _
  have hpattern := pattern_ofPattern negative (hle.trans_lt infinityPattern_lt_signWeight)
  have hne : (ofDecimal negative digits places).pattern ≠ infinityPattern := fun heq => by
    rw [← isInfinite_iff, h] at heq
    cases heq
  rw [isFinite_iff]
  exact lt_of_le_of_ne (hpattern.trans_le hle) hne

end Binary64

/-! ## Words -/

/-- Is the atom an infinite number? -/
def Atom.isInfinite : Atom → Bool
  | .number (.float x) => x.isInfinite
  | _ => false

namespace Word

variable {word : List Char}

theorem isFinite_of_decimal? {x : Binary64} (h : decimal? word = some x)
    (hx : x.isInfinite = false) : x.isFinite = true := by
  obtain ⟨⟨whole, fraction⟩, -, rfl⟩ := Option.map_eq_some_iff.1 h
  exact Binary64.isFinite_ofDecimal hx

/-- A word is classified as an atom that reads back, unless that is infinite. -/
theorem classify_readable {a : Atom} (hne : word ≠ [])
    (hword : ∀ c ∈ word, Text.isDelimiter c = false) (h : classify word = .ok (.atom a))
    (ha : a.isInfinite = false) : a.Readable := by
  unfold classify at h
  split_ifs at h with hdot hhash
  · cases h
  · cases h
    trivial
  · cases h
    trivial
  · cases hdecimal : decimal? word with
    | some x =>
      simp only [hdecimal] at h
      cases h
      exact isFinite_of_decimal? hdecimal ha
    | none =>
      cases hinteger : integer? word with
      | some n =>
        simp only [hdecimal, hinteger] at h
        split_ifs at h
        cases h
        trivial
      | none =>
        simp only [hdecimal, hinteger] at h
        cases h
        show IsSymbol (String.ofList word).toList
        rw [String.toList_ofList]
        exact ⟨hne, hword, hdot, hhash, (decimal?_eq_none_iff word).1 hdecimal,
          (integer?_eq_none_iff word).1 hinteger⟩

end Word

/-! ## Scans -/

/-- If the token is an atom that is not infinite, then one that reads back. -/
def TokenKind.Returns (kind : TokenKind) : Prop :=
  ∀ a, kind = .atom a → a.isInfinite = false → a.Readable

namespace Scan

variable {s s' : Scan} {c : Char}

/-- What holds between two characters: the tokens so far read back, and a word that is under way has a
character and no delimiter. -/
structure Sound (s : Scan) : Prop where
  tokens : ∀ t ∈ s.tokens, t.kind.Returns
  word : ∀ start read, s.mode = .word start read →
    read ≠ [] ∧ ∀ c ∈ read, Text.isDelimiter c = false

theorem Sound.of_mode (h : s.Sound) {mode : ScanMode} (hmode : ∀ start read, mode ≠ .word start read) :
    Sound { s with mode } :=
  ⟨h.tokens, fun start read heq => absurd heq (hmode start read)⟩

theorem Sound.emit (h : s.Sound) (start : Position) {kind : TokenKind} (hkind : kind.Returns) :
    (s.emit start kind).Sound :=
  ⟨List.forall_mem_cons.2 ⟨hkind, h.tokens⟩, fun _ _ heq => by cases heq⟩

theorem Sound.endWord (h : s.Sound) {start : Position} {read : List Char}
    (hmode : s.mode = .word start read) (hend : s.endWord start read = .ok s') : s'.Sound := by
  obtain ⟨hne, hread⟩ := h.word start read hmode
  unfold Scan.endWord at hend
  split at hend
  · next kind hkind =>
    cases hend
    refine h.emit start ?_
    rintro a rfl ha
    exact Word.classify_readable (by simpa using hne) (by simpa using hread) hkind ha
  · cases hend

theorem Sound.enter (h : s.Sound) (c : Char) : (s.enter c).Sound := by
  have hother : ∀ kind : TokenKind, (∀ a, kind ≠ .atom a) → (s.emit s.position kind).Sound :=
    fun kind hkind => h.emit s.position fun a ha => absurd ha (hkind a)
  -- a character that begins a word is none of those that begin something else
  by_cases hc : Text.isDelimiter c = false
  · rw [enter_of_not_delimiter hc]
    refine ⟨h.tokens, ?_⟩
    rintro start read ⟨⟩
    exact ⟨by simp, by simpa using hc⟩
  · unfold Scan.enter
    split_ifs with hblank hcomment hopen hclose hquote hstring
    · exact h.of_mode (by simp)
    · exact h.of_mode (by simp)
    · exact hother _ (by simp)
    · exact hother _ (by simp)
    · exact hother _ (by simp)
    · exact h.of_mode (by simp)
    · simp [Text.isDelimiter, hblank, hcomment, hopen, hclose, hquote, hstring] at hc

theorem Sound.accept (h : s.Sound) (haccept : s.accept c = .ok s') : s'.Sound := by
  unfold Scan.accept at haccept
  split at haccept
  · cases haccept
    exact h.enter c
  · cases haccept
    split
    · exact h.of_mode (by simp)
    · exact h
  · next start read hmode =>
    split at haccept
    · cases hend : s.endWord start read with
      | error e =>
        rw [hend] at haccept
        cases haccept
      | ok t =>
        rw [hend] at haccept
        cases haccept
        exact (h.endWord hmode hend).enter c
    · next hc =>
      cases haccept
      refine ⟨h.tokens, ?_⟩
      rintro start' read' ⟨⟩
      refine ⟨by simp, List.forall_mem_cons.2 ⟨by simpa using hc, ?_⟩⟩
      exact (h.word start read hmode).2
  · next start read hmode =>
    split_ifs at haccept
    · cases haccept
      refine h.emit start ?_
      rintro a ⟨⟩ -
      trivial
    · cases haccept
      exact h.of_mode (by simp)
    · cases haccept
      exact h.of_mode (by simp)
  · cases haccept
    exact h.of_mode (by simp)

theorem Sound.step (h : s.Sound) (hstep : s.step c = .ok s') : s'.Sound := by
  unfold Scan.step at hstep
  cases haccept : s.accept c with
  | error e =>
    rw [haccept] at hstep
    cases hstep
  | ok t =>
    rw [haccept] at hstep
    cases hstep
    have ht := h.accept haccept
    exact ⟨ht.tokens, ht.word⟩

theorem Sound.foldlM (h : s.Sound) {cs : List Char} (hfold : cs.foldlM Scan.step s = .ok s') :
    s'.Sound := by
  induction cs generalizing s with
  | nil =>
    cases hfold
    exact h
  | cons c cs ih =>
    rw [List.foldlM_cons] at hfold
    cases hstep : s.step c with
    | error e =>
      rw [hstep] at hfold
      cases hfold
    | ok t =>
      rw [hstep] at hfold
      exact ih (h.step hstep) hfold

theorem Sound.finish (h : s.Sound) {tokens : List Token} (hfinish : s.finish = .ok tokens) :
    ∀ t ∈ tokens, t.kind.Returns := by
  unfold Scan.finish at hfinish
  split at hfinish
  · cases hfinish
    simpa using h.tokens
  · cases hfinish
    simpa using h.tokens
  · next start read hmode =>
    cases hend : s.endWord start read with
    | error e =>
      rw [hend] at hfinish
      cases hfinish
    | ok t =>
      rw [hend] at hfinish
      cases hfinish
      simpa using (h.endWord hmode hend).tokens
  · cases hfinish
  · cases hfinish

end Scan

/-- The atoms of a text read back, unless they are infinite. -/
theorem tokenize_returns {text : String} {tokens : List Token} (h : tokenize text = .ok tokens) :
    ∀ t ∈ tokens, t.kind.Returns := by
  unfold tokenize at h
  cases hfold : text.toList.foldlM Scan.step {} with
  | error e =>
    rw [hfold] at h
    cases h
  | ok s =>
    rw [hfold] at h
    have hstart : Scan.Sound {} := ⟨by simp, fun _ _ heq => by cases heq⟩
    exact (hstart.foldlM hfold).finish h

end Lisplet
