/-
# Lisplet.Proofs.Token.Division -- a text is gaps and lexemes

A text that can be scanned is a gap, a lexeme, a gap, and so on up to a last gap (`Text.Divides`).  Gaps
are blanks and comments, lexemes are what tokens are written as, and nothing is left over.  Rows and
columns are counted here from the text alone: a token stands behind all that comes before its lexeme.
How far they can be counted shows `tokenize_behind_lineFeeds`.
A text that cannot be scanned is divided in the same way up to a lexeme that is none (`Text.Fails`).

Every text is divided in one of these ways (`Text.divides_or_fails`), and the scanner goes along with
both.  Where a word ends only shows in what stands behind it, so a lexeme is one in front of the rest of
the text: the scanner completes a word when it reads a delimiter, and has then come as far as it would
have without the word.
-/

import Mathlib.Tactic
import Lisplet.Proofs.Token.Lexemes

namespace Lisplet

namespace Text

/-! ## Gaps -/

/-- Blanks and comments; a comment goes on up to the line feed that ends its line. -/
inductive Gap : List Char → Prop
  | nil : Gap []
  | blank {c : Char} {gap : List Char} (hc : isBlank c = true) (h : Gap gap) : Gap (c :: gap)
  | comment {line gap : List Char} (hline : '\n' ∉ line) (h : Gap gap) :
      Gap (';' :: (line ++ '\n' :: gap))

/-- The gap at the end of a text, where a comment can go on up to the end. -/
inductive LastGap : List Char → Prop
  | gap {gap : List Char} (h : Gap gap) : LastGap gap
  | comment {gap line : List Char} (h : Gap gap) (hline : '\n' ∉ line) :
      LastGap (gap ++ ';' :: line)

/-! ## Lexemes -/

/-- The characters that stand for others behind a backslash, each with the one that it stands for. -/
def escapes : List (Char × Char) :=
  [('n', '\n'), ('t', '\t'), ('r', '\r'), ('\\', '\\'), ('"', '"')]

/-- What is written between the double quotes of a string, and the content that it stands for. -/
inductive Literal : List Char → List Char → Prop
  | nil : Literal [] []
  | plain {c : Char} {written content : List Char} (hquote : c ≠ '"') (hslash : c ≠ '\\')
      (h : Literal written content) : Literal (c :: written) (c :: content)
  | escape {c d : Char} {written content : List Char} (hc : (c, d) ∈ escapes)
      (h : Literal written content) : Literal ('\\' :: c :: written) (d :: content)
  /-- Any other pair is kept as it is. -/
  | verbatim {c : Char} {written content : List Char} (hc : ∀ d, (c, d) ∉ escapes)
      (h : Literal written content) : Literal ('\\' :: c :: written) ('\\' :: c :: content)

end Text

/-- What a token is written as, in front of what stands behind it.  A word is as long as it can be. -/
inductive TokenKind.Lexeme : TokenKind → List Char → List Char → Prop
  | leftParen (behind : List Char) : Lexeme .leftParen ['('] behind
  | rightParen (behind : List Char) : Lexeme .rightParen [')'] behind
  | quote (behind : List Char) : Lexeme .quote ['\''] behind
  | string {written content : List Char} (h : Text.Literal written content) (behind : List Char) :
      Lexeme (.atom (.string (String.ofList content))) ('"' :: (written ++ ['"'])) behind
  | word {kind : TokenKind} {word behind : List Char} (hword : Text.IsWord word)
      (hbehind : ∀ c ∈ behind.head?, Text.isDelimiter c = true)
      (hkind : Word.classify word = .ok kind) : Lexeme kind word behind

/-- What is written in place of a lexeme, in front of what stands behind it: a word that denotes
nothing, or a string that the end of the text leaves open, maybe behind a backslash. -/
inductive ReadFault.Lexeme : ReadFault → List Char → List Char → Prop
  | word {fault : ReadFault} {word behind : List Char} (hword : Text.IsWord word)
      (hbehind : ∀ c ∈ behind.head?, Text.isDelimiter c = true)
      (hfault : Word.classify word = .error fault) : Lexeme fault word behind
  | string {written content : List Char} (h : Text.Literal written content) :
      Lexeme .unterminatedString ('"' :: written) []
  | escape {written content : List Char} (h : Text.Literal written content) :
      Lexeme .unterminatedString ('"' :: (written ++ ['\\'])) []

namespace Text

/-- Behind `before`, the text is gaps and lexemes in turn, and the lexemes are those of the tokens. -/
inductive Divides : List Char → List Char → List Token → Prop
  | last {before gap : List Char} (h : LastGap gap) : Divides before gap []
  | token {before gap lexeme behind : List Char} {kind : TokenKind} {ts : List Token} (hgap : Gap gap)
      (hlexeme : kind.Lexeme lexeme behind) (h : Divides (before ++ gap ++ lexeme) behind ts) :
      Divides before (gap ++ (lexeme ++ behind)) (⟨kind, place (before ++ gap)⟩ :: ts)

theorem LastGap.blank {c : Char} {gap : List Char} (hc : isBlank c = true) (h : LastGap gap) :
    LastGap (c :: gap) := by
  cases h with
  | gap h => exact .gap (.blank hc h)
  | comment h hline => exact .comment (.blank hc h) hline

/-- Behind a backslash, every character stands for something. -/
theorem Literal.escaped (c : Char) {written content : List Char} (h : Literal written content) :
    ∃ content', Literal ('\\' :: c :: written) content' := by
  by_cases hc : ∃ d, (c, d) ∈ escapes
  · obtain ⟨d, hd⟩ := hc
    exact ⟨_, .escape hd h⟩
  · exact ⟨_, .verbatim (not_exists.1 hc) h⟩

end Text

/-! ## The scanner goes along -/

namespace Scan

open Text

variable {p start : Position} {ts : List Token} {read cs rest : List Char} {c : Char}

/-- What a scanner makes of the rest of a text. -/
def run (s : Scan) (cs : List Char) : Except ReadError (List Token) := cs.foldlM step s >>= finish

theorem run_append {s s' : Scan} (h : cs.foldlM step s = .ok s') (rest : List Char) :
    s.run (cs ++ rest) = s'.run rest := by
  rw [run, List.foldlM_append, h]
  rfl

theorem run_cons {s s' : Scan} (h : s.step c = .ok s') (rest : List Char) :
    s.run (c :: rest) = s'.run rest := by
  rw [run, List.foldlM_cons, h]
  rfl

theorem foldlM_comment (hcs : '\n' ∉ cs) :
    cs.foldlM step ⟨p, .comment, ts⟩ = .ok ⟨p.after cs, .comment, ts⟩ := by
  induction cs generalizing p with
  | nil => rfl
  | cons c cs ih =>
    obtain ⟨hc, hcs⟩ := not_or.1 (mt List.mem_cons.2 hcs)
    have hstep : step ⟨p, .comment, ts⟩ c = .ok ⟨p.next c, .comment, ts⟩ := by
      simp [step, accept, Ne.symm hc, Except.map]
    rw [List.foldlM_cons, hstep]
    exact ih hcs

/-- A gap leaves the tokens as they are. -/
theorem run_gap {gap : List Char} (h : Gap gap) (rest : List Char) :
    run ⟨p, .gap, ts⟩ (gap ++ rest) = run ⟨p.after gap, .gap, ts⟩ rest := by
  induction h generalizing p with
  | nil => rfl
  | @blank c gap hc _ ih =>
    have hstep : step ⟨p, .gap, ts⟩ c = .ok ⟨p.next c, .gap, ts⟩ := by
      simp [step, accept, enter, hc, Except.map]
    rw [List.cons_append, run_cons hstep]
    exact ih
  | @comment line gap hline _ ih =>
    have hopen : step ⟨p, .gap, ts⟩ ';' = .ok ⟨p.next ';', .comment, ts⟩ := rfl
    have hclose (q : Position) : step ⟨q, .comment, ts⟩ '\n' = .ok ⟨q.next '\n', .gap, ts⟩ := rfl
    have hrow : ';' :: (line ++ '\n' :: gap) ++ rest = ';' :: (line ++ '\n' :: (gap ++ rest)) := by simp
    rw [hrow, run_cons hopen, run_append (foldlM_comment hline), run_cons (hclose _), ih]
    simp [Position.after]

theorem run_lastGap {gap : List Char} (h : LastGap gap) : run ⟨p, .gap, ts⟩ gap = .ok ts.reverse := by
  cases h with
  | gap h =>
    have hrun : run ⟨p, .gap, ts⟩ (gap ++ []) = .ok ts.reverse := run_gap h []
    rwa [List.append_nil] at hrun
  | @comment gap line h hline =>
    have hopen (q : Position) : step ⟨q, .gap, ts⟩ ';' = .ok ⟨q.next ';', .comment, ts⟩ := rfl
    have hrun (q : Position) : run ⟨q, .comment, ts⟩ (line ++ []) = .ok ts.reverse :=
      run_append (foldlM_comment hline) []
    rw [List.append_nil] at hrun
    rw [run_gap h, run_cons (hopen _), hrun]

/-! ### Lexemes -/

theorem foldlM_read (hcs : ∀ c ∈ cs, isDelimiter c = false) :
    cs.foldlM step ⟨p, .word start read, ts⟩ =
      .ok ⟨p.after cs, .word start (cs.reverse ++ read), ts⟩ := by
  induction cs generalizing p read with
  | nil => rfl
  | cons c cs ih =>
    obtain ⟨hc, hcs⟩ := List.forall_mem_cons.1 hcs
    have hstep : step ⟨p, .word start read, ts⟩ c = .ok ⟨p.next c, .word start (c :: read), ts⟩ := by
      simp [step, accept, hc, Except.map]
    rw [List.foldlM_cons, hstep]
    show cs.foldlM step ⟨p.next c, .word start (c :: read), ts⟩ = _
    rw [ih hcs]
    simp [Position.after]

theorem foldlM_isWord {word : List Char} (h : IsWord word) :
    word.foldlM step ⟨p, .gap, ts⟩ = .ok ⟨p.after word, .word p word.reverse, ts⟩ := by
  cases word with
  | nil => exact absurd rfl h.ne_nil
  | cons c cs =>
    obtain ⟨hc, hcs⟩ := List.forall_mem_cons.1 h.isDelimiter
    have hstep : step ⟨p, .gap, ts⟩ c = .ok ⟨p.next c, .word p [c], ts⟩ := by
      simp [step, accept, enter_of_not_delimiter hc, Except.map]
    rw [List.foldlM_cons, hstep]
    show cs.foldlM step ⟨p.next c, .word p [c], ts⟩ = _
    rw [foldlM_read hcs]
    simp [Position.after]

/-- Where a word has to end, it is as if it had ended before. -/
theorem run_word {kind : TokenKind} (h : Word.classify read.reverse = .ok kind)
    (hrest : ∀ c ∈ rest.head?, isDelimiter c = true) :
    run ⟨p, .word start read, ts⟩ rest = run ⟨p, .gap, ⟨kind, start⟩ :: ts⟩ rest := by
  cases rest with
  | nil => simp [run, finish, endWord, h, emit, Except.map, pure, Except.pure, bind, Except.bind]
  | cons c rest =>
    have hc : isDelimiter c = true := hrest c rfl
    have hstep : step ⟨p, .word start read, ts⟩ c = step ⟨p, .gap, ⟨kind, start⟩ :: ts⟩ c := by
      simp [step, accept, hc, endWord, h, emit, Except.map]
    rw [run, run, List.foldlM_cons, List.foldlM_cons, hstep]

theorem decoded_of_mem {c d : Char} (h : (c, d) ∈ escapes) : decoded c = [d] := by
  simp only [escapes, List.mem_cons, Prod.mk.injEq, List.not_mem_nil, or_false] at h
  rcases h with ⟨rfl, rfl⟩ | ⟨rfl, rfl⟩ | ⟨rfl, rfl⟩ | ⟨rfl, rfl⟩ | ⟨rfl, rfl⟩ <;> rfl

theorem decoded_of_not_mem {c : Char} (h : ∀ d, (c, d) ∉ escapes) : decoded c = ['\\', c] := by
  have hne : ∀ p ∈ escapes, c ≠ p.1 := by
    rintro ⟨a, d⟩ hp rfl
    exact h d hp
  obtain ⟨hn, ht, hr, hslash, hquote⟩ : c ≠ 'n' ∧ c ≠ 't' ∧ c ≠ 'r' ∧ c ≠ '\\' ∧ c ≠ '"' := by
    simpa [escapes] using hne
  simp [decoded, hn, ht, hr, hslash, hquote]

/-- The inside of a string adds its content. -/
theorem foldlM_literal {written content : List Char} (h : Literal written content) :
    written.foldlM step ⟨p, .string start read, ts⟩ =
      .ok ⟨p.after written, .string start (content.reverse ++ read), ts⟩ := by
  -- a backslash and the character behind it add what they stand for, then the rest is read
  have hpair : ∀ (p : Position) (read : List Char) (c : Char) (cs : List Char),
      ('\\' :: c :: cs).foldlM step ⟨p, .string start read, ts⟩ =
        cs.foldlM step ⟨(p.next '\\').next c, .string start ((decoded c).reverse ++ read), ts⟩ :=
    fun p read c cs => rfl
  induction h generalizing p read with
  | nil => rfl
  | @plain c written content hquote hslash _ ih =>
    have hstep : step ⟨p, .string start read, ts⟩ c = .ok ⟨p.next c, .string start (c :: read), ts⟩ := by
      simp [step, accept, hquote, hslash, Except.map]
    rw [List.foldlM_cons, hstep]
    show written.foldlM step ⟨p.next c, .string start (c :: read), ts⟩ = _
    rw [ih]
    simp [Position.after]
  | @escape c d written content hc _ ih =>
    rw [hpair, ih, decoded_of_mem hc]
    simp [Position.after]
  | @verbatim c written content hc _ ih =>
    rw [hpair, ih, decoded_of_not_mem hc]
    simp [Position.after]

/-- A lexeme adds its token, which stands where the lexeme begins. -/
theorem run_lexeme {kind : TokenKind} {lexeme : List Char} (h : kind.Lexeme lexeme rest) :
    run ⟨p, .gap, ts⟩ (lexeme ++ rest) = run ⟨p.after lexeme, .gap, ⟨kind, p⟩ :: ts⟩ rest := by
  cases h with
  | leftParen | rightParen | quote => rfl
  | @string written content h =>
    have hopen : step ⟨p, .gap, ts⟩ '"' = .ok ⟨p.next '"', .string p [], ts⟩ := rfl
    have hrow : '"' :: (written ++ ['"']) ++ rest = '"' :: (written ++ '"' :: rest) := by simp
    have hclose (q : Position) (read : List Char) : step ⟨q, .string p read, ts⟩ '"' =
        .ok ⟨q.next '"', .gap, ⟨.atom (.string (String.ofList read.reverse)), p⟩ :: ts⟩ := rfl
    rw [hrow, run_cons hopen, run_append (foldlM_literal h), run_cons (hclose _ _)]
    simp [Position.after]
  | word hword hbehind hkind =>
    have hread : Word.classify lexeme.reverse.reverse = .ok kind := by rwa [List.reverse_reverse]
    rw [run_append (foldlM_isWord hword), run_word hread hbehind]

theorem run_divides {before text : List Char} {us : List Token} (h : Divides before text us) :
    run ⟨place before, .gap, ts⟩ text = .ok (ts.reverse ++ us) := by
  induction h generalizing ts with
  | last h => rw [run_lastGap h, List.append_nil]
  | @token before gap lexeme behind kind us hgap hlexeme _ ih =>
    rw [run_gap hgap, run_lexeme hlexeme, after_place, after_place, ih]
    simp

end Scan

theorem tokenize_of_divides {text : String} {ts : List Token} (h : Text.Divides [] text.toList ts) :
    tokenize text = .ok ts := by
  show Scan.run ⟨Text.place [], .gap, []⟩ text.toList = .ok ([].reverse ++ ts)
  exact Scan.run_divides h

/-- A word behind `n` line feeds stands in row `n + 1`, as rows are counted. -/
theorem tokenize_behind_lineFeeds (n : Nat) :
    tokenize (String.ofList (List.replicate n '\n' ++ ['b'])) =
      .ok [⟨.atom (.symbol "b"), ⟨UInt32.ofNat (1 + n), 1⟩⟩] := by
  have hgap : Text.Gap (List.replicate n '\n') := by
    induction n with
    | zero => exact .nil
    | succ n ih => exact .blank (by decide) ih
  have hword : Text.IsWord ['b'] := ⟨by simp, by simp; decide⟩
  have hlast : Text.Divides ([] ++ List.replicate n '\n' ++ ['b']) [] [] := .last (.gap .nil)
  have hlexeme : TokenKind.Lexeme (.atom (.symbol "b")) ['b'] [] := .word hword (by simp) (by decide)
  have hdivides := Text.Divides.token hgap hlexeme hlast
  rw [List.nil_append, List.append_nil, Text.place_lineFeeds] at hdivides
  exact tokenize_of_divides (by rwa [String.toList_ofList])

end Lisplet
