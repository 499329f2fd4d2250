/-
# Lisplet.Proofs.Token.Scanning -- scanning what was written

A word ends only where a delimiter or the end of the text follows it, so what a row of characters
contributes to the tokens depends on what comes next.  `Settled s ks` says that the scanner has read
tokens of the kinds `ks` once the word it may be in is counted as complete; a row of characters that
begins where no word is open `Reads` kinds, and one that begins with a delimiter `Continues` any
settled scan.  The two compose, and with them the kinds of a written atom and of a written list come
out without a look at the scanner's state.

Positions are left open throughout: they depend on all that was read before.
-/

import Mathlib.Tactic
import Lisplet.Token.Scan
import Lisplet.Proofs.Binary64.ReadBack
import Lisplet.Proofs.Token.Words

namespace Lisplet

/-- The kinds of tokens, in order. -/
def kindsOf (tokens : List Token) : List TokenKind := tokens.map (·.kind)

namespace Scan

variable {s : Scan} {ks : List TokenKind}

/-! ## Settled scans -/

/-- No lexeme is under way, and the tokens so far are of the kinds `ks`. -/
structure InGap (s : Scan) (ks : List TokenKind) : Prop where
  mode : s.mode = .gap
  kinds : kindsOf s.tokens.reverse = ks

/-- The tokens so far are of the kinds `ks`, if a word that is under way is counted as complete. -/
inductive Settled (s : Scan) : List TokenKind → Prop
  | gap {ks : List TokenKind} (h : s.InGap ks) : Settled s ks
  | word {start : Position} {read : List Char} {kind : TokenKind} {ks : List TokenKind}
      (mode : s.mode = .word start read) (kinds : kindsOf s.tokens.reverse = ks)
      (h : Word.classify read.reverse = .ok kind) : Settled s (ks ++ [kind])

theorem InGap.emit (h : kindsOf s.tokens.reverse = ks) (start : Position) (kind : TokenKind) :
    (s.emit start kind).InGap (ks ++ [kind]) :=
  ⟨rfl, by simp [Scan.emit, kindsOf, ← h]⟩

/-- A settled scan can end. -/
theorem Settled.finish (h : s.Settled ks) : ∃ tokens, s.finish = .ok tokens ∧ kindsOf tokens = ks := by
  cases h with
  | gap h => exact ⟨s.tokens.reverse, by simp [Scan.finish, h.mode], h.kinds⟩
  | @word start read kind ks mode kinds h =>
    refine ⟨(s.emit start kind).tokens.reverse, ?_, (InGap.emit kinds start kind).kinds⟩
    simp [Scan.finish, mode, endWord, h, Except.map]

/-- A delimiter completes what is under way and is then read as if nothing had preceded it. -/
theorem Settled.step_delimiter (h : s.Settled ks) {c : Char} (hc : Text.isDelimiter c = true) :
    ∃ s' : Scan, s'.InGap ks ∧ s.step c = .ok { s'.enter c with position := s.position.next c } := by
  cases h with
  | gap h => exact ⟨s, h, by simp [Scan.step, accept, h.mode, Except.map]⟩
  | @word start read kind ks mode kinds h =>
    refine ⟨s.emit start kind, InGap.emit kinds start kind, ?_⟩
    simp [Scan.step, accept, mode, hc, endWord, h, Except.map]

/-! ## Rows of characters -/

/-- Where no lexeme is under way, the characters add tokens of the kinds `new`. -/
def Reads (cs : List Char) (new : List TokenKind) : Prop :=
  ∀ (s : Scan) (ks : List TokenKind), s.InGap ks →
    ∃ s', cs.foldlM Scan.step s = .ok s' ∧ s'.Settled (ks ++ new)

/-- Behind anything that can be complete, the characters add tokens of the kinds `new`. -/
def Continues (cs : List Char) (new : List TokenKind) : Prop :=
  ∀ (s : Scan) (ks : List TokenKind), s.Settled ks →
    ∃ s', cs.foldlM Scan.step s = .ok s' ∧ s'.Settled (ks ++ new)

variable {cs ds : List Char} {new new' : List TokenKind}

theorem Continues.reads (h : Continues cs new) : Reads cs new :=
  fun s ks hs => h s ks (.gap hs)

/-- What can be complete is continued. -/
theorem Continues.after (h : ∃ s', cs.foldlM Scan.step s = .ok s' ∧ s'.Settled (ks ++ new))
    (h' : Continues ds new') :
    ∃ s', (cs ++ ds).foldlM Scan.step s = .ok s' ∧ s'.Settled (ks ++ (new ++ new')) := by
  obtain ⟨s', hfold, hs'⟩ := h
  obtain ⟨s'', hfold', hs''⟩ := h' s' _ hs'
  refine ⟨s'', ?_, by rwa [← List.append_assoc]⟩
  rw [List.foldlM_append, hfold]
  exact hfold'

theorem Reads.append (h : Reads cs new) (h' : Continues ds new') : Reads (cs ++ ds) (new ++ new') :=
  fun s ks hs => h'.after (h s ks hs)

theorem Continues.append (h : Continues cs new) (h' : Continues ds new') :
    Continues (cs ++ ds) (new ++ new') :=
  fun s ks hs => h'.after (h s ks hs)

theorem continues_nil : Continues [] [] := fun s ks hs => ⟨s, rfl, by simpa using hs⟩

/-- A delimiter that leaves a gap behind it adds its own token, if it has one, and then what
follows. -/
theorem continues_cons {c : Char} (own : List TokenKind) (hc : Text.isDelimiter c = true)
    (hown : ∀ (s : Scan) (ks : List TokenKind), s.InGap ks → (s.enter c).InGap (ks ++ own))
    (h : Reads cs new) : Continues (c :: cs) (own ++ new) := by
  intro s ks hs
  obtain ⟨s', hgap, hstep⟩ := hs.step_delimiter hc
  have hgap' := hown s' ks hgap
  obtain ⟨s'', hfold, hs''⟩ := h { s'.enter c with position := s.position.next c } _
    ⟨hgap'.mode, hgap'.kinds⟩
  refine ⟨s'', ?_, by rwa [← List.append_assoc]⟩
  rw [List.foldlM_cons, hstep]
  exact hfold

theorem continues_blank {c : Char} (hc : Text.isBlank c = true) (h : Reads cs new) :
    Continues (c :: cs) new := by
  refine continues_cons [] (by simp [Text.isDelimiter, hc]) (fun s ks hs => ⟨?_, ?_⟩) h
  · simp [enter, hc]
  · simpa [enter, hc] using hs.kinds

theorem continues_leftParen (h : Reads cs new) : Continues ('(' :: cs) (.leftParen :: new) :=
  continues_cons [.leftParen] (by decide) (fun s _ hs => InGap.emit hs.kinds s.position .leftParen) h

theorem continues_rightParen (h : Reads cs new) : Continues (')' :: cs) (.rightParen :: new) :=
  continues_cons [.rightParen] (by decide) (fun s _ hs => InGap.emit hs.kinds s.position .rightParen) h

/-! ## Words -/

/-- Inside a word, characters that are no delimiters make the word longer. -/
theorem foldlM_word {start : Position} {read : List Char} (hmode : s.mode = .word start read)
    (hcs : ∀ c ∈ cs, Text.isDelimiter c = false) :
    ∃ s', cs.foldlM Scan.step s = .ok s' ∧ s'.mode = .word start (cs.reverse ++ read) ∧
      s'.tokens = s.tokens := by
  induction cs generalizing s read with
  | nil => exact ⟨s, rfl, by simpa using hmode, rfl⟩
  | cons c cs ih =>
    have hstep : s.step c =
        .ok { s with mode := .word start (c :: read), position := s.position.next c } := by
      simp [Scan.step, accept, hmode, hcs c (by simp), Except.map]
    obtain ⟨s', hfold, hmode', htokens⟩ := ih (s := { s with
      mode := .word start (c :: read), position := s.position.next c }) rfl
      fun d hd => hcs d (List.mem_cons_of_mem c hd)
    refine ⟨s', ?_, by simpa using hmode', htokens⟩
    rw [List.foldlM_cons, hstep]
    exact hfold

/-- What is no delimiter begins a word where no lexeme is under way. -/
theorem enter_of_not_delimiter {c : Char} (hc : Text.isDelimiter c = false) :
    s.enter c = { s with mode := .word s.position [c] } := by
  simp only [Text.isDelimiter, Bool.or_eq_false_iff, beq_eq_false_iff_ne] at hc
  obtain ⟨⟨⟨⟨⟨hblank, hopen⟩, hclose⟩, hquote⟩, hstring⟩, hcomment⟩ := hc
  simp [enter, hblank, hopen, hclose, hquote, hstring, hcomment]

theorem not_delimiter_of_all {word : List Char} (h : word.all (!Text.isDelimiter ·) = true) :
    ∀ c ∈ word, Text.isDelimiter c = false := by
  simpa using h

/-- A row without delimiters is read as one word. -/
theorem reads_word {word : List Char} {kind : TokenKind} (hne : word ≠ [])
    (hword : ∀ c ∈ word, Text.isDelimiter c = false) (h : Word.classify word = .ok kind) :
    Reads word [kind] := by
  intro s ks hs
  cases word with
  | nil => exact absurd rfl hne
  | cons c cs =>
    -- the first character opens the word, the others make it longer
    have hstep : s.step c =
        .ok { s with mode := .word s.position [c], position := s.position.next c } := by
      simp [Scan.step, accept, hs.mode, enter_of_not_delimiter (hword c (by simp)), Except.map]
    obtain ⟨s', hfold, hmode, htokens⟩ := foldlM_word (s := { s with
      mode := .word s.position [c], position := s.position.next c }) rfl
      fun d hd => hword d (List.mem_cons_of_mem c hd)
    refine ⟨s', ?_, .word hmode (by simpa [htokens] using hs.kinds) (by simpa using h)⟩
    rw [List.foldlM_cons, hstep]
    exact hfold

/-! ## String literals -/

/-- Inside a string literal, the written form of a character adds that character. -/
theorem foldlM_escapeChar {start : Position} {read : List Char} (hmode : s.mode = .string start read)
    (c : Char) : ∃ s', (Text.escapeChar c).foldlM Scan.step s = .ok s' ∧
      s'.mode = .string start (c :: read) ∧ s'.tokens = s.tokens := by
  -- five characters are written behind a backslash, all others stand for themselves
  have hescape : ∀ d, Text.decoded d = [c] → ∃ s', ['\\', d].foldlM Scan.step s = .ok s' ∧
      s'.mode = .string start (c :: read) ∧ s'.tokens = s.tokens := by
    intro d hd
    refine ⟨{ s with mode := .string start (c :: read),
                     position := (s.position.next '\\').next d }, ?_, rfl, rfl⟩
    simp [Scan.step, accept, hmode, hd, Except.map, bind, Except.bind, pure, Except.pure]
  unfold Text.escapeChar
  split_ifs with h1 h2 h3 h4 h5
  · exact hescape 'n' (by simp [Text.decoded, h1])
  · exact hescape 't' (by simp [Text.decoded, h2])
  · exact hescape 'r' (by simp [Text.decoded, h3])
  · exact hescape '\\' (by simp [Text.decoded, h4])
  · exact hescape '"' (by simp [Text.decoded, h5])
  · refine ⟨{ s with mode := .string start (c :: read), position := s.position.next c }, ?_, rfl, rfl⟩
    simp [Scan.step, accept, hmode, h4, h5, Except.map, bind, Except.bind, pure, Except.pure]

/-- Inside a string literal, the written form of a content adds that content. -/
theorem foldlM_escape {start : Position} {read : List Char} (hmode : s.mode = .string start read)
    (content : List Char) : ∃ s', (Text.escape content).foldlM Scan.step s = .ok s' ∧
      s'.mode = .string start (content.reverse ++ read) ∧ s'.tokens = s.tokens := by
  induction content generalizing s read with
  | nil => exact ⟨s, rfl, by simpa using hmode, rfl⟩
  | cons c content ih =>
    obtain ⟨s', hfold, hmode', htokens⟩ := foldlM_escapeChar hmode c
    obtain ⟨s'', hfold', hmode'', htokens'⟩ := ih hmode'
    refine ⟨s'', ?_, by simpa using hmode'', htokens'.trans htokens⟩
    rw [Text.escape, List.flatMap_cons, List.foldlM_append, hfold]
    exact hfold'

/-- A written string is read as one token. -/
theorem reads_quoted (content : String) :
    Reads (Text.quoted content).toList [.atom (.string content)] := by
  intro s ks hs
  have hstep : s.step '"' =
      .ok { s with mode := .string s.position [], position := s.position.next '"' } := by
    simp [Scan.step, accept, hs.mode, enter, show Text.isBlank '"' = false from rfl, Except.map]
  obtain ⟨s', hfold, hmode, htokens⟩ := foldlM_escape (s := { s with
    mode := .string s.position [], position := s.position.next '"' }) rfl content.toList
  have hclose : s'.step '"' = .ok { s'.emit s.position (.atom (.string content)) with
      position := s'.position.next '"' } := by
    simp [Scan.step, accept, hmode, Except.map]
  have hkinds : kindsOf s'.tokens.reverse = ks := by simpa [htokens] using hs.kinds
  have hgap := InGap.emit hkinds s.position (.atom (.string content))
  refine ⟨{ s'.emit s.position (.atom (.string content)) with position := s'.position.next '"' }, ?_,
    .gap ⟨hgap.mode, hgap.kinds⟩⟩
  rw [Text.quoted, String.toList_ofList, List.foldlM_cons, hstep]
  show List.foldlM Scan.step _ (Text.escape content.toList ++ ['"']) = _
  rw [List.foldlM_append, hfold]
  show List.foldlM Scan.step s' ['"'] = _
  rw [List.foldlM_cons, hclose]
  rfl

end Scan

/-! ## Atoms -/

/-- The atoms whose written form reads back: symbols with nothing else to be taken for, and no floating
point number but a finite one. -/
def Atom.Readable : Atom → Prop
  | .symbol name => Word.IsSymbol name.toList
  | .number (.float x) => x.isFinite = true
  | .number (.int _) | .string _ | .bool _ => True

/-- A written atom is read as one token, which denotes it. -/
theorem Atom.reads_text {a : Atom} (h : a.Readable) : Scan.Reads a.text.toList [.atom a] := by
  match a with
  | .symbol name =>
    have hclass := h.classify_eq
    rw [String.ofList_toList] at hclass
    exact Scan.reads_word h.ne_nil h.not_delimiter hclass
  | .number (.int n) =>
    have hread := Word.integer?_intChars n.toInt
    have hshape := (Word.integer?_isSome_iff (Number.intChars n.toInt)).1 (by rw [hread]; rfl)
    have hclass := Word.classify_integer hread (Word.inRange_toInt n)
    rw [Int64.ofInt_toInt] at hclass
    show Scan.Reads (String.ofList _).toList _
    rw [String.toList_ofList]
    exact Scan.reads_word hshape.ne_nil (fun c hc => (hshape.isNumeric c hc).isDelimiter_eq) hclass
  | .number (.float x) =>
    have hread := Binary64.decimal?_chars h
    have hshape := (Word.decimal?_isSome_iff x.chars).1 (by rw [hread]; rfl)
    show Scan.Reads (String.ofList _).toList _
    rw [String.toList_ofList]
    exact Scan.reads_word hshape.ne_nil (fun c hc => (hshape.isNumeric c hc).isDelimiter_eq)
      (Word.classify_decimal hread)
  | .string content => exact Scan.reads_quoted content
  | .bool true => exact Scan.reads_word (by decide) (Scan.not_delimiter_of_all rfl) rfl
  | .bool false => exact Scan.reads_word (by decide) (Scan.not_delimiter_of_all rfl) rfl

end Lisplet
