/-
# Lisplet.Proofs.Token.Lexemes -- where the lexemes of a text stand

The scanner counts rows and columns as it goes and gives each token the position at which its first
character was read.  Here a position means something on its own: the one behind `before` is the place
of what follows `before` in the text.  Every token stands where its lexeme is written
(`tokenize_stands`), and a text that cannot be scanned is reported where the faulty word or string
begins (`tokenize_error_stands`).

What the scanner holds of a lexeme that is under way determines how that has been written so far.  This
is the invariant `Scan.Follows`, kept by every character.
-/

import Mathlib.Tactic
import Lisplet.Proofs.Token.Places
import Lisplet.Proofs.Token.Scanning

namespace Lisplet

/-- Behind `before`, the text goes on with `written`; the position of that is `p`. -/
structure Text.Stands (text before written : List Char) (p : Position) : Prop where
  text : ∃ behind, text = before ++ written ++ behind
  position : p = Position.start.after before

namespace Text.Stands

variable {text before written : List Char} {p : Position}

theorem append (h : Text.Stands text before written p) (more : List Char) :
    Text.Stands (text ++ more) before written p := by
  obtain ⟨⟨behind, rfl⟩, hp⟩ := h
  exact ⟨⟨behind ++ more, by simp⟩, hp⟩

/-- What is written is at the place of what comes before it. -/
theorem exists_place (h : Text.Stands text before written p) :
    ∃ before, before <+: text ∧ p = Text.place before := by
  obtain ⟨⟨behind, rfl⟩, hp⟩ := h
  refine ⟨before, ?_, by rw [hp, Text.after_start]⟩
  rw [List.append_assoc]
  exact List.prefix_append _ _

end Text.Stands

/-! ## Lexemes -/

/-- What stands between the double quotes of a string literal, and the content that it stands for. -/
inductive Text.Spells : List Char → List Char → Prop
  | nil : Spells [] []
  | plain {written content : List Char} (h : Spells written content) {c : Char} (hquote : c ≠ '"')
      (hslash : c ≠ '\\') : Spells (written ++ [c]) (content ++ [c])
  | escaped {written content : List Char} (h : Spells written content) (c : Char) :
      Spells (written ++ ['\\', c]) (content ++ Text.decoded c)

/-- A row of characters that the scanner takes as one word. -/
structure Text.IsWord (word : List Char) : Prop where
  ne_nil : word ≠ []
  isDelimiter : ∀ c ∈ word, Text.isDelimiter c = false

/-- How a token is written. -/
inductive TokenKind.Written : TokenKind → List Char → Prop
  | leftParen : Written .leftParen ['(']
  | rightParen : Written .rightParen [')']
  | quote : Written .quote ['\'']
  | word {kind : TokenKind} {word : List Char} (hword : Text.IsWord word)
      (hkind : Word.classify word = .ok kind) : Written kind word
  | string {written content : List Char} (h : Text.Spells written content) :
      Written (.atom (.string (String.ofList content))) ('"' :: (written ++ ['"']))

/-- A lexeme that is none, for the reason given, with what stands behind it: a word that denotes
nothing, or a string that the end of the text leaves open. -/
inductive ReadFault.Written : ReadFault → List Char → List Char → Prop
  | word {fault : ReadFault} {word behind : List Char} (hword : Text.IsWord word)
      (hbehind : ∀ c ∈ behind.head?, Text.isDelimiter c = true)
      (hfault : Word.classify word = .error fault) : Written fault word behind
  | string {written content : List Char} (h : Text.Spells written content) :
      Written .unterminatedString ('"' :: written) []
  | escape {written content : List Char} (h : Text.Spells written content) :
      Written .unterminatedString ('"' :: (written ++ ['\\'])) []

/-- The token stands where it is written. -/
def Token.Stands (text : List Char) (t : Token) : Prop :=
  ∃ before written, t.kind.Written written ∧ Text.Stands text before written t.position

/-- The error stands where a faulty lexeme begins. -/
def ReadError.Stands (text : List Char) (e : ReadError) : Prop :=
  ∃ before written behind, e.fault.Written written behind ∧ text = before ++ written ++ behind ∧
    e.position = Position.start.after before

theorem Token.Stands.append {text : List Char} {t : Token} (h : t.Stands text) (more : List Char) :
    t.Stands (text ++ more) := by
  obtain ⟨before, written, hkind, hstands⟩ := h
  exact ⟨before, written, hkind, hstands.append more⟩

/-- A lexeme at the end of the text so far. -/
theorem Token.stands_last {kind : TokenKind} {written : List Char} (h : kind.Written written)
    (before : List Char) :
    Token.Stands (before ++ written) ⟨kind, Position.start.after before⟩ :=
  ⟨before, written, h, ⟨[], by simp⟩, rfl⟩

/-! ## Scans -/

namespace Scan

variable {s s' : Scan} {c : Char}

theorem position_of_step (h : s.step c = .ok s') : s'.position = s.position.next c := by
  unfold step at h
  cases haccept : s.accept c with
  | ok s₁ =>
    rw [haccept] at h
    cases h
    rfl
  | error e =>
    rw [haccept] at h
    cases h

/-- Whatever the scanner is inside of, it counts. -/
theorem position_of_foldlM {cs : List Char} (h : cs.foldlM step s = .ok s') :
    s'.position = s.position.after cs := by
  induction cs generalizing s with
  | nil =>
    cases h
    rfl
  | cons c cs ih =>
    rw [List.foldlM_cons] at h
    cases hstep : s.step c with
    | error e =>
      rw [hstep] at h
      cases h
    | ok s₁ =>
      rw [hstep] at h
      rw [ih h, position_of_step hstep]
      rfl

end Scan

/-- What has been written of the lexeme that is under way. -/
def ScanMode.Follows (text : List Char) : ScanMode → Prop
  | .gap | .comment => True
  | .word start read =>
    Text.IsWord read.reverse ∧
      ∃ before, text = before ++ read.reverse ∧ start = Position.start.after before
  | .string start read =>
    ∃ before written, Text.Spells written read.reverse ∧ text = before ++ '"' :: written ∧
      start = Position.start.after before
  | .escape start read =>
    ∃ before written, Text.Spells written read.reverse ∧
      text = before ++ '"' :: (written ++ ['\\']) ∧ start = Position.start.after before

namespace Scan

variable {text : List Char} {s s' : Scan} {c : Char} {e : ReadError}

/-- What holds of a scanner that has read `text`, apart from its position. -/
structure Follows (text : List Char) (s : Scan) : Prop where
  tokens : ∀ t ∈ s.tokens, t.Stands text
  mode : s.mode.Follows text

theorem Follows.tokens_append (h : s.Follows text) (more : List Char) :
    ∀ t ∈ s.tokens, t.Stands (text ++ more) :=
  fun t ht => (h.tokens t ht).append more

theorem follows_emit (h : ∀ t ∈ s.tokens, t.Stands text) {start : Position} {kind : TokenKind}
    (hkind : Token.Stands text ⟨kind, start⟩) : (s.emit start kind).Follows text :=
  ⟨List.forall_mem_cons.2 ⟨hkind, h⟩, trivial⟩

/-- A word is complete at the end of the text, or at a delimiter. -/
theorem Follows.endWord (h : s.Follows text) {start : Position} {read : List Char}
    (hmode : s.mode = .word start read) (hend : s.endWord start read = .ok s') :
    s'.Follows text ∧ s'.position = s.position := by
  have hword := h.mode
  rw [hmode] at hword
  obtain ⟨hword, before, rfl, rfl⟩ := hword
  unfold Scan.endWord at hend
  split at hend
  · next kind hkind =>
    cases hend
    exact ⟨follows_emit h.tokens (Token.stands_last (.word hword hkind) before), rfl⟩
  · cases hend

theorem Follows.endWord_error (h : s.Follows text) {start : Position} {read behind : List Char}
    (hmode : s.mode = .word start read) (hbehind : ∀ c ∈ behind.head?, Text.isDelimiter c = true)
    (hend : s.endWord start read = .error e) : e.Stands (text ++ behind) := by
  have hword := h.mode
  rw [hmode] at hword
  obtain ⟨hword, before, rfl, rfl⟩ := hword
  unfold Scan.endWord at hend
  split at hend
  · cases hend
  · next fault hfault =>
    cases hend
    exact ⟨before, read.reverse, behind, .word hword hbehind hfault, rfl, rfl⟩

/-- A character that is read where nothing is under way. -/
theorem follows_enter (htokens : ∀ t ∈ s.tokens, t.Stands text)
    (hposition : s.position = Position.start.after text) (c : Char) :
    (s.enter c).Follows (text ++ [c]) := by
  have htokens' : ∀ t ∈ s.tokens, t.Stands (text ++ [c]) := fun t ht => (htokens t ht).append [c]
  have hsingle : ∀ kind : TokenKind, kind.Written [c] →
      (s.emit s.position kind).Follows (text ++ [c]) := by
    intro kind hkind
    rw [hposition]
    exact follows_emit htokens' (Token.stands_last hkind text)
  by_cases hc : Text.isDelimiter c = false
  · rw [enter_of_not_delimiter hc]
    exact ⟨htokens', ⟨by simp, by simpa using hc⟩, text, rfl, hposition⟩
  · unfold Scan.enter
    split_ifs with hblank hcomment hopen hclose hquote hstring
    · exact ⟨htokens', trivial⟩
    · exact ⟨htokens', trivial⟩
    · exact hsingle _ (hopen ▸ .leftParen)
    · exact hsingle _ (hclose ▸ .rightParen)
    · exact hsingle _ (hquote ▸ .quote)
    · exact ⟨htokens', text, [], .nil, by rw [hstring], hposition⟩
    · simp [Text.isDelimiter, hblank, hcomment, hopen, hclose, hquote, hstring] at hc

theorem Follows.accept (h : s.Follows text) (hposition : s.position = Position.start.after text)
    (haccept : s.accept c = .ok s') : s'.Follows (text ++ [c]) := by
  have htokens := h.tokens_append [c]
  have hmode := h.mode
  unfold Scan.accept at haccept
  split at haccept
  · cases haccept
    exact follows_enter h.tokens hposition c
  · next hcomment =>
    cases haccept
    split
    · exact ⟨htokens, trivial⟩
    · exact ⟨htokens, by rw [hcomment]; trivial⟩
  · next start read hword =>
    split at haccept
    · cases hend : s.endWord start read with
      | error e =>
        rw [hend] at haccept
        cases haccept
      | ok t =>
        rw [hend] at haccept
        cases haccept
        obtain ⟨ht, hsame⟩ := h.endWord hword hend
        exact follows_enter ht.tokens (hsame.trans hposition) c
    · next hc =>
      cases haccept
      rw [hword] at hmode
      obtain ⟨⟨-, hread⟩, before, rfl, rfl⟩ := hmode
      refine ⟨htokens, ⟨by simp, ?_⟩, before, by simp, rfl⟩
      simpa [or_imp, forall_and, and_comm] using And.intro hread hc
  · next start read hstring =>
    rw [hstring] at hmode
    obtain ⟨before, written, hspells, rfl, rfl⟩ := hmode
    split_ifs at haccept with hquote hslash
    · cases haccept
      refine follows_emit htokens ?_
      have hstands := Token.stands_last (.string hspells) before
      simpa [hquote] using hstands
    · cases haccept
      exact ⟨htokens, before, written, hspells, by simp [hslash], rfl⟩
    · cases haccept
      refine ⟨htokens, before, written ++ [c], ?_, by simp, rfl⟩
      simpa using hspells.plain hquote hslash
  · next start read hescape =>
    rw [hescape] at hmode
    obtain ⟨before, written, hspells, rfl, rfl⟩ := hmode
    cases haccept
    refine ⟨htokens, before, written ++ ['\\', c], ?_, by simp, rfl⟩
    simpa using hspells.escaped c

/-- The one way in which a character cannot be read: it ends a word that denotes nothing. -/
theorem Follows.accept_error (h : s.Follows text) (haccept : s.accept c = .error e)
    (more : List Char) : e.Stands (text ++ c :: more) := by
  unfold Scan.accept at haccept
  split at haccept
  · cases haccept
  · cases haccept
  · next start read hword =>
    split at haccept
    · next hc =>
      cases hend : s.endWord start read with
      | ok t =>
        rw [hend] at haccept
        cases haccept
      | error e' =>
        rw [hend] at haccept
        cases haccept
        exact h.endWord_error hword (by simpa using hc) hend
    · cases haccept
  · split_ifs at haccept
  · cases haccept

theorem Follows.step (h : s.Follows text) (hposition : s.position = Position.start.after text)
    (hstep : s.step c = .ok s') :
    s'.Follows (text ++ [c]) ∧ s'.position = Position.start.after (text ++ [c]) := by
  have hnext := position_of_step hstep
  rw [hposition, ← Position.after_concat] at hnext
  unfold Scan.step at hstep
  cases haccept : s.accept c with
  | error e =>
    rw [haccept] at hstep
    cases hstep
  | ok t =>
    rw [haccept] at hstep
    cases hstep
    have ht := h.accept hposition haccept
    exact ⟨⟨ht.tokens, ht.mode⟩, hnext⟩

theorem Follows.foldlM (h : s.Follows text) (hposition : s.position = Position.start.after text)
    {cs : List Char} (hfold : cs.foldlM Scan.step s = .ok s') : s'.Follows (text ++ cs) := by
  induction cs generalizing s text with
  | nil =>
    cases hfold
    rwa [List.append_nil]
  | cons c cs ih =>
    rw [List.foldlM_cons] at hfold
    cases hstep : s.step c with
    | error e =>
      rw [hstep] at hfold
      cases hfold
    | ok t =>
      rw [hstep] at hfold
      obtain ⟨ht, hposition'⟩ := h.step hposition hstep
      simpa using ih ht hposition' hfold

theorem Follows.foldlM_error (h : s.Follows text)
    (hposition : s.position = Position.start.after text) {cs : List Char}
    (hfold : cs.foldlM Scan.step s = .error e) : e.Stands (text ++ cs) := by
  induction cs generalizing s text with
  | nil => cases hfold
  | cons c cs ih =>
    rw [List.foldlM_cons] at hfold
    cases hstep : s.step c with
    | error e' =>
      rw [hstep] at hfold
      cases hfold
      unfold Scan.step at hstep
      cases haccept : s.accept c with
      | ok t =>
        rw [haccept] at hstep
        cases hstep
      | error e' =>
        rw [haccept] at hstep
        cases hstep
        exact h.accept_error haccept cs
    | ok t =>
      rw [hstep] at hfold
      obtain ⟨ht, hposition'⟩ := h.step hposition hstep
      simpa using ih ht hposition' hfold

theorem Follows.finish (h : s.Follows text) {tokens : List Token} (hfinish : s.finish = .ok tokens) :
    ∀ t ∈ tokens, t.Stands text := by
  unfold Scan.finish at hfinish
  split at hfinish
  · cases hfinish
    simpa using h.tokens
  · cases hfinish
    simpa using h.tokens
  · next start read hmode =>
    cases hend : s.endWord start read with
    | error e =>
      rw [hend] at hfinish
      cases hfinish
    | ok t =>
      rw [hend] at hfinish
      cases hfinish
      simpa using (h.endWord hmode hend).1.tokens
  · cases hfinish
  · cases hfinish

theorem Follows.finish_error (h : s.Follows text) (hfinish : s.finish = .error e) :
    e.Stands text := by
  have hmode := h.mode
  unfold Scan.finish at hfinish
  split at hfinish
  · cases hfinish
  · cases hfinish
  · next start read hword =>
    cases hend : s.endWord start read with
    | ok t =>
      rw [hend] at hfinish
      cases hfinish
    | error e' =>
      rw [hend] at hfinish
      cases hfinish
      have hbehind : ∀ c ∈ ([] : List Char).head?, Text.isDelimiter c = true := by simp
      have hstands := h.endWord_error hword hbehind hend
      rwa [List.append_nil] at hstands
  · next start read hstring =>
    rw [hstring] at hmode
    obtain ⟨before, written, hspells, rfl, rfl⟩ := hmode
    cases hfinish
    exact ⟨before, _, [], .string hspells, by simp, rfl⟩
  · next start read hescape =>
    rw [hescape] at hmode
    obtain ⟨before, written, hspells, rfl, rfl⟩ := hmode
    cases hfinish
    exact ⟨before, _, [], .escape hspells, by simp, rfl⟩

theorem follows_start : Follows [] {} := ⟨by simp, trivial⟩

end Scan

/-! ## Texts -/

/-- Every token of a text stands where it is written. -/
theorem tokenize_stands {text : String} {tokens : List Token} (h : tokenize text = .ok tokens) :
    ∀ t ∈ tokens, t.Stands text.toList := by
  unfold tokenize at h
  cases hfold : text.toList.foldlM Scan.step {} with
  | error e =>
    rw [hfold] at h
    cases h
  | ok s =>
    rw [hfold] at h
    exact (Scan.follows_start.foldlM rfl hfold).finish h

/-- A text that cannot be scanned is reported where the lexeme begins that is none. -/
theorem tokenize_error_stands {text : String} {e : ReadError} (h : tokenize text = .error e) :
    e.Stands text.toList := by
  unfold tokenize at h
  cases hfold : text.toList.foldlM Scan.step {} with
  | error e' =>
    rw [hfold] at h
    cases h
    exact Scan.follows_start.foldlM_error rfl hfold
  | ok s =>
    rw [hfold] at h
    exact (Scan.follows_start.foldlM rfl hfold).finish_error h

end Lisplet
