/-
# Lisplet.Proofs.Lines -- a text is read line by line

At the end of a line nothing is under way but a string literal.  So where a text can be read, a line
feed behind it leads the scanner back to where it started, save that it stands some rows lower and has
tokens already (`Scan.step_lineFeed`).  Neither makes a difference to how it goes on: the scanner looks
neither at its row nor at its tokens (`Scan.step_lower`), and the reader neither at positions nor at
complete forms.  What follows the line feed is therefore read as if it stood alone, and then moved
down.  Rows are counted in 32 bits, so it is moved down exactly only where the rows of the whole text
fit (`LexemeAt.lowersExactly`).
-/

import Mathlib.Tactic
import Lisplet.Evaluator.Sequence
import Lisplet.Proofs.Form.Grammar
import Lisplet.Proofs.Form.Positions

namespace Lisplet

namespace Position

/-- The position `k` rows further down, as rows are counted. -/
def lower (k : Nat) (p : Position) : Position := ⟨p.row32 + k, p.col32⟩

theorem next_lower (k : Nat) (p : Position) (c : Char) :
    (p.lower k).next c = (p.next c).lower k := by
  unfold next lower
  split
  · rw [UInt32.add_assoc, UInt32.add_comm _ 1, ← UInt32.add_assoc]
  · rfl

end Position

/-- What an outcome becomes `k` rows further down: an error is moved there, a result changed by `f`. -/
def lowered {α β : Type} (k : Nat) (f : α → β) : Except ReadError α → Except ReadError β
  | .ok a => .ok (f a)
  | .error e => .error (e.moved (Position.lower k))

/-! ## Scanning further down -/

def ScanMode.lower (k : Nat) : ScanMode → ScanMode
  | .gap => .gap
  | .comment => .comment
  | .word start read => .word (start.lower k) read
  | .string start read => .string (start.lower k) read
  | .escape start read => .escape (start.lower k) read

namespace Scan

variable (k : Nat) (earlier : List Token)

/-- The same state `k` rows further down, behind earlier tokens, newest first. -/
def lower (s : Scan) : Scan :=
  ⟨s.position.lower k, s.mode.lower k, s.tokens.map (Token.moved (Position.lower k)) ++ earlier⟩

theorem enter_lower (s : Scan) (c : Char) :
    (s.lower k earlier).enter c = (s.enter c).lower k earlier := by
  simp only [enter, apply_ite (lower k earlier)]
  rfl

theorem endWord_lower (s : Scan) (start : Position) (read : List Char) :
    (s.lower k earlier).endWord (start.lower k) read =
      lowered k (lower k earlier) (s.endWord start read) := by
  unfold endWord
  cases Word.classify read.reverse <;> rfl

theorem accept_lower (s : Scan) (c : Char) :
    (s.lower k earlier).accept c = lowered k (lower k earlier) (s.accept c) := by
  have hlower : (s.lower k earlier).mode = s.mode.lower k := rfl
  unfold accept
  rw [hlower]
  cases s.mode with
  | gap => exact congrArg Except.ok (enter_lower k earlier s c)
  | comment =>
    by_cases hc : c = '\n'
    · simp only [hc, if_true]
      rfl
    · simp only [hc, if_false]
      rfl
  | word start read =>
    simp only [ScanMode.lower]
    by_cases hc : Text.isDelimiter c = true
    · rw [if_pos hc, if_pos hc, endWord_lower]
      cases s.endWord start read with
      | ok s' => exact congrArg Except.ok (enter_lower k earlier s' c)
      | error e => rfl
    · rw [if_neg hc, if_neg hc]
      rfl
  | string start read =>
    simp only [ScanMode.lower]
    by_cases hquote : c = '"'
    · rw [if_pos hquote, if_pos hquote]
      rfl
    · by_cases hescape : c = '\\'
      · rw [if_neg hquote, if_neg hquote, if_pos hescape, if_pos hescape]
        rfl
      · rw [if_neg hquote, if_neg hquote, if_neg hescape, if_neg hescape]
        rfl
  | escape start read => rfl

/-- One character is read the same way further down. -/
theorem step_lower (s : Scan) (c : Char) :
    (s.lower k earlier).step c = lowered k (lower k earlier) (s.step c) := by
  have hposition : (s.lower k earlier).position.next c = (s.position.next c).lower k :=
    Position.next_lower k s.position c
  rw [step, step, accept_lower, hposition]
  cases s.accept c <;> rfl

theorem foldlM_lower (s : Scan) (cs : List Char) :
    cs.foldlM step (s.lower k earlier) = lowered k (lower k earlier) (cs.foldlM step s) := by
  induction cs generalizing s with
  | nil => rfl
  | cons c cs ih =>
    rw [List.foldlM_cons, List.foldlM_cons, step_lower]
    cases s.step c with
    | ok s' => exact ih s'
    | error e => rfl

theorem finish_lower (s : Scan) :
    (s.lower k earlier).finish =
      lowered k (fun tokens => earlier.reverse ++ tokens.map (Token.moved (Position.lower k)))
        s.finish := by
  have hlower : (s.lower k earlier).mode = s.mode.lower k := rfl
  have htokens (t : Scan) : (t.lower k earlier).tokens.reverse =
      earlier.reverse ++ t.tokens.reverse.map (Token.moved (Position.lower k)) := by
    simp [lower]
  unfold finish
  rw [hlower]
  cases s.mode with
  | gap | comment => exact congrArg Except.ok (htokens s)
  | word start read =>
    simp only [ScanMode.lower]
    rw [endWord_lower]
    cases s.endWord start read with
    | ok s' => exact congrArg Except.ok (htokens s')
    | error e => rfl
  | string start read | escape start read => rfl

/-! ## The end of a line -/

/-- A line feed behind a text that can be scanned leads to a gap, with the tokens of the text. -/
theorem step_lineFeed {s : Scan} {tokens : List Token} (h : s.finish = .ok tokens) :
    s.step '\n' = .ok ⟨⟨s.position.row32 + 1, 1⟩, .gap, tokens.reverse⟩ := by
  obtain ⟨position, mode, ts⟩ := s
  cases mode with
  | gap | comment =>
    cases h
    rw [List.reverse_reverse]
    rfl
  | word start read =>
    simp only [finish, endWord] at h
    simp only [step, accept, endWord]
    rw [if_pos (by decide)]
    cases hword : Word.classify read.reverse with
    | ok kind =>
      rw [hword] at h
      cases h
      rw [List.reverse_reverse]
      rfl
    | error fault =>
      rw [hword] at h
      cases h
  | string start read | escape start read => cases h

end Scan

/-- The number of line feeds in a text. -/
def lineFeeds (text : String) : Nat := text.toList.count '\n'

/-- A text behind a line feed is scanned as if it stood alone, and moved down. -/
theorem tokenize_lines {a : String} {ts : List Token} (h : tokenize a = .ok ts) (b : String) :
    tokenize (a ++ "\n" ++ b) =
      lowered (lineFeeds a + 1)
        (fun us => ts ++ us.map (Token.moved (Position.lower (lineFeeds a + 1)))) (tokenize b) := by
  unfold tokenize at h
  cases ha : a.toList.foldlM Scan.step {} with
  | error e =>
    rw [ha] at h
    cases h
  | ok s =>
    rw [ha] at h
    -- behind the line feed the scanner is where it started, further down and with the tokens of `a`
    have hrow : s.position.row32 = UInt32.ofNat (lineFeeds a + 1) := by
      rw [Scan.position_of_foldlM ha, Nat.add_comm]
      exact congrArg Position.row32 (Text.after_start a.toList)
    have hline : s.step '\n' = .ok (Scan.lower (lineFeeds a + 1) ts.reverse {}) := by
      rw [Scan.step_lineFeed h, hrow, UInt32.add_comm]
      rfl
    have hb := Scan.foldlM_lower (lineFeeds a + 1) ts.reverse {} b.toList
    have hsplit : (a ++ "\n" ++ b).toList = a.toList ++ '\n' :: b.toList := by simp
    unfold tokenize
    rw [hsplit, List.foldlM_append, ha]
    show ((('\n' :: b.toList).foldlM Scan.step s) >>= Scan.finish) = _
    rw [List.foldlM_cons, hline]
    show ((b.toList.foldlM Scan.step (Scan.lower (lineFeeds a + 1) ts.reverse {})) >>= Scan.finish) = _
    rw [hb]
    cases b.toList.foldlM Scan.step {} with
    | error e => rfl
    | ok t =>
      show (t.lower (lineFeeds a + 1) ts.reverse).finish = _
      rw [Scan.finish_lower, List.reverse_reverse]
      rfl

/-! ## Reading further down -/

/-- Where tokens can be read to their end, the reader goes on with nothing open. -/
theorem Reading.resume_append {r : Reader} {ts : List Token} (h : (Reading.resume r ts).error = none)
    (us : List Token) :
    Reading.resume r (ts ++ us) =
      Reading.resume (Reader.behind (Reading.resume r ts).forms.reverse {}) us := by
  induction ts generalizing r with
  | nil =>
    obtain ⟨pending, forms⟩ := r
    cases pending with
    | nil => simp [Reading.resume, Reader.behind]
    | cons p pending => cases p <;> cases h
  | cons t ts ih =>
    cases hstep : r.step t with
    | ok r' =>
      rw [resume_of_step hstep] at h ⊢
      rw [List.cons_append, resume_of_step hstep]
      exact ih h
    | error e =>
      rw [Reading.resume, hstep] at h
      cases h

theorem Reading.toExcept_eq_ok {r : Reading} {forms : List Form} :
    r.toExcept = .ok forms ↔ r = ⟨forms, none⟩ := by
  obtain ⟨fs, - | e⟩ := r <;> simp [Reading.toExcept]

/-- A text behind a line feed is read as if it stood alone, and moved down. -/
theorem Reading.ofText_lines {a : String} {F : List Form} (h : (Reading.ofText a).toExcept = .ok F)
    (b : String) :
    (Reading.ofText (a ++ "\n" ++ b)).toExcept =
      lowered (lineFeeds a + 1)
        (fun G => F ++ G.map (Form.moved (Position.lower (lineFeeds a + 1))))
        (Reading.ofText b).toExcept := by
  rw [toExcept_eq_ok] at h
  unfold Reading.ofText at h
  cases ha : tokenize a with
  | error e =>
    rw [ha] at h
    cases h
  | ok ts =>
    rw [ha] at h
    replace h : Reading.resume {} ts = ⟨F, none⟩ := h
    rw [Reading.ofText, Reading.ofText, tokenize_lines ha]
    cases tokenize b with
    | error e => rfl
    | ok us =>
      have hmoved := Reading.resume_moved (Position.lower (lineFeeds a + 1)) {} us
      have hread : Reading.resume {} (ts ++ us.map (Token.moved (Position.lower (lineFeeds a + 1)))) =
          ⟨F ++ ((Reading.resume {} us).forms.map (Form.moved (Position.lower (lineFeeds a + 1)))),
            (Reading.resume {} us).error.map (ReadError.moved (Position.lower (lineFeeds a + 1)))⟩ := by
        rw [Reading.resume_append (by rw [h]), h, Reading.resume_append_forms, List.reverse_reverse]
        exact congrArg (fun r : Reading => Reading.mk (F ++ r.forms) r.error) hmoved
      simp only [lowered, Reading.ofTokens, hread]
      unfold Reading.toExcept
      cases (Reading.resume {} us).error <;> rfl

/-! ## Reading into a store -/

theorem Reading.phrases_of_ofText {text : String} {forms : List Form}
    (h : (Reading.ofText text).toExcept = .ok forms) :
    ∃ fs : List Phrase, tokenize text = .ok (Phrase.allTokens fs) ∧ forms = fs.map Phrase.form := by
  rw [toExcept_eq_ok] at h
  have hnone : (Reading.ofText text).error = none := by rw [h]
  obtain ⟨fs, htokens, hforms⟩ := exists_phrases hnone
  rw [h] at hforms
  exact ⟨fs, htokens, hforms⟩

/-- No rest in what is read of a text is the empty list. -/
theorem Reading.folded_ofText {text : String} {forms : List Form}
    (h : (Reading.ofText text).toExcept = .ok forms) : ∀ f ∈ forms, f.Folded := by
  obtain ⟨fs, -, rfl⟩ := phrases_of_ofText h
  intro f hf
  obtain ⟨g, -, rfl⟩ := List.mem_map.1 hf
  exact g.folded_form

/-- Reading `text` as `file` comes to `outcome`, in every state: to values that are its forms, or to its
error, with the store as it was. -/
def Reads (text file : String) : Except ReadError (List Form) → Prop
  | .ok forms => ∀ state, ∃ vs state', readSource text file state = .ok vs state' ∧
      List.Forall₂ (state'.store.Depicts file) vs forms
  | .error e => ∀ state, ∃ state', readSource text file state =
      .error (.raised (.ofReadError e file)) state' ∧ state'.store = state.store

theorem reads_ofText (text file : String) : Reads text file (Reading.ofText text).toExcept := by
  cases h : (Reading.ofText text).toExcept with
  | ok forms =>
    intro state
    have hread := readSource_eq text file state
    rw [h] at hread
    exact ⟨_, _, hread, Store.depicts_ofForms file (Reading.folded_ofText h) state.store⟩
  | error e =>
    intro state
    have hread := readSource_eq text file state
    rw [h] at hread
    exact ⟨_, hread, rfl⟩

end Lisplet
