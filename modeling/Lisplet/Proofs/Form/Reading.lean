/-
# Lisplet.Proofs.Form.Reading -- reading tokens without their positions

Forgetting positions is a way of moving them, so reading commutes with it.  What a row of tokens reads
as, positions aside, is therefore decided by the kinds of the tokens, and questions about the shape of
forms can be asked of tokens that all stand at one place.

The second half asks the first such question: the kinds of tokens in the written form of a tree are
read as that tree.
-/

import Mathlib.Tactic
import Lisplet.Form.Reader
import Lisplet.Proofs.Form.Moving
import Lisplet.Proofs.Token.Scanning

namespace Lisplet

/-! ## Forgetting positions -/

/-- The same tree with every node at the start of the text. -/
def Form.unplaced : Form → Form
  | .atom _ a => .atom .start a
  | .empty _ => .empty .start
  | .single _ car => .single .start car.unplaced
  | .pair _ car cdr => .pair .start car.unplaced cdr.unplaced

/-- A token at the start of the text. -/
def TokenKind.unplaced (kind : TokenKind) : Token := ⟨kind, .start⟩

def ReadError.unplaced (e : ReadError) : ReadError := ⟨e.fault, .start⟩

def Reading.unplaced (r : Reading) : Reading :=
  ⟨r.forms.map Form.unplaced, r.error.map ReadError.unplaced⟩

/-- Forgetting positions moves everything to the start of the text. -/
theorem Form.moved_start : Form.moved (fun _ => .start) = Form.unplaced := by
  funext f
  induction f with
  | atom | empty => rfl
  | single p car ih => simp [moved, unplaced, ih]
  | pair p car cdr ihcar ihcdr => simp [moved, unplaced, ihcar, ihcdr]

@[simp] theorem Form.position_unplaced (f : Form) : f.unplaced.position = .start := by
  cases f <;> rfl

/-- Reading the kinds of tokens is reading the tokens and then forgetting the positions. -/
theorem Reading.resume_unplaced (tokens : List Token) :
    Reading.resume {} ((kindsOf tokens).map TokenKind.unplaced) =
      (Reading.resume {} tokens).unplaced := by
  have hkinds : (kindsOf tokens).map TokenKind.unplaced =
      tokens.map (Token.moved fun _ => .start) := by
    simp [kindsOf, TokenKind.unplaced, Token.moved]
  rw [hkinds]
  show Reading.resume (Reader.moved (fun _ => .start) {}) _ = _
  rw [Reading.resume_moved, Reading.moved, Form.moved_start]
  rfl

/-! ## The tokens of a written tree -/

mutual

/-- The kinds of tokens in the written form of a tree. -/
def Form.kinds : Form → List TokenKind
  | .atom _ a => [.atom a]
  | .empty _ => [.leftParen, .rightParen]
  | .single _ car => .leftParen :: (Form.kinds car ++ [.rightParen])
  | .pair _ car cdr => .leftParen :: (Form.kinds car ++ (Form.restKinds cdr ++ [.rightParen]))

/-- The kinds of tokens in the written form of the rest of a list. -/
def Form.restKinds : Form → List TokenKind
  | .atom _ a => [.dot, .atom a]
  | .empty _ => []
  | .single _ car => Form.kinds car
  | .pair _ car cdr => Form.kinds car ++ Form.restKinds cdr

end

namespace Form

/-- The trees whose written form reads back: every atom does, and no rest is the empty list. -/
inductive Readable : Form → Prop
  | atom {p : Position} {a : Atom} (h : a.Readable) : Readable (.atom p a)
  | empty {p : Position} : Readable (.empty p)
  | single {p : Position} {car : Form} (h : Readable car) : Readable (.single p car)
  | pair {p : Position} {car cdr : Form} (h : Readable car) (h' : Readable cdr)
      (rest : ∀ q, cdr ≠ .empty q) : Readable (.pair p car cdr)

theorem toList_text_single (p : Position) (car : Form) :
    (text (.single p car)).toList = '(' :: (car.text.toList ++ [')']) := by
  simp [text]

theorem toList_text_pair (p : Position) (car cdr : Form) :
    (text (.pair p car cdr)).toList = '(' :: (car.text.toList ++ (cdr.restText.toList ++ [')'])) := by
  simp [text]

/-- A written tree is scanned as its tokens, and what is written for a rest continues the list that it
is the rest of. -/
theorem reads_text {f : Form} (h : f.Readable) :
    Scan.Reads f.text.toList f.kinds ∧ Scan.Continues f.restText.toList f.restKinds := by
  have hend : Scan.Continues [')'] [.rightParen] :=
    Scan.continues_rightParen Scan.continues_nil.reads
  have hblank : Text.isBlank ' ' = true := by decide
  induction h with
  | @atom p a h =>
    have hdot : Scan.Reads ['.'] [.dot] :=
      Scan.reads_word (by decide) (Scan.not_delimiter_of_all rfl) rfl
    have hrest : (restText (.atom p a)).toList = ' ' :: (['.'] ++ ' ' :: a.text.toList) := by
      simp [restText]
    refine ⟨Atom.reads_text h, ?_⟩
    rw [hrest]
    exact Scan.continues_blank hblank (hdot.append (Scan.continues_blank hblank (Atom.reads_text h)))
  | @empty p =>
    have hempty : (text (.empty p)).toList = ['(', ')'] := by simp [text]
    have hrest : (restText (.empty p)).toList = [] := by simp [restText]
    rw [hempty, hrest]
    exact ⟨(Scan.continues_leftParen hend.reads).reads, Scan.continues_nil⟩
  | @single p car h ih =>
    have hrest : (restText (.single p car)).toList = ' ' :: car.text.toList := by simp [restText]
    rw [toList_text_single, hrest]
    exact ⟨(Scan.continues_leftParen (ih.1.append hend)).reads, Scan.continues_blank hblank ih.1⟩
  | @pair p car cdr h h' rest ih ih' =>
    have hrest : (restText (.pair p car cdr)).toList =
        ' ' :: (car.text.toList ++ cdr.restText.toList) := by
      simp [restText]
    rw [toList_text_pair, hrest]
    exact ⟨(Scan.continues_leftParen (ih.1.append (ih'.2.append hend))).reads,
      Scan.continues_blank hblank (ih.1.append ih'.2)⟩

/-- A written tree is scanned as its tokens. -/
theorem tokenize_text {f : Form} (h : f.Readable) :
    ∃ tokens, tokenize f.text = .ok tokens ∧ kindsOf tokens = f.kinds := by
  obtain ⟨s, hfold, hs⟩ := (reads_text h).1 {} [] ⟨rfl, rfl⟩
  obtain ⟨tokens, hfinish, hkinds⟩ := hs.finish
  exact ⟨tokens, by simp [tokenize, hfold, hfinish, bind, Except.bind], hkinds⟩

/-! ## Building a tree from its tokens -/

theorem cons_of_ne_empty (p : Position) (car : Form) {cdr : Form} (h : ∀ q, cdr ≠ .empty q) :
    cons p car (some cdr) = .pair p car cdr := by
  match cdr with
  | .empty q => exact absurd rfl (h q)
  | .atom _ _ | .single _ _ | .pair _ _ _ => rfl

theorem unplaced_ne_empty {f : Form} (h : ∀ q, f ≠ .empty q) : ∀ q, f.unplaced ≠ .empty q := by
  match f with
  | .empty q => exact absurd rfl (h q)
  | .atom _ _ | .single _ _ | .pair _ _ _ => intro q hq; cases hq

/-- The newest element of a list can be counted to its rest. -/
theorem ofItems_cons (p : Position) (f : Form) (items : List Form) (tail : Option Form) :
    ofItems p (f :: items) tail = ofItems p items (some (cons f.position f tail)) := rfl

end Form

namespace Reading

/-- The row of tokens of the given kinds, all at the start of the text. -/
def row (ks : List TokenKind) : List Token := ks.map TokenKind.unplaced

theorem row_append (ks ls : List TokenKind) : row (ks ++ ls) = row ks ++ row ls := List.map_append

variable {rest : List Token}

theorem resume_dotted (item : Form) (items : List Form) (stack : List Pending) (forms : List Form)
    (a : Atom) :
    Reading.resume ⟨.list .start (item :: items) :: stack, forms⟩
        (row [.dot, .atom a, .rightParen] ++ rest) =
      Reading.resume
        (Reader.deliver forms stack (.ofItems .start (item :: items) (some (.atom .start a)))) rest :=
  rfl

/-- The tokens of a tree are read as that tree wherever a form can stand, and behind an element the
tokens of a rest, with the end of the list, complete the list. -/
theorem resume_kinds {f : Form} (h : f.Readable) :
    (∀ (r : Reader) (rest : List Token), r.Open →
      Reading.resume r (row f.kinds ++ rest) =
        Reading.resume (Reader.deliver r.forms r.pending f.unplaced) rest) ∧
    (∀ (item : Form) (items : List Form) (stack : List Pending) (forms : List Form)
        (rest : List Token), (∀ q, f ≠ .empty q) →
      Reading.resume ⟨.list .start (item :: items) :: stack, forms⟩
          (row (f.restKinds ++ [.rightParen]) ++ rest) =
        Reading.resume (Reader.deliver forms stack (.ofItems .start (item :: items) (some f.unplaced)))
          rest) := by
  -- a tree can be an element of the list around it or the rest of one, so both are carried along
  induction h with
  | @atom p a h =>
    refine ⟨fun r rest hr => ?_, fun item items stack forms rest hne => ?_⟩
    · exact resume_of_step (Reader.step_atom hr .start a) rest
    · exact resume_dotted item items stack forms a
  | @empty p =>
    refine ⟨fun r rest hr => ?_, fun item items stack forms rest hne => absurd rfl (hne p)⟩
    exact resume_of_step (Reader.step_leftParen hr .start) _
  | @single p car h ih =>
    refine ⟨fun r rest hr => ?_, fun item items stack forms rest hne => ?_⟩
    · have hkinds : row (Form.kinds (.single p car)) ++ rest =
          ⟨.leftParen, .start⟩ :: (row car.kinds ++ (⟨.rightParen, .start⟩ :: rest)) := by
        simp [row, Form.kinds, TokenKind.unplaced]
      rw [hkinds, resume_of_step (Reader.step_leftParen hr .start), ih.1 _ _ (Reader.open_list _ _ _ _)]
      exact resume_of_step (Reader.step_rightParen _ _ _ _ _) rest
    · rw [Form.restKinds, row_append, List.append_assoc, ih.1 _ _ (Reader.open_list _ _ _ _)]
      show Reading.resume ⟨.list .start (car.unplaced :: item :: items) :: stack, forms⟩
        (⟨.rightParen, .start⟩ :: rest) = _
      rw [resume_of_step (Reader.step_rightParen _ _ _ _ _), Form.ofItems_cons, Form.position_unplaced]
      rfl
  | @pair p car cdr h h' hrest ih ih' =>
    refine ⟨fun r rest hr => ?_, fun item items stack forms rest hne => ?_⟩
    · have hkinds : row (Form.kinds (.pair p car cdr)) ++ rest =
          ⟨.leftParen, .start⟩ ::
            (row car.kinds ++ (row (cdr.restKinds ++ [.rightParen]) ++ rest)) := by
        simp [row, Form.kinds, TokenKind.unplaced]
      rw [hkinds, resume_of_step (Reader.step_leftParen hr .start), ih.1 _ _ (Reader.open_list _ _ _ _)]
      show Reading.resume ⟨.list .start [car.unplaced] :: r.pending, r.forms⟩ _ = _
      rw [ih'.2 _ _ _ _ _ hrest, Form.ofItems_cons,
        Form.cons_of_ne_empty _ _ (Form.unplaced_ne_empty hrest)]
      rfl
    · rw [Form.restKinds, List.append_assoc, row_append, List.append_assoc,
        ih.1 _ _ (Reader.open_list _ _ _ _)]
      show Reading.resume ⟨.list .start (car.unplaced :: item :: items) :: stack, forms⟩ _ = _
      rw [ih'.2 _ _ _ _ _ hrest, Form.ofItems_cons, Form.position_unplaced,
        Form.cons_of_ne_empty _ _ (Form.unplaced_ne_empty hrest)]
      rfl

/-- A written tree reads back: as one form, which is that tree but for the positions. -/
theorem ofText_text {f : Form} (h : f.Readable) :
    ∃ g, Reading.ofText f.text = ⟨[g], none⟩ ∧ g.unplaced = f.unplaced := by
  obtain ⟨tokens, htokens, hkinds⟩ := f.tokenize_text h
  have hread := Reading.resume_unplaced tokens
  have hopen : Reader.Open {} := fun _ _ _ _ _ h => by cases h
  have hbuilt := (resume_kinds h).1 {} [] hopen
  rw [List.append_nil] at hbuilt
  rw [hkinds] at hread
  -- the tokens of the text are those of the tree, each at its own place
  have hsame : (Reading.resume {} tokens).unplaced = ⟨[f.unplaced], none⟩ := hread.symm.trans hbuilt
  have hreading : Reading.ofText f.text = Reading.resume {} tokens := by
    simp [Reading.ofText, htokens, Reading.ofTokens]
  simp only [Reading.unplaced, Reading.mk.injEq, List.map_eq_singleton_iff,
    Option.map_eq_none_iff] at hsame
  obtain ⟨⟨g, hforms, hg⟩, herror⟩ := hsame
  exact ⟨g, by rw [hreading, ← hforms, ← herror], hg⟩

end Reading

end Lisplet
