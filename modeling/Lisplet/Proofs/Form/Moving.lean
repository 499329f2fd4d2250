/-
# Lisplet.Proofs.Form.Moving -- the reader carries positions along

Positions go through the reader untouched and are never looked at.  Moving all tokens of a row by any
map of positions therefore moves what is read from them, forms and error alike, and changes nothing
else (`Reading.resume_moved`).  Forms that are complete are not looked at either: what was read before
a row of tokens is in front of what is read from it (`Reading.resume_append_forms`).
-/

import Mathlib.Tactic
import Lisplet.Form.Reader

namespace Lisplet

variable (φ : Position → Position)

/-! ## Moving -/

/-- The same tree with every position moved by `φ`. -/
def Form.moved : Form → Form
  | .atom p a => .atom (φ p) a
  | .empty p => .empty (φ p)
  | .single p car => .single (φ p) car.moved
  | .pair p car cdr => .pair (φ p) car.moved cdr.moved

def Token.moved (t : Token) : Token := ⟨t.kind, φ t.position⟩

def ReadError.moved (e : ReadError) : ReadError := ⟨e.fault, φ e.position⟩

def Pending.moved : Pending → Pending
  | .quote p => .quote (φ p)
  | .list opening items => .list (φ opening) (items.map (Form.moved φ))
  | .dotted opening dot items tail =>
    .dotted (φ opening) (φ dot) (items.map (Form.moved φ)) (tail.map (Form.moved φ))

def Reader.moved (r : Reader) : Reader :=
  ⟨r.pending.map (Pending.moved φ), r.forms.map (Form.moved φ)⟩

def Reading.moved (r : Reading) : Reading :=
  ⟨r.forms.map (Form.moved φ), r.error.map (ReadError.moved φ)⟩

namespace Form

@[simp] theorem position_moved (f : Form) : (f.moved φ).position = φ f.position := by
  cases f <;> rfl

@[simp] theorem moved_moveTo (p : Position) (f : Form) :
    (f.moveTo p).moved φ = (f.moved φ).moveTo (φ p) := by
  cases f <;> rfl

theorem moved_cons (p : Position) (car : Form) (cdr : Option Form) :
    (cons p car cdr).moved φ = cons (φ p) (car.moved φ) (cdr.map (moved φ)) := by
  match cdr with
  | none | some (.atom _ _) | some (.empty _) | some (.single _ _) | some (.pair _ _ _) => rfl

/-- The pairs that a list adds in front of its rest, from its elements, newest first. -/
def chain (items : List Form) (tail : Option Form) : Option Form :=
  items.foldl (fun rest f => some (cons f.position f rest)) tail

theorem chain_cons (f : Form) (items : List Form) (tail : Option Form) :
    chain (f :: items) tail = chain items (some (cons f.position f tail)) := rfl

theorem moved_chain (items : List Form) (tail : Option Form) :
    (chain items tail).map (moved φ) = chain (items.map (moved φ)) (tail.map (moved φ)) := by
  induction items generalizing tail with
  | nil => rfl
  | cons f items ih =>
    rw [chain_cons, ih, List.map_cons, chain_cons, Option.map_some, moved_cons, position_moved]

theorem ofItems_eq (p : Position) (items : List Form) (tail : Option Form) :
    ofItems p items tail = ((chain items tail).map (moveTo p)).getD (.empty p) := by
  unfold ofItems chain
  split <;> simp_all

theorem moved_ofItems (p : Position) (items : List Form) (tail : Option Form) :
    (ofItems p items tail).moved φ =
      ofItems (φ p) (items.map (moved φ)) (tail.map (moved φ)) := by
  rw [ofItems_eq, ofItems_eq, ← moved_chain]
  cases chain items tail with
  | none => rfl
  | some f => simp

end Form

namespace Reader

@[simp] theorem moved_mk (pending : List Pending) (forms : List Form) :
    moved φ ⟨pending, forms⟩ = ⟨pending.map (Pending.moved φ), forms.map (Form.moved φ)⟩ := rfl

theorem forms_moved (r : Reader) : (r.moved φ).forms = r.forms.map (Form.moved φ) := rfl

theorem moved_deliver (forms : List Form) (pending : List Pending) (f : Form) :
    (deliver forms pending f).moved φ =
      deliver (forms.map (Form.moved φ)) (pending.map (Pending.moved φ)) (f.moved φ) := by
  induction pending generalizing f with
  | nil => rfl
  | cons p pending ih =>
    cases p with
    | quote p => exact ih _
    | list opening items => rfl
    | dotted opening dot items tail => rfl

/-- One token is read the same way wherever it stands. -/
theorem step_moved (r : Reader) (t : Token) :
    (r.moved φ).step (t.moved φ) =
      match r.step t with
      | .ok r' => .ok (r'.moved φ)
      | .error e => .error (e.moved φ) := by
  obtain ⟨pending, forms⟩ := r
  obtain ⟨kind, position⟩ := t
  -- `step` tells apart what a list holds before its dot, and whether a form follows the dot
  rcases pending with - | ⟨p | ⟨opening, - | items⟩ | ⟨opening, dot, items, - | tail⟩, rest⟩ <;>
    cases kind <;>
      simp [step, Form.moved, Pending.moved, Token.moved, ReadError.moved, moved_deliver,
        Form.moved_ofItems]

theorem unfinished?_moved (r : Reader) :
    (r.moved φ).unfinished? = r.unfinished?.map (ReadError.moved φ) := by
  obtain ⟨- | ⟨p | ⟨opening, items⟩ | ⟨opening, dot, items, tail⟩, rest⟩, forms⟩ := r <;> rfl

end Reader

/-- Reading moved tokens is reading the tokens and then moving what was read. -/
theorem Reading.resume_moved (r : Reader) (tokens : List Token) :
    Reading.resume (r.moved φ) (tokens.map (Token.moved φ)) =
      (Reading.resume r tokens).moved φ := by
  induction tokens generalizing r with
  | nil =>
    show Reading.mk (r.moved φ).forms.reverse (r.moved φ).unfinished? = _
    rw [Reader.unfinished?_moved, Reader.forms_moved, ← List.map_reverse]
    rfl
  | cons t tokens ih =>
    have hstep := r.step_moved φ t
    simp only [List.map_cons, Reading.resume] at ih ⊢
    cases h : r.step t with
    | ok r' =>
      simp only [h] at hstep
      simp only [hstep, ih]
    | error e =>
      simp only [h] at hstep
      simp only [hstep, Reader.forms_moved, ← List.map_reverse]
      rfl

/-! ## Forms that are complete -/

namespace Reader

/-- The same reader behind earlier forms, newest first. -/
def behind (earlier : List Form) (r : Reader) : Reader := { r with forms := r.forms ++ earlier }

theorem behind_deliver (earlier forms : List Form) (pending : List Pending) (f : Form) :
    (deliver forms pending f).behind earlier = deliver (forms ++ earlier) pending f := by
  induction pending generalizing f with
  | nil => rfl
  | cons p pending ih =>
    cases p with
    | quote p => exact ih _
    | list opening items => rfl
    | dotted opening dot items tail => rfl

theorem step_behind (earlier : List Form) (r : Reader) (t : Token) :
    (r.behind earlier).step t = (r.step t).map (behind earlier) := by
  obtain ⟨pending, forms⟩ := r
  obtain ⟨kind, position⟩ := t
  rcases pending with - | ⟨p | ⟨opening, - | items⟩ | ⟨opening, dot, items, - | tail⟩, rest⟩ <;>
    cases kind <;> simp [step, behind, Except.map, ← behind_deliver]

end Reader

/-- Earlier forms stay in front of what is read. -/
theorem Reading.resume_append_forms (earlier : List Form) (r : Reader) (tokens : List Token) :
    Reading.resume (r.behind earlier) tokens =
      ⟨earlier.reverse ++ (Reading.resume r tokens).forms, (Reading.resume r tokens).error⟩ := by
  induction tokens generalizing r with
  | nil => simp [Reading.resume, Reader.behind, Reader.unfinished?]
  | cons t tokens ih =>
    rw [Reading.resume, Reading.resume, Reader.step_behind]
    cases r.step t with
    | ok r' => exact ih r'
    | error e => simp [Except.map, Reader.behind]

/-! ## Readers that can take one more form -/

/-- The reader can take one more form: none has followed the dot of its innermost list. -/
def Reader.Open (r : Reader) : Prop :=
  ∀ opening dot items tail rest, r.pending ≠ .dotted opening dot items (some tail) :: rest

namespace Reader

variable {r r' : Reader}

theorem open_top (forms : List Form) : Open ⟨[], forms⟩ := by
  intro _ _ _ _ _ h
  cases h

theorem open_quote (p : Position) (stack : List Pending) (forms : List Form) :
    Open ⟨.quote p :: stack, forms⟩ := by
  intro _ _ _ _ _ h
  cases h

theorem open_list (opening : Position) (items : List Form) (stack : List Pending)
    (forms : List Form) : Open ⟨.list opening items :: stack, forms⟩ := by
  intro _ _ _ _ _ h
  cases h

theorem open_dot (opening dot : Position) (items : List Form) (stack : List Pending)
    (forms : List Form) : Open ⟨.dotted opening dot items none :: stack, forms⟩ := by
  intro _ _ _ _ _ h
  cases h

/-- Only the end of a list can follow the form behind a dot. -/
theorem open_of_step {t : Token} (h : r.step t = .ok r') (ht : t.kind ≠ .rightParen) : r.Open := by
  obtain ⟨kind, p⟩ := t
  obtain ⟨pending, forms⟩ := r
  rintro opening dot items tail rest rfl
  cases kind with
  | rightParen => exact ht rfl
  | leftParen | quote | atom | dot => cases h

theorem step_atom (h : r.Open) (p : Position) (a : Atom) :
    r.step ⟨.atom a, p⟩ = .ok (deliver r.forms r.pending (.atom p a)) := by
  obtain ⟨pending, forms⟩ := r
  rcases pending with - | ⟨q | ⟨opening, items⟩ | ⟨opening, dot, items, - | tail⟩, stack⟩
  case cons.dotted.some => exact absurd rfl (h opening dot items tail stack)
  all_goals rfl

theorem step_quote (h : r.Open) (p : Position) :
    r.step ⟨.quote, p⟩ = .ok ⟨.quote p :: r.pending, r.forms⟩ := by
  obtain ⟨pending, forms⟩ := r
  rcases pending with - | ⟨q | ⟨opening, items⟩ | ⟨opening, dot, items, - | tail⟩, stack⟩
  case cons.dotted.some => exact absurd rfl (h opening dot items tail stack)
  all_goals rfl

theorem step_leftParen (h : r.Open) (p : Position) :
    r.step ⟨.leftParen, p⟩ = .ok ⟨.list p [] :: r.pending, r.forms⟩ := by
  obtain ⟨pending, forms⟩ := r
  rcases pending with - | ⟨q | ⟨opening, items⟩ | ⟨opening, dot, items, - | tail⟩, stack⟩
  case cons.dotted.some => exact absurd rfl (h opening dot items tail stack)
  all_goals rfl

theorem step_rightParen (p q : Position) (items : List Form) (stack : List Pending)
    (forms : List Form) :
    step ⟨.list p items :: stack, forms⟩ ⟨.rightParen, q⟩ =
      .ok (deliver forms stack (.ofItems p items none)) := by
  cases items <;> rfl

end Reader

theorem Reading.resume_of_step {r r' : Reader} {t : Token} (h : r.step t = .ok r')
    (rest : List Token) : Reading.resume r (t :: rest) = Reading.resume r' rest := by
  rw [Reading.resume, h]

end Lisplet
