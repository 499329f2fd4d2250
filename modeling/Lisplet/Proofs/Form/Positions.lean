/-
# Lisplet.Proofs.Form.Positions -- the positions in what is read

The reader makes no positions.  Every node of a form stands where one of the tokens stands that it was
read from, and so does the error that ends a reading (`Reading.resume_within`).  Together with where the
tokens of a text stand, this places all that a text is read as (`Reading.ofText_within`).
-/

import Mathlib.Tactic
import Lisplet.Proofs.Form.Moving
import Lisplet.Proofs.Token.Lexemes

namespace Lisplet

variable {P : Position → Prop}

namespace Form

/-- Every node of the tree stands at a position with `P`. -/
def Within (P : Position → Prop) : Form → Prop
  | .atom p _ | .empty p => P p
  | .single p car => P p ∧ car.Within P
  | .pair p car cdr => P p ∧ car.Within P ∧ cdr.Within P

theorem Within.position {f : Form} (h : f.Within P) : P f.position := by
  cases f with
  | atom p a | empty p => exact h
  | single p car | pair p car cdr => exact h.1

theorem Within.moveTo {f : Form} (h : f.Within P) {p : Position} (hp : P p) :
    (f.moveTo p).Within P := by
  cases f with
  | atom q a | empty q => exact hp
  | single q car | pair q car cdr => exact ⟨hp, h.2⟩

theorem within_cons {p : Position} (hp : P p) {car : Form} (hcar : car.Within P) {cdr : Option Form}
    (hcdr : ∀ f ∈ cdr, f.Within P) : (cons p car cdr).Within P := by
  match cdr with
  | none | some (.empty _) => exact ⟨hp, hcar⟩
  | some (.atom _ _) | some (.single _ _) | some (.pair _ _ _) => exact ⟨hp, hcar, hcdr _ rfl⟩

theorem within_quoting {p : Position} (hp : P p) {f : Form} (hf : f.Within P) :
    (quoting p f).Within P :=
  ⟨hp, hp, hp, hf⟩

theorem within_chain {items : List Form} (hitems : ∀ f ∈ items, f.Within P) {tail : Option Form}
    (htail : ∀ f ∈ tail, f.Within P) : ∀ f ∈ chain items tail, f.Within P := by
  induction items generalizing tail with
  | nil => exact htail
  | cons item items ih =>
    obtain ⟨hitem, hitems⟩ := List.forall_mem_cons.1 hitems
    rw [chain_cons]
    refine ih hitems ?_
    rintro _ ⟨⟩
    exact within_cons hitem.position hitem htail

theorem within_ofItems {p : Position} (hp : P p) {items : List Form}
    (hitems : ∀ f ∈ items, f.Within P) {tail : Option Form} (htail : ∀ f ∈ tail, f.Within P) :
    (ofItems p items tail).Within P := by
  have hchain := within_chain hitems htail
  rw [ofItems_eq]
  cases hc : chain items tail with
  | none => exact hp
  | some f => exact (hchain f hc).moveTo hp

end Form

/-- Every position in what is open has `P`. -/
def Pending.Within (P : Position → Prop) : Pending → Prop
  | .quote p => P p
  | .list opening items => P opening ∧ ∀ f ∈ items, f.Within P
  | .dotted opening dot items tail =>
    P opening ∧ P dot ∧ (∀ f ∈ items, f.Within P) ∧ ∀ f ∈ tail, f.Within P

/-- Every position in the state of a reader has `P`. -/
structure Reader.Within (P : Position → Prop) (r : Reader) : Prop where
  pending : ∀ p ∈ r.pending, p.Within P
  forms : ∀ f ∈ r.forms, f.Within P

/-- Every position in what was read has `P`. -/
structure Reading.Within (P : Position → Prop) (r : Reading) : Prop where
  forms : ∀ f ∈ r.forms, f.Within P
  error : ∀ e ∈ r.error, P e.position

namespace Reader

theorem within_deliver {forms : List Form} (hforms : ∀ f ∈ forms, f.Within P)
    {pending : List Pending} (hpending : ∀ p ∈ pending, p.Within P) {f : Form} (hf : f.Within P) :
    (deliver forms pending f).Within P := by
  induction pending generalizing f with
  | nil => exact ⟨List.forall_mem_nil _, List.forall_mem_cons.2 ⟨hf, hforms⟩⟩
  | cons p pending ih =>
    obtain ⟨hp, hrest⟩ := List.forall_mem_cons.1 hpending
    cases p with
    | quote p => exact ih hrest (Form.within_quoting hp hf)
    | list opening items =>
      have hlist : (Pending.list opening (f :: items)).Within P :=
        ⟨hp.1, List.forall_mem_cons.2 ⟨hf, hp.2⟩⟩
      exact ⟨List.forall_mem_cons.2 ⟨hlist, hrest⟩, hforms⟩
    | dotted opening dot items tail =>
      have hdotted : (Pending.dotted opening dot items (some f)).Within P :=
        ⟨hp.1, hp.2.1, hp.2.2.1, by rintro _ ⟨⟩; exact hf⟩
      exact ⟨List.forall_mem_cons.2 ⟨hdotted, hrest⟩, hforms⟩

theorem Within.push {r : Reader} (h : r.Within P) (p : Pending) (hp : p.Within P)
    {pending : List Pending} (hpending : ∀ q ∈ pending, q.Within P) :
    Within P { r with pending := p :: pending } :=
  ⟨List.forall_mem_cons.2 ⟨hp, hpending⟩, h.forms⟩

/-- What is open is the innermost construct and the others. -/
theorem Within.of_pending {r : Reader} (h : r.Within P) {p : Pending} {rest : List Pending}
    (hpending : r.pending = p :: rest) : p.Within P ∧ ∀ q ∈ rest, q.Within P :=
  List.forall_mem_cons.1 (hpending ▸ h.pending)

theorem Within.step {r r' : Reader} (h : r.Within P) {t : Token} (ht : P t.position)
    (hstep : r.step t = .ok r') : r'.Within P := by
  unfold Reader.step at hstep
  split at hstep
  · next hpending _ =>
    cases hstep
    obtain ⟨⟨hp, -, hitems, htail⟩, hrest⟩ := h.of_pending hpending
    exact within_deliver h.forms hrest (Form.within_ofItems hp hitems htail)
  · cases hstep
  · cases hstep
    exact within_deliver h.forms h.pending ht
  · cases hstep
    exact h.push (.quote t.position) ht h.pending
  · cases hstep
    exact h.push (.list t.position []) ⟨ht, List.forall_mem_nil _⟩ h.pending
  · next hpending _ =>
    cases hstep
    obtain ⟨⟨hp, hitems⟩, hrest⟩ := h.of_pending hpending
    exact within_deliver h.forms hrest (Form.within_ofItems hp hitems (by simp))
  · cases hstep
  · cases hstep
  · cases hstep
  · next opening items rest _ hpending _ =>
    cases hstep
    obtain ⟨⟨hp, hitems⟩, hrest⟩ := h.of_pending hpending
    exact h.push (.dotted opening t.position items none) ⟨hp, ht, hitems, by simp⟩ hrest
  · cases hstep

theorem Within.step_error {r : Reader} (h : r.Within P) {t : Token} (ht : P t.position)
    {e : ReadError} (hstep : r.step t = .error e) : P e.position := by
  unfold Reader.step at hstep
  split at hstep
  -- one fault is reported at the dot of the list, all others at the token
  case h_7 hpending _ =>
    cases hstep
    exact (h.of_pending hpending).1.2.1
  all_goals
    cases hstep
    try exact ht

theorem Within.unfinished? {r : Reader} (h : r.Within P) : ∀ e ∈ r.unfinished?, P e.position := by
  intro e he
  unfold Reader.unfinished? at he
  split at he
  · cases he
  · next hpending =>
    cases he
    exact (h.of_pending hpending).1
  · next hpending =>
    cases he
    exact (h.of_pending hpending).1.1
  · next hpending =>
    cases he
    exact (h.of_pending hpending).1.1

end Reader

/-- Whatever holds of the positions of all tokens holds of all positions in what is read. -/
theorem Reading.resume_within {r : Reader} (h : r.Within P) {tokens : List Token}
    (htokens : ∀ t ∈ tokens, P t.position) : (Reading.resume r tokens).Within P := by
  induction tokens generalizing r with
  | nil => exact ⟨by simpa [Reading.resume] using h.forms, h.unfinished?⟩
  | cons t tokens ih =>
    obtain ⟨ht, htokens⟩ := List.forall_mem_cons.1 htokens
    simp only [Reading.resume] at ih ⊢
    cases hstep : r.step t with
    | ok r' => exact ih (h.step ht hstep) htokens
    | error e =>
      refine ⟨by simpa using h.forms, ?_⟩
      rintro _ ⟨⟩
      exact h.step_error ht hstep

/-! ## Texts -/

/-- The place of a lexeme of a text: of one of its tokens, or of the lexeme for which it cannot be
scanned. -/
inductive LexemeAt (text : String) (p : Position) : Prop
  | token {tokens : List Token} {t : Token} (htokens : tokenize text = .ok tokens) (ht : t ∈ tokens)
      (hp : t.position = p) (hstands : t.Stands text.toList)
  | fault {e : ReadError} (he : tokenize text = .error e) (hp : e.position = p)
      (hstands : e.Stands text.toList)

namespace LexemeAt

variable {text : String} {p : Position}

theorem exists_place (h : LexemeAt text p) : ∃ before, before <+: text.toList ∧ p = Text.place before := by
  cases h with
  | token _ _ hp hstands =>
    obtain ⟨before, written, -, hstands⟩ := hstands
    exact hp ▸ hstands.exists_place
  | fault _ hp hstands =>
    obtain ⟨before, written, behind, -, htext, hposition⟩ := hstands
    refine ⟨before, ?_, by rw [← hp, hposition, Text.after_start]⟩
    rw [htext, List.append_assoc]
    exact List.prefix_append _ _

/-- In a text whose rows fit, rows count from one. -/
theorem one_le_row (h : LexemeAt text p) (hfit : Text.RowsFit text.toList) : 1 ≤ p.row := by
  obtain ⟨before, hbefore, rfl⟩ := h.exists_place
  rw [hfit.row_place hbefore]
  exact Nat.le_add_right _ _

end LexemeAt

/-- The place of a token of a text. -/
def TokenAt (text : String) (p : Position) : Prop :=
  ∃ tokens, tokenize text = .ok tokens ∧ ∃ t ∈ tokens, t.position = p ∧ t.Stands text.toList

theorem TokenAt.lexemeAt {text : String} {p : Position} (h : TokenAt text p) : LexemeAt text p := by
  obtain ⟨tokens, htokens, t, ht, hp, hstands⟩ := h
  exact .token htokens ht hp hstands

/-- Every node of what a text is read as stands at a token of the text. -/
theorem Reading.ofText_forms_within (text : String) :
    ∀ f ∈ (Reading.ofText text).forms, f.Within (TokenAt text) := by
  unfold Reading.ofText
  cases htokens : tokenize text with
  | error e => simp
  | ok tokens =>
    have hall : ∀ t ∈ tokens, TokenAt text t.position := fun t ht =>
      ⟨tokens, htokens, t, ht, rfl, tokenize_stands htokens t ht⟩
    exact (Reading.resume_within ⟨by simp, by simp⟩ hall).forms

/-- Whatever holds of the places of all lexemes of a text holds of all positions in what it is read as. -/
theorem Reading.ofText_within {text : String} (h : ∀ p, LexemeAt text p → P p) :
    (Reading.ofText text).Within P := by
  unfold Reading.ofText
  cases htokens : tokenize text with
  | error e =>
    refine ⟨by simp, ?_⟩
    rintro _ ⟨⟩
    exact h _ (.fault htokens rfl (tokenize_error_stands htokens))
  | ok tokens =>
    have hall : ∀ t ∈ tokens, P t.position := fun t ht =>
      h _ (.token htokens ht rfl (tokenize_stands htokens t ht))
    exact Reading.resume_within ⟨by simp, by simp⟩ hall

/-- A text that cannot be read is reported at one of its lexemes. -/
theorem Reading.ofText_error_lexemeAt {text : String} {e : ReadError}
    (h : (Reading.ofText text).error = some e) : LexemeAt text e.position :=
  (Reading.ofText_within fun _ hp => hp).error e h

end Lisplet
