/-
# Lisplet.Proofs.Form.Grammar -- the reader accepts exactly its grammar

A `Phrase` is a derivation of the grammar

    form ::= atom | ' form | ( ) | ( form+ ) | ( form+ . form )

with the position of each of its tokens.  `Phrase.tokens` is the row of tokens it derives and
`Phrase.form` is what it means: an atom itself, a quote the list of the symbol `quote` and what is
quoted, and a list the chain of its elements in front of its rest, where an empty rest is none.

The reader is a loop over tokens with a stack of what is open, so the two directions are proved apart.
The tokens of a phrase take the reader from any state that can take a form to the state with the form
delivered (`resume_tokens`).  Conversely the reader's state accounts for every token it has taken, as
complete phrases and begun ones (`Reader.Took`), and at the end nothing is begun.  A row of tokens is
derived in one way only, because no phrase begins with a closing parenthesis or a dot.
-/

import Mathlib.Tactic
import Lisplet.Proofs.Form.Moving
import Lisplet.Proofs.Store.Forms

namespace Lisplet

/-! ## Phrases -/

/-- A derivation of a form, with the positions of its tokens. -/
inductive Phrase where
  | atom (position : Position) (a : Atom)
  | quote (position : Position) (quoted : Phrase)
  | empty (opening closing : Position)
  | list (opening : Position) (first : Phrase) (rest : List Phrase) (closing : Position)
  | dotted (opening : Position) (first : Phrase) (rest : List Phrase) (dot : Position) (tail : Phrase)
      (closing : Position)

namespace Phrase

mutual

/-- The tokens of a phrase. -/
def tokens : Phrase → List Token
  | atom p a => [⟨.atom a, p⟩]
  | quote p f => ⟨.quote, p⟩ :: tokens f
  | empty p q => [⟨.leftParen, p⟩, ⟨.rightParen, q⟩]
  | list p f fs q => ⟨.leftParen, p⟩ :: (tokens f ++ (allTokens fs ++ [⟨.rightParen, q⟩]))
  | dotted p f fs d t q =>
    ⟨.leftParen, p⟩ :: (tokens f ++ (allTokens fs ++ (⟨.dot, d⟩ :: (tokens t ++ [⟨.rightParen, q⟩]))))

/-- The tokens of phrases one after the other. -/
def allTokens : List Phrase → List Token
  | [] => []
  | f :: fs => tokens f ++ allTokens fs

end

mutual

/-- What a phrase means.  A list stands at its parenthesis, its later pairs where their elements do. -/
def form : Phrase → Form
  | atom p a => .atom p a
  | quote p f => .pair p (.atom p (.symbol "quote")) (.single p (form f))
  | empty p _ => .empty p
  | list p f fs _ => .cons p (form f) (chain fs none)
  | dotted p f fs _ t _ => .cons p (form f) (chain fs (some (form t)))

/-- The chain of pairs over the elements, in front of a rest. -/
def chain : List Phrase → Option Form → Option Form
  | [], rest => rest
  | f :: fs, rest => some (.cons (form f).position (form f) (chain fs rest))

end

theorem allTokens_eq_flatMap (fs : List Phrase) : allTokens fs = fs.flatMap tokens := by
  induction fs with
  | nil => rfl
  | cons f fs ih => rw [allTokens, ih, List.flatMap_cons]

theorem allTokens_append (fs gs : List Phrase) :
    allTokens (fs ++ gs) = allTokens fs ++ allTokens gs := by
  simp [allTokens_eq_flatMap]

/-! The tokens of a list in front of others are those of its elements up to where the elements stop. -/

theorem tokens_empty (p q : Position) (r : List Token) :
    (empty p q).tokens ++ r = ⟨.leftParen, p⟩ :: (allTokens [] ++ ⟨.rightParen, q⟩ :: r) := by
  simp [tokens, allTokens]

theorem tokens_list (p : Position) (f : Phrase) (fs : List Phrase) (q : Position) (r : List Token) :
    (list p f fs q).tokens ++ r =
      ⟨.leftParen, p⟩ :: (allTokens (f :: fs) ++ ⟨.rightParen, q⟩ :: r) := by
  simp [tokens, allTokens]

theorem tokens_dotted (p : Position) (f : Phrase) (fs : List Phrase) (d : Position) (t : Phrase)
    (q : Position) (r : List Token) :
    (dotted p f fs d t q).tokens ++ r =
      ⟨.leftParen, p⟩ ::
        (allTokens (f :: fs) ++ ⟨.dot, d⟩ :: (t.tokens ++ ⟨.rightParen, q⟩ :: r)) := by
  simp [tokens, allTokens]

/-- A property of all phrases, from one case for each production; for a list it may be used of each of
the elements. -/
@[elab_as_elim] theorem induct {P : Phrase → Prop} (atom : ∀ p a, P (.atom p a))
    (quote : ∀ p f, P f → P (.quote p f)) (empty : ∀ p q, P (.empty p q))
    (list : ∀ p f fs q, P f → (∀ g ∈ fs, P g) → P (.list p f fs q))
    (dotted : ∀ p f fs d t q, P f → (∀ g ∈ fs, P g) → P t → P (.dotted p f fs d t q)) :
    ∀ f, P f
  | .atom p a => atom p a
  | .quote p f => quote p f (induct atom quote empty list dotted f)
  | .empty p q => empty p q
  | .list p f fs q =>
    list p f fs q (induct atom quote empty list dotted f)
      fun g _ => induct atom quote empty list dotted g
  | .dotted p f fs d t q =>
    dotted p f fs d t q (induct atom quote empty list dotted f)
      (fun g _ => induct atom quote empty list dotted g) (induct atom quote empty list dotted t)

theorem folded_chain {fs : List Phrase} (hfs : ∀ f ∈ fs, (form f).Folded) {rest : Option Form}
    (hrest : ∀ f ∈ rest, f.Folded) : ∀ f ∈ chain fs rest, f.Folded := by
  induction fs with
  | nil => exact hrest
  | cons f fs ih =>
    obtain ⟨hf, hfs⟩ := List.forall_mem_cons.1 hfs
    rintro g ⟨⟩
    exact Form.folded_cons _ hf (ih hfs)

/-- No rest in the meaning of a phrase is the empty list. -/
theorem folded_form (f : Phrase) : (form f).Folded := by
  induction f using induct with
  | atom | empty => trivial
  | quote p f ih => exact ⟨trivial, ih, fun _ h => by cases h⟩
  | list p f fs q ih ihs => exact Form.folded_cons p ih (folded_chain ihs (by simp))
  | dotted p f fs d t q ih ihs iht =>
    exact Form.folded_cons p ih (folded_chain ihs (by simpa using iht))

/-! ## Elements as the reader holds them -/

/-- The elements of a list as the reader holds them, newest first. -/
def items (fs : List Phrase) : List Form := (fs.map form).reverse

theorem items_append (fs : List Phrase) (f : Phrase) : items (fs ++ [f]) = form f :: items fs := by
  simp [items]

theorem chain_eq (fs : List Phrase) (rest : Option Form) :
    Form.chain (items fs) rest = chain fs rest := by
  induction fs with
  | nil => rfl
  | cons f fs ih =>
    rw [chain, ← ih, items, List.map_cons, List.reverse_cons, Form.chain, List.foldl_append]
    rfl

theorem cons_moveTo (p q : Position) (car : Form) (cdr : Option Form) :
    (Form.cons p car cdr).moveTo q = Form.cons q car cdr := by
  match cdr with
  | none | some (.atom _ _) | some (.empty _) | some (.single _ _) | some (.pair _ _ _) => rfl

/-- The reader closes a list as the meaning of a phrase has it. -/
theorem ofItems_items (p : Position) (f : Phrase) (fs : List Phrase) (rest : Option Form) :
    Form.ofItems p (items (f :: fs)) rest = Form.cons p (form f) (chain fs rest) := by
  rw [Form.ofItems_eq, chain_eq, chain, Option.map_some, Option.getD_some, cons_moveTo]

end Phrase

/-! ## Phrases are read -/

namespace Reading

open Phrase

variable {r : Reader}

/-- The tokens of `f` take a reader to the one with its form delivered. -/
def Delivers (f : Phrase) : Prop :=
  ∀ (r : Reader) (rest : List Token), r.Open →
    Reading.resume r (f.tokens ++ rest) = Reading.resume (Reader.deliver r.forms r.pending f.form) rest

/-- A dot is read behind at least one element. -/
theorem step_dot (p d : Position) (f : Phrase) (fs : List Phrase) (stack : List Pending)
    (forms : List Form) :
    Reader.step ⟨.list p (items (f :: fs)) :: stack, forms⟩ ⟨.dot, d⟩ =
      .ok ⟨.dotted p d (items (f :: fs)) none :: stack, forms⟩ := by
  cases hitems : items (f :: fs) with
  | nil => simp [items] at hitems
  | cons g gs => rfl

/-- The elements of a list are collected in front of those it has. -/
theorem resume_allTokens {fs : List Phrase} (hfs : ∀ f ∈ fs, Delivers f) (p : Position)
    (before : List Phrase) (stack : List Pending) (forms : List Form) (rest : List Token) :
    Reading.resume ⟨.list p (items before) :: stack, forms⟩ (allTokens fs ++ rest) =
      Reading.resume ⟨.list p (items (before ++ fs)) :: stack, forms⟩ rest := by
  induction fs generalizing before with
  | nil => simp [allTokens]
  | cons f fs ih =>
    obtain ⟨hf, hfs⟩ := List.forall_mem_cons.1 hfs
    rw [allTokens, List.append_assoc, hf _ _ (Reader.open_list _ _ _ _)]
    show Reading.resume ⟨.list p (form f :: items before) :: stack, forms⟩ _ = _
    rw [← items_append, ih hfs, List.append_assoc, List.singleton_append]

/-- Every phrase is read as its meaning, wherever a form can stand. -/
theorem resume_tokens (f : Phrase) : Delivers f := by
  -- a quote or a parenthesis opens a construct, what is inside is read by induction, and the last
  -- token of the phrase closes the construct again
  induction f using Phrase.induct with
  | atom p a => exact fun r rest hr => resume_of_step (Reader.step_atom hr p a) rest
  | quote p f ih =>
    intro r rest hr
    rw [tokens, List.cons_append, resume_of_step (Reader.step_quote hr p),
      ih _ _ (Reader.open_quote _ _ _)]
    rfl
  | empty p q =>
    intro r rest hr
    rw [tokens, List.cons_append, resume_of_step (Reader.step_leftParen hr p)]
    exact resume_of_step (Reader.step_rightParen p q [] r.pending r.forms) rest
  | list p f fs q ih ihs =>
    intro r rest hr
    have hall : ∀ g ∈ f :: fs, Delivers g := List.forall_mem_cons.2 ⟨ih, ihs⟩
    have hrow := resume_allTokens hall p [] r.pending r.forms (⟨.rightParen, q⟩ :: rest)
    rw [tokens_list, resume_of_step (Reader.step_leftParen hr p), form, ← ofItems_items,
      ← resume_of_step (Reader.step_rightParen p q _ _ _)]
    exact hrow
  | dotted p f fs d t q ih ihs iht =>
    intro r rest hr
    have hall : ∀ g ∈ f :: fs, Delivers g := List.forall_mem_cons.2 ⟨ih, ihs⟩
    have hrow := resume_allTokens hall p [] r.pending r.forms
      (⟨.dot, d⟩ :: (t.tokens ++ ⟨.rightParen, q⟩ :: rest))
    rw [tokens_dotted, resume_of_step (Reader.step_leftParen hr p), form, ← ofItems_items]
    refine hrow.trans ?_
    rw [List.nil_append, resume_of_step (step_dot p d f fs r.pending r.forms),
      iht _ _ (Reader.open_dot _ _ _ _ _)]
    rfl

/-- Phrases one after the other are read as their meanings in order. -/
theorem resume_phrases (fs : List Phrase) (forms : List Form) :
    Reading.resume ⟨[], forms⟩ (allTokens fs) = ⟨forms.reverse ++ fs.map form, none⟩ := by
  induction fs generalizing forms with
  | nil => simp [allTokens, Reading.resume, Reader.unfinished?]
  | cons f fs ih =>
    rw [allTokens, resume_tokens f _ _ (Reader.open_top forms)]
    show Reading.resume ⟨[], form f :: forms⟩ _ = _
    rw [ih]
    simp

end Reading

/-! ## What the reader has taken -/

open Phrase

/-- The tokens that an open construct has taken, as begun phrase. -/
inductive Pending.Took : Pending → List Token → Prop
  | quote (p : Position) : Took (.quote p) [⟨.quote, p⟩]
  | list (p : Position) (fs : List Phrase) :
      Took (.list p (items fs)) (⟨.leftParen, p⟩ :: allTokens fs)
  | dot (p d : Position) (f : Phrase) (fs : List Phrase) :
      Took (.dotted p d (items (f :: fs)) none)
        (⟨.leftParen, p⟩ :: (allTokens (f :: fs) ++ [⟨.dot, d⟩]))
  | tail (p d : Position) (f : Phrase) (fs : List Phrase) (t : Phrase) :
      Took (.dotted p d (items (f :: fs)) (some t.form))
        (⟨.leftParen, p⟩ :: (allTokens (f :: fs) ++ (⟨.dot, d⟩ :: t.tokens)))

namespace Reader

/-- The tokens that the reader has taken for its complete forms and, outermost first, for what is open.
Only the innermost construct may be a list with a rest that waits for its end. -/
inductive Took : Reader → List Token → Prop
  | forms (fs : List Phrase) : Took ⟨[], items fs⟩ (allTokens fs)
  | opened {p : Pending} {stack : List Pending} {forms : List Form} {ts us : List Token}
      (outer : Took ⟨stack, forms⟩ ts) (hopen : Open ⟨stack, forms⟩) (hp : p.Took us) :
      Took ⟨p :: stack, forms⟩ (ts ++ us)

/-- A phrase that is complete is accounted for where its form is delivered. -/
theorem Took.deliver {stack : List Pending} {forms : List Form} {ts : List Token}
    (h : Took ⟨stack, forms⟩ ts) (hopen : Open ⟨stack, forms⟩) (f : Phrase) :
    Took (Reader.deliver forms stack f.form) (ts ++ f.tokens) := by
  generalize hr : Reader.mk stack forms = r at h
  induction h generalizing stack forms f with
  | forms fs =>
    cases hr
    have hrow : allTokens fs ++ f.tokens = allTokens (fs ++ [f]) := by
      simp [allTokens_append, allTokens]
    rw [hrow]
    show Took ⟨[], f.form :: items fs⟩ _
    rw [← items_append]
    exact .forms _
  | @opened p stack' forms' ts us outer houter hp ih =>
    cases hr
    cases hp with
    | quote p =>
      rw [List.append_assoc]
      exact ih houter (.quote p f) rfl
    | list p fs =>
      have hrow : (⟨.leftParen, p⟩ :: allTokens fs) ++ f.tokens =
          ⟨.leftParen, p⟩ :: allTokens (fs ++ [f]) := by
        simp [allTokens_append, allTokens]
      rw [List.append_assoc, hrow]
      show Took ⟨.list p (f.form :: items fs) :: stack', forms'⟩ _
      rw [← items_append]
      exact .opened outer houter (.list p _)
    | dot p d g fs =>
      have hrow : (⟨.leftParen, p⟩ :: (allTokens (g :: fs) ++ [⟨.dot, d⟩])) ++ f.tokens =
          ⟨.leftParen, p⟩ :: (allTokens (g :: fs) ++ (⟨.dot, d⟩ :: f.tokens)) := by
        simp
      rw [List.append_assoc, hrow]
      exact .opened outer houter (.tail p d g fs f)
    | tail p d g fs t => exact absurd rfl (hopen _ _ _ _ _)

/-- One token is accounted for. -/
theorem Took.step {r r' : Reader} {ts : List Token} {t : Token} (h : r.Took ts)
    (hstep : r.step t = .ok r') : r'.Took (ts ++ [t]) := by
  obtain ⟨kind, q⟩ := t
  -- a token that begins a phrase is read the same way wherever a form can stand
  cases kind with
  | leftParen =>
    have hopen : r.Open := open_of_step hstep (by simp)
    obtain rfl : _ = r' := Except.ok.inj ((step_leftParen hopen q).symm.trans hstep)
    exact .opened h hopen (.list q [])
  | quote =>
    have hopen : r.Open := open_of_step hstep (by simp)
    obtain rfl : _ = r' := Except.ok.inj ((step_quote hopen q).symm.trans hstep)
    exact .opened h hopen (.quote q)
  | atom a =>
    have hopen : r.Open := open_of_step hstep (by simp)
    obtain rfl : _ = r' := Except.ok.inj ((step_atom hopen q a).symm.trans hstep)
    exact h.deliver hopen (.atom q a)
  | rightParen =>
    cases h with
    | forms fs => cases hstep
    | @opened p stack forms ts us outer houter hp =>
      cases hp with
      | quote p | dot p d f fs => cases hstep
      | list p fs =>
        obtain rfl : _ = r' :=
          Except.ok.inj ((step_rightParen p q (items fs) stack forms).symm.trans hstep)
        cases fs with
        | nil =>
          rw [List.append_assoc]
          exact outer.deliver houter (.empty p q)
        | cons f fs =>
          have hphrase : (⟨.leftParen, p⟩ :: allTokens (f :: fs)) ++ [⟨.rightParen, q⟩] =
              (Phrase.list p f fs q).tokens := by
            simp [tokens, allTokens]
          rw [List.append_assoc, hphrase, ofItems_items]
          exact outer.deliver houter (.list p f fs q)
      | tail p d f fs t =>
        cases hstep
        have hphrase : (⟨.leftParen, p⟩ :: (allTokens (f :: fs) ++ (⟨.dot, d⟩ :: t.tokens))) ++
            [⟨.rightParen, q⟩] = (Phrase.dotted p f fs d t q).tokens := by
          simp [tokens, allTokens]
        rw [List.append_assoc, hphrase, ofItems_items]
        exact outer.deliver houter (.dotted p f fs d t q)
  | dot =>
    cases h with
    | forms fs => cases hstep
    | @opened p stack forms ts us outer houter hp =>
      cases hp with
      | quote p | dot p d f fs | tail p d f fs t => cases hstep
      | list p fs =>
        cases fs with
        | nil => cases hstep
        | cons f fs =>
          obtain rfl : _ = r' :=
            Except.ok.inj ((Reading.step_dot p q f fs stack forms).symm.trans hstep)
          rw [List.append_assoc]
          exact .opened outer houter (.dot p q f fs)

end Reader

/-- A row of tokens that is read to its end is a row of phrases, and gives their meanings. -/
theorem Reader.Took.resume {r : Reader} {ts us : List Token} (h : r.Took ts)
    (hok : (Reading.resume r us).error = none) :
    ∃ fs : List Phrase, allTokens fs = ts ++ us ∧ (Reading.resume r us).forms = fs.map form := by
  induction us generalizing r ts with
  | nil =>
    -- nothing is open at the end
    cases h with
    | forms fs => exact ⟨fs, (List.append_nil _).symm, by simp [Reading.resume, items]⟩
    | @opened p stack forms ts us outer houter hp => cases hp <;> cases hok
  | cons t us ih =>
    cases hstep : r.step t with
    | ok r' =>
      rw [Reading.resume_of_step hstep] at hok ⊢
      obtain ⟨fs, hrow, hforms⟩ := ih (h.step hstep) hok
      exact ⟨fs, by rw [hrow, List.append_assoc, List.singleton_append], hforms⟩
    | error e =>
      rw [Reading.resume, hstep] at hok
      cases hok

/-- A text that is read to its end is the tokens of phrases, and is read as their meanings. -/
theorem Reading.exists_phrases {text : String} (h : (Reading.ofText text).error = none) :
    ∃ fs : List Phrase, tokenize text = .ok (allTokens fs) ∧
      (Reading.ofText text).forms = fs.map form := by
  unfold Reading.ofText at h ⊢
  cases htokens : tokenize text with
  | error e =>
    rw [htokens] at h
    cases h
  | ok ts =>
    rw [htokens] at h
    obtain ⟨fs, hrow, hforms⟩ := (Reader.Took.forms []).resume h
    exact ⟨fs, congrArg Except.ok hrow.symm, hforms⟩

/-! ## A row of tokens has one derivation -/

namespace Phrase

/-- The row does not go on with a form: it is at its end, or a list ends or its dot comes. -/
inductive Stops : List Token → Prop
  | nil : Stops []
  | close (q : Position) (rest : List Token) : Stops (⟨.rightParen, q⟩ :: rest)
  | dot (d : Position) (rest : List Token) : Stops (⟨.dot, d⟩ :: rest)

/-- No phrase begins where a row stops. -/
theorem not_stops_tokens (f : Phrase) (rest : List Token) : ¬ Stops (f.tokens ++ rest) := by
  intro h
  cases f <;> cases h

/-- A row that begins with the tokens of `f` begins with those of no other phrase. -/
def Splits (f : Phrase) : Prop :=
  ∀ (g : Phrase) (r s : List Token), f.tokens ++ r = g.tokens ++ s → f = g ∧ r = s

/-- Phrases up to where a row stops are determined if each of them is. -/
theorem allTokens_splits {fs : List Phrase} (hfs : ∀ f ∈ fs, Splits f) {gs : List Phrase}
    {r s : List Token} (hr : Stops r) (hs : Stops s) (h : allTokens fs ++ r = allTokens gs ++ s) : fs = gs ∧ r = s := by
  induction fs generalizing gs with
  | nil =>
    cases gs with
    | nil => exact ⟨rfl, h⟩
    | cons g gs =>
      rw [allTokens, allTokens, List.nil_append, List.append_assoc] at h
      exact absurd (h ▸ hr) (not_stops_tokens g _)
  | cons f fs ih =>
    obtain ⟨hf, hfs⟩ := List.forall_mem_cons.1 hfs
    cases gs with
    | nil =>
      rw [allTokens, allTokens, List.nil_append, List.append_assoc] at h
      exact absurd (h ▸ hs) (not_stops_tokens f _)
    | cons g gs =>
      rw [allTokens, allTokens, List.append_assoc, List.append_assoc] at h
      obtain ⟨rfl, h'⟩ := hf g _ _ h
      obtain ⟨rfl, rfl⟩ := ih hfs h'
      exact ⟨rfl, rfl⟩

/-- No row begins with the tokens of two phrases. -/
theorem splits (f : Phrase) : Splits f := by
  -- two lists are compared element by element; where the elements stop, the next token tells which
  -- of the two kinds of list it is
  induction f using induct with
  | atom p a =>
    intro g r s h
    cases g <;> simp_all [tokens]
  | quote p f ih =>
    intro g r s h
    cases g with
    | quote p' g =>
      simp only [tokens, List.cons_append, List.cons.injEq, Token.mk.injEq, true_and] at h
      obtain ⟨rfl, h⟩ := h
      obtain ⟨rfl, rfl⟩ := ih g r s h
      exact ⟨rfl, rfl⟩
    | atom | empty | list | dotted => simp [tokens] at h
  | empty p q =>
    intro g r s h
    have hall : ∀ g ∈ ([] : List Phrase), Splits g := by simp
    cases g with
    | empty p' q' => simp_all [tokens]
    | atom | quote => simp [tokens] at h
    | list p' g gs q' =>
      rw [tokens_empty, tokens_list, List.cons.injEq] at h
      cases (allTokens_splits hall (.close _ _) (.close _ _) h.2).1
    | dotted p' g gs d' t' q' =>
      rw [tokens_empty, tokens_dotted, List.cons.injEq] at h
      cases (allTokens_splits hall (.close _ _) (.dot _ _) h.2).1
  | list p f fs q ih ihs =>
    intro g r s h
    have hall : ∀ g ∈ f :: fs, Splits g := List.forall_mem_cons.2 ⟨ih, ihs⟩
    cases g with
    | atom | quote => simp [tokens] at h
    | empty p' q' =>
      rw [tokens_list, tokens_empty, List.cons.injEq] at h
      cases (allTokens_splits hall (.close _ _) (.close _ _) h.2).1
    | list p' g gs q' =>
      rw [tokens_list, tokens_list, List.cons.injEq] at h
      obtain ⟨hopening, hrow⟩ := h
      obtain ⟨helements, hrest⟩ := allTokens_splits hall (.close _ _) (.close _ _) hrow
      cases hopening
      cases helements
      cases hrest
      exact ⟨rfl, rfl⟩
    | dotted p' g gs d' t' q' =>
      rw [tokens_list, tokens_dotted, List.cons.injEq] at h
      cases (allTokens_splits hall (.close _ _) (.dot _ _) h.2).2
  | dotted p f fs d t q ih ihs iht =>
    intro g r s h
    have hall : ∀ g ∈ f :: fs, Splits g := List.forall_mem_cons.2 ⟨ih, ihs⟩
    cases g with
    | atom | quote => simp [tokens] at h
    | empty p' q' =>
      rw [tokens_dotted, tokens_empty, List.cons.injEq] at h
      cases (allTokens_splits hall (.dot _ _) (.close _ _) h.2).1
    | list p' g gs q' =>
      rw [tokens_dotted, tokens_list, List.cons.injEq] at h
      cases (allTokens_splits hall (.dot _ _) (.close _ _) h.2).2
    | dotted p' g gs d' t' q' =>
      rw [tokens_dotted, tokens_dotted, List.cons.injEq] at h
      obtain ⟨hopening, hrow⟩ := h
      obtain ⟨helements, hrest⟩ := allTokens_splits hall (.dot _ _) (.dot _ _) hrow
      obtain ⟨hdot, hrest⟩ := List.cons_eq_cons.1 hrest
      obtain ⟨rfl, hend⟩ := iht t' _ _ hrest
      cases hopening
      cases helements
      cases hdot
      cases hend
      exact ⟨rfl, rfl⟩

end Phrase

/-! ## The grammar -/

/-- The reader accepts exactly the rows of forms of its grammar.  Each such row is derived in one way,
all of it is consumed, and what is read are the meanings of its forms in order, which the store then
holds as exactly these trees. -/
theorem ofTokens_reads_grammar (tokens : List Token) :
    ((∃ forms, (Reading.ofTokens tokens).toExcept = .ok forms) ↔
      ∃ fs : List Phrase, fs.flatMap Phrase.tokens = tokens) ∧
    (∀ fs gs : List Phrase, fs.flatMap Phrase.tokens = tokens → gs.flatMap Phrase.tokens = tokens →
      fs = gs) ∧
    ∀ fs : List Phrase, fs.flatMap Phrase.tokens = tokens →
      (Reading.ofTokens tokens).toExcept = .ok (fs.map Phrase.form) ∧
      ∀ (file : String) (s : Store),
        List.Forall₂ ((s.ofForms file (fs.map Phrase.form)).2.Depicts file)
          (s.ofForms file (fs.map Phrase.form)).1 (fs.map Phrase.form) := by
  simp only [← allTokens_eq_flatMap]
  have hreads : ∀ fs, allTokens fs = tokens →
      (Reading.ofTokens tokens).toExcept = .ok (fs.map form) := by
    rintro fs rfl
    rw [Reading.ofTokens, Reading.resume_phrases]
    rfl
  refine ⟨⟨?_, fun ⟨fs, hfs⟩ => ⟨_, hreads fs hfs⟩⟩, ?_, fun fs hfs => ⟨hreads fs hfs, ?_⟩⟩
  · rintro ⟨forms, hok⟩
    have herror : (Reading.resume {} tokens).error = none := by
      unfold Reading.toExcept Reading.ofTokens at hok
      split at hok
      · assumption
      · cases hok
    obtain ⟨fs, hrow, -⟩ := (Reader.Took.forms []).resume herror
    exact ⟨fs, hrow⟩
  · intro fs gs hfs hgs
    have heq : allTokens fs ++ [] = allTokens gs ++ [] := by rw [hfs, hgs]
    exact (allTokens_splits (fun f _ => splits f) .nil .nil heq).1
  · intro file s
    exact Store.depicts_ofForms file (by simpa using fun f _ => folded_form f) s

end Lisplet
