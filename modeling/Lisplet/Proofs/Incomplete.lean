/-
# Lisplet.Proofs.Incomplete -- incomplete rows of tokens and invalid ones

Reading a row of tokens fails at its end or before.  At the end something is still open, and more tokens
can close it: each open construct, from the innermost to the outermost, takes a form if it still needs
one and then its end (`Reader.Took.completes`).  Before the end a token cannot continue what is open, and
no token behind it is looked at, so nothing that is added changes the error.  The two kinds of failure
have different messages.

What is still open is said of the row alone.  A parenthesis or a quote opens a form, and is open at the
end of the row if no form that begins there ends in the row.  Inside the innermost construct that the
reader holds open there are complete forms only, so every parenthesis and every quote there begins one
(`Phrase.Ended`).
-/

import Mathlib.Tactic
import Lisplet.Proofs.Form.Grammar

namespace Lisplet

open Phrase

/-! ## What is open at the end of a row -/

/-- A token that begins a form which a later token ends. -/
def Token.Opens (t : Token) : Prop := t.kind = .leftParen ∨ t.kind = .quote

/-- The row begins with a token that opens a form, and ends inside of it. -/
def StillOpen (t : Token) (inside : List Token) : Prop :=
  t.Opens ∧ ∀ (f : Phrase) (rest : List Token), t :: inside ≠ f.tokens ++ rest

/-- The last token that is still open at the end of the row. -/
def InnermostOpen (ts : List Token) (t : Token) : Prop :=
  ∃ before inside, ts = before ++ t :: inside ∧ StillOpen t inside ∧
    ∀ between u behind, inside = between ++ u :: behind → ¬ StillOpen u behind

namespace Phrase

/-- Every token of the row that opens a form begins one that ends in the row. -/
def Ended (ts : List Token) : Prop :=
  ∀ before u behind, ts = before ++ u :: behind → u.Opens →
    ∃ (f : Phrase) (rest : List Token), u :: behind = f.tokens ++ rest

theorem ended_nil : Ended [] := by
  intro before u behind h
  simp at h

theorem Ended.append {ts us : List Token} (hts : Ended ts) (hus : Ended us) : Ended (ts ++ us) := by
  intro before u behind h hu
  rcases List.append_eq_append_iff.1 h with ⟨between, rfl, hbetween⟩ | ⟨between, rfl, hbetween⟩
  · exact hus between u behind hbetween hu
  · -- the row is parted in front of `u`, or behind it
    cases between with
    | nil => exact hus [] u behind (by simpa using hbetween.symm) hu
    | cons v between =>
      obtain ⟨rfl, rfl⟩ := List.cons_eq_cons.1 hbetween
      obtain ⟨f, rest, hf⟩ := hts before u between rfl hu
      refine ⟨f, rest ++ us, ?_⟩
      rw [← List.append_assoc, ← hf]
      rfl

/-- A token in front, which begins a form if it opens one. -/
theorem Ended.cons {t : Token} {ts : List Token} (hts : Ended ts)
    (ht : t.Opens → ∃ (f : Phrase) (rest : List Token), t :: ts = f.tokens ++ rest) :
    Ended (t :: ts) := by
  intro before u behind h hu
  cases before with
  | nil =>
    obtain ⟨rfl, rfl⟩ := List.cons_eq_cons.1 h
    exact ht hu
  | cons v before => exact hts before u behind (List.cons_eq_cons.1 h).2 hu

theorem ended_single {t : Token} (ht : ¬ t.Opens) : Ended [t] := ended_nil.cons fun h => absurd h ht

theorem ended_allTokens {fs : List Phrase} (hfs : ∀ f ∈ fs, Ended f.tokens) : Ended (allTokens fs) := by
  induction fs with
  | nil => exact ended_nil
  | cons f fs ih =>
    obtain ⟨hf, hfs⟩ := List.forall_mem_cons.1 hfs
    exact hf.append (ih hfs)

/-- A phrase is ended, and so is everything inside of it. -/
theorem ended_tokens (f : Phrase) : Ended f.tokens := by
  have hself (f : Phrase) : ∃ (g : Phrase) (rest : List Token), f.tokens = g.tokens ++ rest :=
    ⟨f, [], (List.append_nil _).symm⟩
  have hclose (q : Position) : Ended [⟨.rightParen, q⟩] := ended_single (by simp [Token.Opens])
  induction f using Phrase.induct with
  | atom p a => exact ended_single (by simp [Token.Opens])
  | quote p f ih => exact ih.cons fun _ => hself (.quote p f)
  | empty p q => exact (hclose q).cons fun _ => hself (.empty p q)
  | list p f fs q ih ihs =>
    exact (ih.append ((ended_allTokens ihs).append (hclose q))).cons fun _ => hself (.list p f fs q)
  | dotted p f fs d t q ih ihs iht =>
    have htail : Ended (⟨.dot, d⟩ :: (t.tokens ++ [⟨.rightParen, q⟩])) :=
      (iht.append (hclose q)).cons (by simp [Token.Opens])
    exact (ih.append ((ended_allTokens ihs).append htail)).cons fun _ => hself (.dotted p f fs d t q)

end Phrase

/-! ## What the reader holds open -/

/-- A list is still open where its elements stop, if no parenthesis closes it there, nor behind the form
that follows its dot. -/
theorem stillOpen_list {r : List Token} (hstops : Stops r) (p : Position) (fs : List Phrase)
    (hclose : ∀ q rest, r ≠ ⟨.rightParen, q⟩ :: rest)
    (hdot : ∀ d (t : Phrase) q rest, r ≠ ⟨.dot, d⟩ :: (t.tokens ++ ⟨.rightParen, q⟩ :: rest)) :
    StillOpen ⟨.leftParen, p⟩ (allTokens fs ++ r) := by
  refine ⟨Or.inl rfl, fun f rest h => ?_⟩
  have hsplits : ∀ g ∈ fs, Splits g := fun g _ => splits g
  cases f with
  | atom | quote => simp [tokens] at h
  | empty p' q =>
    rw [tokens_empty] at h
    exact hclose _ _ (allTokens_splits hsplits hstops (.close _ _) (List.cons_eq_cons.1 h).2).2
  | list p' g gs q =>
    rw [tokens_list] at h
    exact hclose _ _ (allTokens_splits hsplits hstops (.close _ _) (List.cons_eq_cons.1 h).2).2
  | dotted p' g gs d t q =>
    rw [tokens_dotted] at h
    exact hdot _ _ _ _ (allTokens_splits hsplits hstops (.dot _ _) (List.cons_eq_cons.1 h).2).2

/-- An open construct has taken the token that opened it, which is still open, and inside of it forms
that are ended. -/
theorem Pending.Took.stillOpen {p : Pending} {us : List Token} (h : p.Took us) :
    ∃ t inside, us = t :: inside ∧ StillOpen t inside ∧ Ended inside := by
  have hdot (d : Position) : Ended [⟨.dot, d⟩] := ended_single (by simp [Token.Opens])
  have hforms (fs : List Phrase) : Ended (allTokens fs) := ended_allTokens fun f _ => ended_tokens f
  have hnone (f : Phrase) (rest : List Token) : [] ≠ f.tokens ++ rest := fun h =>
    not_stops_tokens f rest (h ▸ Stops.nil)
  cases h with
  | quote p =>
    refine ⟨_, _, rfl, ⟨Or.inr rfl, fun f rest h => ?_⟩, ended_nil⟩
    cases f with
    | quote q g =>
      -- a quote that stands last quotes nothing
      rw [tokens] at h
      exact hnone g rest (List.cons_eq_cons.1 h).2
    | atom | empty | list | dotted => simp [tokens] at h
  | list p fs =>
    have hopen := stillOpen_list .nil p fs (by simp) (by simp)
    rw [List.append_nil] at hopen
    exact ⟨_, _, rfl, hopen, hforms fs⟩
  | dot p d f fs =>
    refine ⟨_, _, rfl, stillOpen_list (.dot d []) p (f :: fs) (by simp) ?_, (hforms _).append (hdot d)⟩
    intro d' t q rest h
    exact hnone t _ (List.cons_eq_cons.1 h).2
  | tail p d f fs t =>
    have htail : Ended (⟨.dot, d⟩ :: t.tokens) := (hdot d).append (ended_tokens t)
    refine ⟨_, _, rfl, stillOpen_list (.dot d t.tokens) p (f :: fs) (by simp) ?_,
      (hforms _).append htail⟩
    intro d' u q rest h
    have hrow : t.tokens ++ [] = u.tokens ++ ⟨.rightParen, q⟩ :: rest := by
      rw [List.append_nil]
      exact (List.cons_eq_cons.1 h).2
    cases (splits t u _ _ hrow).2

namespace Reader

variable {r : Reader} {ts : List Token} {e : ReadError}

/-- What is reported at the end of a row is the innermost token that is still open. -/
theorem Took.innermostOpen (h : r.Took ts) (he : r.unfinished? = some e) :
    ∃ t, InnermostOpen ts t ∧ t.position = e.position ∧ (t.kind = .quote ↔ e.fault = .quoteAtEnd) ∧
      (t.kind = .leftParen ↔ e.fault = .unclosedList) := by
  cases h with
  | forms fs => cases he
  | @opened p stack forms ts us outer hopen hp =>
    obtain ⟨t, inside, rfl, hstill, hended⟩ := hp.stillOpen
    refine ⟨t, ⟨ts, inside, rfl, hstill, ?_⟩, ?_⟩
    · intro between u behind hinside hu
      obtain ⟨f, rest, hf⟩ := hended between u behind hinside hu.1
      exact hu.2 f rest hf
    · cases hp <;> cases he <;> simp

/-- Only two things are reported at the end of a row. -/
theorem fault_of_unfinished? (h : r.unfinished? = some e) :
    e.fault = .unclosedList ∨ e.fault = .quoteAtEnd := by
  unfold unfinished? at h
  split at h <;> cases h <;> simp

/-! ## Completing a row -/

/-- Once a form was delivered, what is open can be closed from the inside out. -/
theorem Took.completes_delivered {stack : List Pending} {forms : List Form}
    (h : Took ⟨stack, forms⟩ ts) (hopen : Open ⟨stack, forms⟩) (f : Form) :
    ∃ us, (Reading.resume (Reader.deliver forms stack f) us).error = none := by
  generalize hr : Reader.mk stack forms = r at h
  induction h generalizing stack forms f with
  | forms fs =>
    cases hr
    exact ⟨[], rfl⟩
  | opened outer houter hp ih =>
    cases hr
    cases hp with
    | quote p => exact ih houter (.quoting p f) rfl
    | list p fs =>
      obtain ⟨us, hus⟩ := ih houter (.ofItems p (f :: items fs) none) rfl
      exact ⟨⟨.rightParen, .start⟩ :: us, hus⟩
    | dot p d g fs =>
      obtain ⟨us, hus⟩ := ih houter (.ofItems p (items (g :: fs)) (some f)) rfl
      exact ⟨⟨.rightParen, .start⟩ :: us, hus⟩
    | tail p d g fs t => exact absurd rfl (hopen _ _ _ _ _)

/-- Whatever is open can be closed. -/
theorem Took.completes (h : r.Took ts) : ∃ us, (Reading.resume r us).error = none := by
  cases h with
  | forms fs => exact ⟨[], rfl⟩
  | @opened p stack forms ts us outer hopen hp =>
    have hatom (r : Reader) (hr : r.Open) (us : List Token) :=
      Reading.resume_of_step (step_atom hr .start (.bool true)) us
    cases hp with
    | quote p =>
      obtain ⟨us, hus⟩ := outer.completes_delivered hopen (.quoting p (.atom .start (.bool true)))
      exact ⟨_ :: us, by rwa [hatom _ (open_quote _ _ _)]⟩
    | list p fs =>
      obtain ⟨us, hus⟩ := outer.completes_delivered hopen (.ofItems p (items fs) none)
      exact ⟨⟨.rightParen, .start⟩ :: us,
        by rwa [Reading.resume_of_step (step_rightParen p .start _ stack forms)]⟩
    | dot p d f fs =>
      obtain ⟨us, hus⟩ := outer.completes_delivered hopen
        (.ofItems p (items (f :: fs)) (some (.atom .start (.bool true))))
      exact ⟨_ :: ⟨.rightParen, .start⟩ :: us, by rwa [hatom _ (open_dot _ _ _ _ _)]⟩
    | tail p d f fs t =>
      obtain ⟨us, hus⟩ := outer.completes_delivered hopen (.ofItems p (items (f :: fs)) (some t.form))
      exact ⟨⟨.rightParen, .start⟩ :: us, hus⟩

/-! ## Errors before the end -/

/-- What is reported of a token that cannot continue what is open. -/
theorem fault_of_step {t : Token} (h : r.step t = .error e) :
    e.fault ∈ [.unexpectedClose, .unexpectedDot, .leadingDot, .trailingDot, .crowdedTail] := by
  unfold step at h
  split at h <;> cases h <;> simp

/-- Such a fault is not worded like one at the end of a row. -/
theorem message_of_step {t : Token} (h : r.step t = .error e) :
    e.fault.message ≠ "unclosed parenthesis" ∧ e.fault.message ≠ "quote at end of input" := by
  have hall : ∀ fault ∈ [ReadFault.unexpectedClose, .unexpectedDot, .leadingDot, .trailingDot,
      .crowdedTail], fault.message ≠ "unclosed parenthesis" ∧ fault.message ≠ "quote at end of input" := by
    decide
  exact hall e.fault (fault_of_step h)

/-- A row that cannot be read is read to its end with something open, or has a token behind which nothing
is looked at. -/
theorem Took.error_cases {us : List Token} (h : r.Took ts) (he : (Reading.resume r us).error = some e) :
    (∃ r' : Reader, r'.Took (ts ++ us) ∧ r'.unfinished? = some e ∧
      ∀ more, Reading.resume r (us ++ more) = Reading.resume r' more) ∨
    (e.fault.message ≠ "unclosed parenthesis" ∧ e.fault.message ≠ "quote at end of input") ∧
      ∀ more, (Reading.resume r (us ++ more)).error = some e := by
  induction us generalizing r ts with
  | nil => exact Or.inl ⟨r, by rwa [List.append_nil], he, fun more => rfl⟩
  | cons t us ih =>
    cases hstep : r.step t with
    | ok r' =>
      have hresume (more : List Token) := Reading.resume_of_step hstep (us ++ more)
      rw [Reading.resume_of_step hstep] at he
      rcases ih (h.step hstep) he with ⟨r'', htook, hend, hmore⟩ | ⟨hfault, hmore⟩
      · refine Or.inl ⟨r'', by simpa using htook, hend, fun more => ?_⟩
        rw [List.cons_append, hresume, hmore]
      · refine Or.inr ⟨hfault, fun more => ?_⟩
        rw [List.cons_append, hresume, hmore]
    | error e' =>
      have hresume (more : List Token) : (Reading.resume r (t :: more)).error = some e' := by
        rw [Reading.resume, hstep]
      obtain rfl : e' = e := Option.some.inj ((hresume us).symm.trans he)
      exact Or.inr ⟨message_of_step hstep, fun more => hresume (us ++ more)⟩

end Reader

theorem Reading.toExcept_eq_error {r : Reading} {e : ReadError} :
    r.toExcept = .error e ↔ r.error = some e := by
  obtain ⟨fs, - | e'⟩ := r <;> simp [Reading.toExcept]

/-- Incomplete rows of tokens are told from invalid ones.  Where a parenthesis is unclosed or a quote
stands at the end, more tokens make a row that can be read, and the error stands at the innermost
parenthesis or quote that is still open.  Every other error stays the same, at the same place, whatever
is added. -/
theorem incomplete_or_invalid {ts : List Token} {e : ReadError}
    (h : (Reading.ofTokens ts).toExcept = .error e) :
    (e.fault.message = "unclosed parenthesis" ∨ e.fault.message = "quote at end of input" →
      (∃ us forms, (Reading.ofTokens (ts ++ us)).toExcept = .ok forms) ∧
        ∃ t, InnermostOpen ts t ∧ t.position = e.position ∧
          (t.kind = .quote ↔ e.fault = .quoteAtEnd) ∧ (t.kind = .leftParen ↔ e.fault = .unclosedList)) ∧
    (e.fault.message ≠ "unclosed parenthesis" ∧ e.fault.message ≠ "quote at end of input" →
      ∀ us, (Reading.ofTokens (ts ++ us)).toExcept = .error e) := by
  have htook : Reader.Took {} [] := .forms []
  rw [Reading.toExcept_eq_error] at h
  rcases htook.error_cases h with ⟨r, hr, hend, hmore⟩ | ⟨hfault, hmore⟩
  · obtain ⟨us, hus⟩ := hr.completes
    refine ⟨fun _ => ⟨⟨us, (Reading.resume r us).forms, ?_⟩, hr.innermostOpen hend⟩, fun hother => ?_⟩
    · rw [Reading.ofTokens, hmore, Reading.toExcept, hus]
    · rcases Reader.fault_of_unfinished? hend with hlist | hquote
      · exact absurd (by rw [hlist]; rfl) hother.1
      · exact absurd (by rw [hquote]; rfl) hother.2
  · refine ⟨fun hend => ?_, fun _ us => Reading.toExcept_eq_error.2 (hmore us)⟩
    rcases hend with hend | hend
    · exact absurd hend hfault.1
    · exact absurd hend hfault.2

/-- The tokens of `(a '(b . ` lack a form and two parentheses; those of `(a . b c` cannot be completed. -/
theorem incomplete_or_invalid_dotted :
    let ts : List Token := [⟨.leftParen, ⟨1, 1⟩⟩, ⟨.atom (.symbol "a"), ⟨1, 2⟩⟩, ⟨.quote, ⟨1, 4⟩⟩,
      ⟨.leftParen, ⟨1, 5⟩⟩, ⟨.atom (.symbol "b"), ⟨1, 6⟩⟩, ⟨.dot, ⟨1, 8⟩⟩]
    let us : List Token := [⟨.leftParen, ⟨1, 1⟩⟩, ⟨.atom (.symbol "a"), ⟨1, 2⟩⟩, ⟨.dot, ⟨1, 4⟩⟩,
      ⟨.atom (.symbol "b"), ⟨1, 6⟩⟩, ⟨.atom (.symbol "c"), ⟨1, 8⟩⟩]
    ((Reading.ofTokens ts).toExcept = .error ⟨.unclosedList, ⟨1, 5⟩⟩ ∧
      (∃ more forms, (Reading.ofTokens (ts ++ more)).toExcept = .ok forms) ∧
        ∃ t, InnermostOpen ts t ∧ t.position = ⟨1, 5⟩ ∧ t.kind = .leftParen) ∧
    (Reading.ofTokens us).toExcept = .error ⟨.crowdedTail, ⟨1, 8⟩⟩ ∧
      ∀ more, (Reading.ofTokens (us ++ more)).toExcept = .error ⟨.crowdedTail, ⟨1, 8⟩⟩ := by
  intro ts us
  have hts : (Reading.ofTokens ts).toExcept = .error ⟨.unclosedList, ⟨1, 5⟩⟩ := rfl
  have hus : (Reading.ofTokens us).toExcept = .error ⟨.crowdedTail, ⟨1, 8⟩⟩ := rfl
  obtain ⟨hmore, t, hopen, hposition, -, hlist⟩ := (incomplete_or_invalid hts).1 (Or.inl rfl)
  exact ⟨⟨hts, hmore, t, hopen, hposition, hlist.2 rfl⟩, hus, (incomplete_or_invalid hus).2 (by decide)⟩

end Lisplet
