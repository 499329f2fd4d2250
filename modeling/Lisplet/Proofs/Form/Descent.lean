/-
# Lisplet.Proofs.Form.Descent -- reading by recursive descent

The reader keeps its own stack.  Here is the other way to read: a function that takes a form off a row of
tokens and calls itself for the forms inside.  Each call has a case for what should never happen, that a
form begins where no token is left, or that a list with elements comes out as nothing.  These `Defect`s
are results of their own, apart from the errors of malformed texts.

On every row of tokens the descent gives the forms and the error that the reader gives
(`Descent.forms_eq`), so no defect ever shows: whoever asks for a form has seen a token.
-/

import Mathlib.Tactic
import Lisplet.Proofs.Form.Grammar

namespace Lisplet

/-- Something that is looked for and cannot be missing. -/
inductive Defect where
  /-- A form begins where no token is left. -/
  | endOfInput
  /-- A list with elements is made of no pairs. -/
  | emptyList
  /-- The argument of a function is gone after it was counted. -/
  | vanished (name : String)
  /-- A value is taken from behind the end of a row. -/
  | outOfRange (index size : Nat)
deriving DecidableEq, Inhabited

namespace Descent

/-- Why a descent ends without a form. -/
inductive Failure where
  | malformed (e : ReadError)
  | defect (d : Defect)
deriving DecidableEq, Inhabited

/-- A form and the tokens behind it, fewer than there were. -/
structure Parsed (ts : List Token) where
  form : Form
  rest : List Token
  shorter : rest.length < ts.length

/-! ## The descent -/

/-- A pair, with or without a rest. -/
def pairAt (p : Position) (car : Form) : Option Form → Form
  | none => .single p car
  | some cdr => .pair p car cdr

/-- The pairs of a list in front of its rest, from its elements, newest first.  The oldest one is the
first pair and stands where the list opens. -/
def pairs (opening : Position) : List Form → Option Form → Option Form
  | [], rest => rest
  | f :: older, rest =>
    pairs opening older (some (pairAt (if older.isEmpty then opening else f.position) f rest))

/-- An empty rest is no rest. -/
def dropEmpty : Option Form → Option Form
  | some (.empty _) => none
  | tail => tail

/-- Close a list. -/
def close (opening : Position) (items : List Form) (tail : Option Form) : Except Failure Form :=
  if items.isEmpty then .ok (.empty opening)
  else match pairs opening items (dropEmpty tail) with
    | some f => .ok f
    | none => .error (.defect .emptyList)

/-- Close a list behind the form that follows its dot. -/
def closeDotted (opening : Position) (items : List Form) (tail : Form) :
    (ts : List Token) → Except Failure (Parsed ts)
  | [] => .error (.malformed ⟨.unclosedList, opening⟩)
  | t :: ts =>
    if t.kind = .rightParen then do
      let f ← close opening items (some tail)
      .ok ⟨f, ts, by simp⟩
    else .error (.malformed ⟨.crowdedTail, t.position⟩)

mutual

/-- Take a form off the tokens. -/
def parseForm : (ts : List Token) → Except Failure (Parsed ts)
  | [] => .error (.defect .endOfInput)
  | t :: ts =>
    match t.kind with
    | .atom a => .ok ⟨.atom t.position a, ts, by simp⟩
    | .quote =>
      if ts.isEmpty then .error (.malformed ⟨.quoteAtEnd, t.position⟩)
      else do
        let ⟨f, rest, h⟩ ← parseForm ts
        .ok ⟨.quoting t.position f, rest, h.trans (by simp)⟩
    | .leftParen => do
      let ⟨f, rest, h⟩ ← parseItems t.position [] ts
      .ok ⟨f, rest, h.trans (by simp)⟩
    | .rightParen => .error (.malformed ⟨.unexpectedClose, t.position⟩)
    | .dot => .error (.malformed ⟨.unexpectedDot, t.position⟩)
termination_by ts => (ts.length, 0)

/-- Take the remaining elements of a list and its end off the tokens. -/
def parseItems (opening : Position) (items : List Form) : (ts : List Token) → Except Failure (Parsed ts)
  | [] => .error (.malformed ⟨.unclosedList, opening⟩)
  | t :: ts =>
    match t.kind with
    | .rightParen => do
      let f ← close opening items none
      .ok ⟨f, ts, by simp⟩
    | .dot =>
      if items.isEmpty then .error (.malformed ⟨.leadingDot, t.position⟩)
      else match ts.head?.map Token.kind with
        | none => .error (.malformed ⟨.unclosedList, opening⟩)
        | some .rightParen => .error (.malformed ⟨.trailingDot, t.position⟩)
        | some _ => do
          let ⟨tail, rest, h⟩ ← parseForm ts
          let ⟨list, rest, h'⟩ ← closeDotted opening items tail rest
          .ok ⟨list, rest, (h'.trans h).trans (by simp)⟩
    | _ => do
      let ⟨f, rest, h⟩ ← parseForm (t :: ts)
      let ⟨list, rest, h'⟩ ← parseItems opening (f :: items) rest
      .ok ⟨list, rest, h'.trans h⟩
termination_by ts => (ts.length, 1)

end

/-- Take forms off the tokens as long as there is one. -/
def forms (ts : List Token) : List Form × Option Failure :=
  if ts.isEmpty then ([], none)
  else match parseForm ts with
    | .error e => ([], some e)
    | .ok ⟨f, rest, _⟩ =>
      let (fs, e) := forms rest
      (f :: fs, e)
termination_by ts.length

/-! ## Lists are closed alike -/

theorem pairAt_dropEmpty (p : Position) (f : Form) (tail : Option Form) :
    pairAt p f (dropEmpty tail) = Form.cons p f tail := by
  match tail with
  | none | some (.atom _ _) | some (.empty _) | some (.single _ _) | some (.pair _ _ _) => rfl

theorem dropEmpty_cons (p : Position) (f : Form) (tail : Option Form) :
    dropEmpty (some (Form.cons p f tail)) = some (Form.cons p f tail) := by
  match tail with
  | none | some (.atom _ _) | some (.empty _) | some (.single _ _) | some (.pair _ _ _) => rfl

theorem pairs_eq (opening : Position) (f : Form) (older : List Form) (tail : Option Form) :
    pairs opening (f :: older) (dropEmpty tail) =
      (Form.chain (f :: older) tail).map (Form.moveTo opening) := by
  induction older generalizing f tail with
  | nil =>
    show some (pairAt opening f (dropEmpty tail)) = some ((Form.cons f.position f tail).moveTo opening)
    rw [pairAt_dropEmpty, Phrase.cons_moveTo]
  | cons g older ih =>
    show pairs opening (g :: older) (some (pairAt f.position f (dropEmpty tail))) = _
    rw [pairAt_dropEmpty, ← dropEmpty_cons, ih, Form.chain_cons f]

theorem chain_eq_some (f : Form) (older : List Form) (tail : Option Form) :
    ∃ g, Form.chain (f :: older) tail = some g := by
  induction older generalizing f tail with
  | nil => exact ⟨_, rfl⟩
  | cons g older ih => exact ih g (some (Form.cons f.position f tail))

/-- A list with elements is made of pairs. -/
theorem close_eq (opening : Position) {items : List Form} {tail : Option Form}
    (h : items = [] → tail = none) : close opening items tail = .ok (.ofItems opening items tail) := by
  cases items with
  | nil =>
    obtain rfl := h rfl
    rfl
  | cons f older =>
    obtain ⟨g, hg⟩ := chain_eq_some f older tail
    unfold close
    rw [pairs_eq, Form.ofItems_eq, hg]
    rfl

/-! ## The descent goes where the reader goes -/

/-- A form has to begin with the token: nothing that is open has another use for it. -/
def Begins (r : Reader) (t : Token) : Prop :=
  r.Open ∧ (t.kind = .rightParen → r.step t = .error ⟨.unexpectedClose, t.position⟩) ∧
    (t.kind = .dot → r.step t = .error ⟨.unexpectedDot, t.position⟩)

theorem begins_top (forms : List Form) (t : Token) : Begins ⟨[], forms⟩ t := by
  obtain ⟨kind, p⟩ := t
  exact ⟨Reader.open_top forms, by rintro ⟨⟩; rfl, by rintro ⟨⟩; rfl⟩

theorem begins_quote (q : Position) (stack : List Pending) (forms : List Form) (t : Token) :
    Begins ⟨.quote q :: stack, forms⟩ t := by
  obtain ⟨kind, p⟩ := t
  exact ⟨Reader.open_quote q stack forms, by rintro ⟨⟩; rfl, by rintro ⟨⟩; rfl⟩

theorem begins_list (opening : Position) (items : List Form) (stack : List Pending) (forms : List Form)
    (t : Token) (hclose : t.kind ≠ .rightParen) (hdot : t.kind ≠ .dot) :
    Begins ⟨.list opening items :: stack, forms⟩ t :=
  ⟨Reader.open_list opening items stack forms, fun h => absurd h hclose, fun h => absurd h hdot⟩

theorem begins_dot (opening dot : Position) (items : List Form) (stack : List Pending)
    (forms : List Form) (t : Token) (hclose : t.kind ≠ .rightParen) :
    Begins ⟨.dotted opening dot items none :: stack, forms⟩ t := by
  obtain ⟨kind, p⟩ := t
  exact ⟨Reader.open_dot opening dot items stack forms, fun h => absurd h hclose, by rintro ⟨⟩; rfl⟩

/-- The descent over `ts` gives a form where the reader comes to `next` with that form, the error that
the reader gives, and no defect. -/
def Follows (r : Reader) (ts : List Token) (next : Form → Reader) : Except Failure (Parsed ts) → Prop
  | .ok p => Reading.resume r ts = Reading.resume (next p.form) p.rest
  | .error (.malformed e) => Reading.resume r ts = ⟨r.forms.reverse, some e⟩
  | .error (.defect _) => False

theorem resume_of_error {r : Reader} {t : Token} {e : ReadError} (h : r.step t = .error e)
    (ts : List Token) : Reading.resume r (t :: ts) = ⟨r.forms.reverse, some e⟩ := by
  rw [Reading.resume, h]

/-- A part of a descent, and what is left to do behind it. -/
theorem Follows.bind {r r' : Reader} {ts us : List Token} {next next' : Form → Reader}
    {x : Except Failure (Parsed us)} {f : Parsed us → Except Failure (Parsed ts)}
    (hx : Follows r' us next x) (hstart : Reading.resume r ts = Reading.resume r' us)
    (hforms : r.forms = r'.forms) (hf : ∀ p, Reading.resume r ts = Reading.resume (next p.form) p.rest →
      Follows r ts next' (f p)) : Follows r ts next' (x >>= f) := by
  match x, hx with
  | .ok p, hx => exact hf p (hstart.trans hx)
  | .error (.malformed e), hx =>
    show Reading.resume r ts = _
    rw [hstart, hforms]
    exact hx

theorem follows_closeDotted (opening dot : Position) (item : Form) (items : List Form) (tail : Form)
    (stack : List Pending) (forms : List Form) (ts : List Token) :
    Follows ⟨.dotted opening dot (item :: items) (some tail) :: stack, forms⟩ ts
      (Reader.deliver forms stack) (closeDotted opening (item :: items) tail ts) := by
  cases ts with
  | nil => rfl
  | cons t ts =>
    obtain ⟨kind, p⟩ := t
    unfold closeDotted
    rw [close_eq opening (by simp)]
    cases kind with
    | rightParen => rfl
    | leftParen | quote | dot | atom => rfl

mutual

theorem follows_parseForm (r : Reader) (t : Token) (ts : List Token) (h : Begins r t) :
    Follows r (t :: ts) (Reader.deliver r.forms r.pending) (parseForm (t :: ts)) := by
  obtain ⟨kind, p⟩ := t
  obtain ⟨hopen, hclose, hdot⟩ := h
  rw [parseForm]
  cases kind with
  | atom a => exact Reading.resume_of_step (Reader.step_atom hopen p a) ts
  | rightParen => exact resume_of_error (hclose rfl) ts
  | dot => exact resume_of_error (hdot rfl) ts
  | leftParen =>
    have hstep := Reading.resume_of_step (Reader.step_leftParen hopen p) ts
    exact (follows_parseItems p [] r.pending r.forms ts).bind hstep rfl fun _ hlist => hlist
  | quote =>
    have hstep := Reading.resume_of_step (Reader.step_quote hopen p) ts
    cases ts with
    | nil => exact hstep
    | cons u us =>
      have hbegins : Begins ⟨.quote p :: r.pending, r.forms⟩ u := begins_quote _ _ _ _
      exact (follows_parseForm _ u us hbegins).bind hstep rfl fun _ hform => hform
termination_by (ts.length + 1, 0)

theorem follows_parseItems (opening : Position) (items : List Form) (stack : List Pending)
    (forms : List Form) (ts : List Token) :
    Follows ⟨.list opening items :: stack, forms⟩ ts (Reader.deliver forms stack)
      (parseItems opening items ts) := by
  match ts with
  | [] =>
    rw [parseItems]
    rfl
  | ⟨.rightParen, p⟩ :: ts =>
    rw [parseItems, close_eq opening (by simp)]
    exact Reading.resume_of_step (Reader.step_rightParen opening p items stack forms) ts
  | ⟨.dot, p⟩ :: ts =>
    rw [parseItems]
    match items, ts with
    | [], ts => rfl
    | item :: items, [] => rfl
    | item :: items, ⟨.rightParen, q⟩ :: ts => rfl
    | item :: items, ⟨.atom _, q⟩ :: ts | item :: items, ⟨.leftParen, q⟩ :: ts
    | item :: items, ⟨.quote, q⟩ :: ts | item :: items, ⟨.dot, q⟩ :: ts =>
      refine (follows_parseForm _ _ ts (begins_dot opening p (item :: items) stack forms ⟨_, q⟩
        (by simp))).bind rfl rfl fun tail htail => ?_
      exact (follows_closeDotted opening p item items tail.form stack forms tail.rest).bind htail rfl
        fun _ hlist => hlist
  | ⟨.atom _, p⟩ :: ts | ⟨.leftParen, p⟩ :: ts | ⟨.quote, p⟩ :: ts =>
    rw [parseItems]
    refine (follows_parseForm _ _ ts (begins_list opening items stack forms ⟨_, p⟩
      (by simp) (by simp))).bind rfl rfl fun ⟨f, rest, _⟩ hf => ?_
    exact (follows_parseItems opening (f :: items) stack forms rest).bind hf rfl fun _ hlist => hlist
termination_by (ts.length, 1)

end

theorem follows_top (earlier : List Form) {ts : List Token} (h : ¬ ts.isEmpty) :
    Follows ⟨[], earlier⟩ ts (fun f => ⟨[], f :: earlier⟩) (parseForm ts) := by
  cases ts with
  | nil => exact absurd rfl h
  | cons t ts => exact follows_parseForm ⟨[], earlier⟩ t ts (begins_top earlier t)

/-- From the top level on, the reader gives what the descent gives, behind the forms it has. -/
theorem resume_eq (earlier : List Form) (ts : List Token) :
    ∃ e, Reading.resume ⟨[], earlier⟩ ts = ⟨earlier.reverse ++ (forms ts).1, e⟩ ∧
      (forms ts).2 = e.map Failure.malformed := by
  fun_induction forms ts generalizing earlier with
  | case1 ts hnone =>
    obtain rfl := List.isEmpty_iff.1 hnone
    exact ⟨none, by simp [Reading.resume, Reader.unfinished?], rfl⟩
  | case2 ts hsome failure hfailure =>
    have hform := follows_top earlier hsome
    rw [hfailure] at hform
    cases failure with
    | malformed e => exact ⟨some e, hform.trans (by simp), rfl⟩
    | defect d => exact hform.elim
  | case3 ts hsome f rest hshorter hparsed fs failure hrest ih =>
    have hform := follows_top earlier hsome
    rw [hparsed] at hform
    obtain ⟨e, hresume, herror⟩ := ih (f :: earlier)
    rw [hrest] at hresume herror
    exact ⟨e, hform.trans (by simpa using hresume), herror⟩

/-- On every row of tokens the descent gives the forms and the error that the reader gives. -/
theorem forms_eq (ts : List Token) :
    forms ts = ((Reading.ofTokens ts).forms, (Reading.ofTokens ts).error.map Failure.malformed) := by
  obtain ⟨e, hresume, herror⟩ := resume_eq [] ts
  unfold Reading.ofTokens
  rw [hresume, ← herror]
  rfl

end Descent

end Lisplet
