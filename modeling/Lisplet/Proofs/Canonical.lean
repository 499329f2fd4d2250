/-
# Lisplet.Proofs.Canonical -- written forms are canonical

A text that can be read has a canonical form: its forms as the printer writes them, one behind the
other with a blank between two of them.  The canonical form reads as the same forms, and it is its own
canonical form (`readSource_joined`).

One condition is on the text.  A decimal can be too large for any finite number, and an infinity is
written as a word that reads as a symbol.  All else that a text can hold reads back: the atoms by
`tokenize_returns`, and the trees over them because no rest of a form is the empty list.
-/

import Mathlib.Tactic
import Lisplet.Proofs.Evaluator.Simulates
import Lisplet.Proofs.Form.Grammar
import Lisplet.Proofs.Lines
import Lisplet.Proofs.RoundTrip
import Lisplet.Proofs.Token.Produced

namespace Lisplet

/-! ## Forms of a text -/

/-- Is the token a decimal that is too large for a finite number? -/
def Token.overflows (t : Token) : Bool :=
  match t.kind with
  | .atom a => a.isInfinite
  | _ => false

/-- Does a text hold a decimal that is too large for a finite number? -/
def overflows (text : String) : Bool :=
  match tokenize text with
  | .ok tokens => tokens.any Token.overflows
  | .error _ => false

theorem Form.readable_cons (p : Position) {car : Form} (hcar : car.Readable) {cdr : Option Form}
    (hcdr : ∀ f ∈ cdr, f.Readable) : (Form.cons p car cdr).Readable := by
  match cdr with
  | none | some (.empty _) => exact .single hcar
  | some (.atom _ _) | some (.single _ _) | some (.pair _ _ _) =>
    exact .pair hcar (hcdr _ rfl) fun _ h => by cases h

namespace Phrase

/-- All atoms of the phrase read back. -/
def AtomsReadable (f : Phrase) : Prop :=
  ∀ t ∈ f.tokens, ∀ a, t.kind = .atom a → a.Readable

theorem readable_chain {fs : List Phrase} (hfs : ∀ f ∈ fs, (form f).Readable) {rest : Option Form}
    (hrest : ∀ f ∈ rest, f.Readable) : ∀ f ∈ chain fs rest, f.Readable := by
  induction fs with
  | nil => exact hrest
  | cons f fs ih =>
    obtain ⟨hf, hfs⟩ := List.forall_mem_cons.1 hfs
    rintro g ⟨⟩
    exact Form.readable_cons _ hf (ih hfs)

theorem readable_quote : (Atom.symbol "quote").Readable :=
  ⟨by decide, Scan.not_delimiter_of_all rfl, by decide, by decide,
    (Word.decimal?_eq_none_iff _).1 (by decide), (Word.integer?_eq_none_iff _).1 (by decide)⟩

theorem mem_allTokens {f : Phrase} {fs : List Phrase} (hf : f ∈ fs) {t : Token} (ht : t ∈ f.tokens) :
    t ∈ allTokens fs := by
  rw [allTokens_eq_flatMap]
  exact List.mem_flatMap.2 ⟨f, hf, ht⟩

/-- A phrase over atoms that read back means a tree that reads back. -/
theorem readable_form (f : Phrase) (h : f.AtomsReadable) : (form f).Readable := by
  induction f using induct with
  | atom p a => exact .atom (h ⟨.atom a, p⟩ (by simp [tokens]) a rfl)
  | empty p q => exact .empty
  | quote p f ih =>
    have hf := ih fun t ht => h t (by simp [tokens, ht])
    exact .pair (.atom readable_quote) (.single hf) fun _ heq => by cases heq
  | list p f fs q ih ihs =>
    have hf := ih fun t ht => h t (by simp [tokens, ht])
    have hfs : ∀ g ∈ fs, (form g).Readable := fun g hg =>
      ihs g hg fun t ht => h t (by simp [tokens, mem_allTokens hg ht])
    exact Form.readable_cons p hf (readable_chain hfs (by simp))
  | dotted p f fs d t q ih ihs iht =>
    have hf := ih fun u hu => h u (by simp [tokens, hu])
    have hfs : ∀ g ∈ fs, (form g).Readable := fun g hg =>
      ihs g hg fun u hu => h u (by simp [tokens, mem_allTokens hg hu])
    have ht := iht fun u hu => h u (by simp [tokens, hu])
    exact Form.readable_cons p hf (readable_chain hfs (by simpa using ht))

end Phrase

/-- The forms of a text read back from their written form, if no decimal in it is too large. -/
theorem Reading.readable_ofText {text : String} (h : (Reading.ofText text).error = none)
    (hfinite : overflows text = false) : ∀ f ∈ (Reading.ofText text).forms, f.Readable := by
  obtain ⟨fs, htokens, hforms⟩ := Reading.exists_phrases h
  have hreturns := tokenize_returns htokens
  simp only [overflows, htokens, List.any_eq_false] at hfinite
  rw [hforms]
  intro f hf
  obtain ⟨g, hg, rfl⟩ := List.mem_map.1 hf
  refine Phrase.readable_form g fun t ht a ha => ?_
  have hmem : t ∈ Phrase.allTokens fs := Phrase.mem_allTokens hg ht
  exact hreturns t hmem a ha (by simpa [Token.overflows, ha] using hfinite t hmem)

/-! ## Written forms one behind the other -/

/-- Written forms one behind the other, with `separator` between two of them. -/
def Form.joined (separator : Char) (fs : List Form) : String :=
  String.intercalate (String.singleton separator) (fs.map Form.text)

namespace Form

variable {separator : Char} {fs : List Form}

/-- Forms with blanks between them are scanned as the tokens of one after those of the other. -/
theorem reads_joined (hsep : Text.isBlank separator = true) (h : ∀ f ∈ fs, f.Readable) :
    Scan.Reads (joined separator fs).toList (fs.flatMap Form.kinds) := by
  induction fs with
  | nil => exact Scan.continues_nil.reads
  | cons f fs ih =>
    obtain ⟨hf, hfs⟩ := List.forall_mem_cons.1 h
    cases fs with
    | nil => simpa [joined] using (reads_text hf).1
    | cons g fs =>
      have hjoined : (joined separator (f :: g :: fs)).toList =
          f.text.toList ++ separator :: (joined separator (g :: fs)).toList := by
        simp [joined]
      rw [hjoined, List.flatMap_cons]
      exact (reads_text hf).1.append (Scan.continues_blank hsep (ih hfs))

end Form

namespace Reading

/-- The tokens of forms one behind the other are read as these forms in order. -/
theorem resume_flatMap_kinds {fs : List Form} (h : ∀ f ∈ fs, f.Readable) (forms : List Form) :
    Reading.resume ⟨[], forms⟩ (row (fs.flatMap Form.kinds)) =
      ⟨forms.reverse ++ fs.map Form.unplaced, none⟩ := by
  induction fs generalizing forms with
  | nil => simp [row, Reading.resume, Reader.unfinished?]
  | cons f fs ih =>
    obtain ⟨hf, hfs⟩ := List.forall_mem_cons.1 h
    rw [List.flatMap_cons, row_append, (resume_kinds hf).1 _ _ (Reader.open_top forms)]
    show Reading.resume ⟨[], f.unplaced :: forms⟩ _ = _
    rw [ih hfs]
    simp

/-- Written forms with blanks between them read back, one by one and in order. -/
theorem ofText_joined {separator : Char} (hsep : Text.isBlank separator = true) {fs : List Form}
    (h : ∀ f ∈ fs, f.Readable) :
    ∃ gs, Reading.ofText (Form.joined separator fs) = ⟨gs, none⟩ ∧
      gs.map Form.unplaced = fs.map Form.unplaced := by
  obtain ⟨s, hfold, hs⟩ := Form.reads_joined hsep h {} [] ⟨rfl, rfl⟩
  obtain ⟨tokens, hfinish, hkinds⟩ := hs.finish
  have htokens : tokenize (Form.joined separator fs) = .ok tokens := by
    simp [tokenize, hfold, hfinish, bind, Except.bind]
  have hread := Reading.resume_unplaced tokens
  rw [hkinds] at hread
  have hsame := hread.symm.trans (resume_flatMap_kinds h [])
  have hreading : Reading.ofText (Form.joined separator fs) = Reading.resume {} tokens := by
    simp [Reading.ofText, htokens, Reading.ofTokens]
  simp only [Reading.unplaced, Reading.mk.injEq, Option.map_eq_none_iff] at hsame
  exact ⟨_, by rw [hreading, ← hsame.2], hsame.1⟩

end Reading

/-! ## Values -/

theorem Form.Readable.unplaced {f : Form} (h : f.Readable) : f.unplaced.Readable := by
  induction h with
  | atom h => exact .atom h
  | empty => exact .empty
  | single _ ih => exact .single ih
  | pair _ _ hne ih ih' => exact .pair ih ih' (unplaced_ne_empty hne)

namespace Store

variable {s : Store}

/-- Values as they are written one behind the other, with `separator` between two of them. -/
def joined (s : Store) (separator : Char) (vs : List Value) : String :=
  String.intercalate (String.singleton separator) (vs.map s.text)

/-- A value that is a readable tree is readable. -/
theorem Spells.readable {v : Value} {f : Form} (h : s.Spells v f) (hf : f.Readable) : s.Readable v := by
  induction h with
  | nil h => exact .nil h
  | atom h =>
    cases hf with
    | atom ha => exact .atom h ha
  | last h hc hcdr _ ih =>
    cases hf with
    | single hcar => exact .last h hc hcdr (ih hcar)
  | pair h hc hcdr _ hrest ih ih' =>
    cases hf with
    | pair hcar hcdr' hne =>
      exact .pair h hc hcdr (hrest.isNil_eq_false hne) (ih hcar) (ih' hcdr')

/-- Forms that differ from readable trees in positions only make values that are these trees. -/
theorem spells_ofForms {fs gs : List Form} (h : ∀ f ∈ fs, f.Readable)
    (hgs : gs.map Form.unplaced = fs.map Form.unplaced) (file : String) (s : Store) :
    List.Forall₂ (s.ofForms file gs).2.Spells (s.ofForms file gs).1 (fs.map Form.unplaced) := by
  induction gs generalizing fs s with
  | nil =>
    rw [← hgs]
    exact .nil
  | cons g gs ih =>
    cases fs with
    | nil => simp at hgs
    | cons f fs =>
      obtain ⟨hf, hfs⟩ := List.forall_mem_cons.1 h
      obtain ⟨hg, hgs⟩ := List.cons_eq_cons.1 hgs
      have hfirst := spells_ofForm hf hg file s
      exact .cons (hfirst.extends (extends_ofForms file gs _)) (ih hfs hgs _)

/-- Values are written as the trees that they are. -/
theorem joined_of_spells (separator : Char) {vs : List Value} {fs : List Form}
    (h : List.Forall₂ s.Spells vs (fs.map Form.unplaced)) :
    s.joined separator vs = Form.joined separator fs := by
  have htexts : vs.map s.text = fs.map Form.text := by
    induction fs generalizing vs with
    | nil => cases h with | nil => rfl
    | cons f fs ih =>
      cases h with
      | cons hv hvs =>
        rw [List.map_cons, List.map_cons, ih hvs, text_of_spells hv, (Form.text_unplaced f).1]
  rw [joined, Form.joined, htexts]

theorem readable_of_spells {vs : List Value} {fs : List Form} (h : List.Forall₂ s.Spells vs fs)
    (hfs : ∀ f ∈ fs, f.Readable) : ∀ v ∈ vs, s.Readable v := by
  induction h with
  | nil => simp
  | cons hv _ ih =>
    obtain ⟨hf, hfs⟩ := List.forall_mem_cons.1 hfs
    exact List.forall_mem_cons.2 ⟨hv.readable hf, ih hfs⟩

theorem forall₂_sameTree {t : Store} {vs ws : List Value} {fs : List Form}
    (hvs : List.Forall₂ s.Spells vs fs) (hws : List.Forall₂ t.Spells ws fs) :
    List.Forall₂ (SameTree s t) vs ws := by
  induction hvs generalizing ws with
  | nil => cases hws with | nil => exact .nil
  | cons hv _ ih => cases hws with | cons hw hws => exact .cons (hv.sameTree hw) (ih hws)

end Store

/-- A text whose forms are readable trees is read as values that are these trees. -/
theorem readSource_spells {text : String} {fs gs : List Form} (hread : Reading.ofText text = ⟨gs, none⟩)
    (hfs : ∀ f ∈ fs, f.Readable) (hgs : gs.map Form.unplaced = fs.map Form.unplaced) (file : String)
    (state : State) :
    ∃ vs state', readSource text file state = .ok vs state' ∧
      List.Forall₂ state'.store.Spells vs (fs.map Form.unplaced) := by
  have hresult := readSource_eq text file state
  rw [Reading.toExcept_eq_ok.2 hread] at hresult
  exact ⟨_, _, hresult, Store.spells_ofForms hfs hgs file state.store⟩

/-! ## Canonical texts -/

/-- Printing makes a text canonical: the values that a text is read as are readable, and written one
behind the other they are a text that is read as the same trees and is written as it stands. -/
theorem readSource_joined {text : String} (hread : (Reading.ofText text).error = none)
    (hfinite : overflows text = false) {separator : Char} (hsep : Text.isBlank separator = true)
    (file : String) (state : State) :
    ∃ vs state', readSource text file state = .ok vs state' ∧
      (∀ v ∈ vs, state'.store.Readable v) ∧
      ∀ (file₂ : String) (state₂ : State), ∃ ws state₂',
        readSource (state'.store.joined separator vs) file₂ state₂ = .ok ws state₂' ∧
        List.Forall₂ (Store.SameTree state'.store state₂'.store) vs ws ∧
        state₂'.store.joined separator ws = state'.store.joined separator vs := by
  have hreadable := Reading.readable_ofText hread hfinite
  have hreading : Reading.ofText text = ⟨(Reading.ofText text).forms, none⟩ := by rw [← hread]
  obtain ⟨vs, state', hvs, hspells⟩ := readSource_spells hreading hreadable rfl file state
  refine ⟨vs, state', hvs, ?_, fun file₂ state₂ => ?_⟩
  · refine Store.readable_of_spells hspells ?_
    simpa using fun f hf => (hreadable f hf).unplaced
  · have hjoined := Store.joined_of_spells separator hspells
    obtain ⟨gs, hgs, hsame⟩ := Reading.ofText_joined hsep hreadable
    obtain ⟨ws, state₂', hws, hspells₂⟩ := readSource_spells hgs hreadable hsame file₂ state₂
    rw [hjoined]
    exact ⟨ws, state₂', hws, Store.forall₂_sameTree hspells hspells₂,
      Store.joined_of_spells separator hspells₂⟩

/-- A text with an unknown escape, a raw line feed, a dot before a list, a sign alone and a comment. -/
def untidyText : String := "(a . (\"\\q\n\" + -0.50)) ; words\n'#t"

/-- Its forms, with a pair for each element of the list. -/
def untidyForms : List Form :=
  [.pair ⟨1, 1⟩ (.atom ⟨1, 2⟩ (.symbol "a")) (.pair ⟨1, 6⟩ (.atom ⟨1, 7⟩ (.string "\\q\n"))
      (.pair ⟨2, 3⟩ (.atom ⟨2, 3⟩ (.symbol "+"))
        (.single ⟨2, 5⟩ (.atom ⟨2, 5⟩ (.number (.float ⟨0xBFE0000000000000⟩)))))),
    .quoting ⟨3, 1⟩ (.atom ⟨3, 2⟩ (.bool true))]

theorem readSource_joined_untidy :
    (Reading.ofText untidyText).error = none ∧ overflows untidyText = false ∧
      Text.isBlank '\n' = true ∧
      ∃ vs state', readSource untidyText "a.lisp" {} = .ok vs state' ∧
        List.Forall₂ (state'.store.Depicts "a.lisp") vs untidyForms ∧
        vs.map (·.provenance.location) = [⟨"a.lisp", 1, 1⟩, ⟨"a.lisp", 3, 1⟩] ∧
        (∀ v ∈ vs, state'.store.Readable v) ∧
        ∀ (file₂ : String) (state₂ : State), ∃ ws state₂',
          readSource (state'.store.joined '\n' vs) file₂ state₂ = .ok ws state₂' ∧
          List.Forall₂ (Store.SameTree state'.store state₂'.store) vs ws ∧
          state₂'.store.joined '\n' ws = state'.store.joined '\n' vs := by
  have hread : (Reading.ofText untidyText).error = none := by decide +kernel
  have hforms : (Reading.ofText untidyText).toExcept = .ok untidyForms := by decide +kernel
  have hfinite : overflows untidyText = false := by decide +kernel
  have hsep : Text.isBlank '\n' = true := by decide
  obtain ⟨vs, state', hok, hreadable, hagain⟩ := readSource_joined hread hfinite hsep "a.lisp" {}
  have hreads := reads_ofText untidyText "a.lisp"
  rw [hforms] at hreads
  obtain ⟨us, state'', hok', hdepicts⟩ := hreads {}
  cases hok.symm.trans hok'
  have hplaced : List.Forall₂ (fun v f => v.provenance.location = f.position.inFile "a.lisp") vs untidyForms :=
    hdepicts.imp fun v f hv => by rw [hv.provenance]; rfl
  have hlocations := List.forall₂_map_left_iff.2 (List.forall₂_map_right_iff.2 hplaced)
  rw [List.forall₂_eq_eq_eq] at hlocations
  exact ⟨hread, hfinite, hsep, vs, state', hok, hdepicts, hlocations, hreadable, hagain⟩

end Lisplet
