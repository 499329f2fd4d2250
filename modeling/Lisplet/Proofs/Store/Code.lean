/-
# Lisplet.Proofs.Store.Code -- code and data in a store

Of the pairs that a form is read into, those on a way that enters no rest behind the symbol `quote` are
its code (`IsCode`); the others are data, which a quotation hands out.  A store keeps code and data
apart (`Apart`) when nothing but code leads to code: not the data, not what is quoted, not a table or a
frame.  Then no value that is data reaches code (`Apart.not_reaches`).

A form that is read takes pairs of its own, each of them in one place of the tree, so its code and what
it quotes have no pair in common and the store is kept apart (`Apart.read`).  To see this the pairs are
counted: those of a form lie side by side, the halves before the whole.
-/

import Mathlib.Tactic
import Lisplet.Proofs.Store.Contents
import Lisplet.Proofs.Store.Forms

namespace Lisplet

theorem CellId.eq_mk_iff {c : CellId} {n : Nat} : c = ⟨n⟩ ↔ c.index = n := by
  cases c
  simp

namespace Store

/-! ## Code -/

/-- The pair `c` is code of a form: there is a way to it that enters no rest behind the symbol
`quote`. -/
inductive IsCode (s : Store) (c : CellId) : Value → Prop
  | here {v : Value} (h : v.datum = .pair c) : IsCode s c v
  | car {v : Value} {d : CellId} (h : v.datum = .pair d) (hcar : IsCode s c (s.cell d).car) :
      IsCode s c v
  | cdr {v rest : Value} {d : CellId} (h : v.datum = .pair d)
      (hquote : (s.cell d).car.isSymbol "quote" = false) (hcdr : (s.cell d).cdr = some rest)
      (hrest : IsCode s c rest) : IsCode s c v

/-- The pair `c` is code of one of some forms. -/
def IsCodeOf (s : Store) (forms : List Value) (c : CellId) : Prop := ∃ v ∈ forms, s.IsCode c v

/-- There is a way to the pair `c` through the halves of pairs and the entries of tables. -/
inductive Reaches (s : Store) (c : CellId) : Value → Prop
  | here {v : Value} (h : v.datum = .pair c) : Reaches s c v
  | car {v : Value} {d : CellId} (h : v.datum = .pair d) (hcar : Reaches s c (s.cell d).car) :
      Reaches s c v
  | cdr {v rest : Value} {d : CellId} (h : v.datum = .pair d) (hcdr : (s.cell d).cdr = some rest)
      (hrest : Reaches s c rest) : Reaches s c v
  | entry {v w : Value} {t : TableId} {key : HashKey} (h : v.datum = .hash t)
      (hkey : (s.table t).find? key = some w) (hentry : Reaches s c w) : Reaches s c v

variable {s t : Store} {c d : CellId} {v : Value} {Code Code' : CellId → Prop}

theorem isCode_pair_iff (h : v.datum = .pair d) :
    s.IsCode c v ↔ c = d ∨ s.IsCode c (s.cell d).car ∨
      ((s.cell d).car.isSymbol "quote" = false ∧ ∃ rest ∈ (s.cell d).cdr, s.IsCode c rest) := by
  constructor
  · intro hcode
    cases hcode with
    | here h' =>
      rw [h] at h'
      exact Or.inl (Datum.pair.inj h').symm
    | car h' hcar =>
      obtain rfl := Datum.pair.inj (h.symm.trans h')
      exact Or.inr (Or.inl hcar)
    | cdr h' hquote hcdr hrest =>
      obtain rfl := Datum.pair.inj (h.symm.trans h')
      exact Or.inr (Or.inr ⟨hquote, _, hcdr, hrest⟩)
  · rintro (rfl | hcar | ⟨hquote, rest, hcdr, hrest⟩)
    · exact .here h
    · exact .car h hcar
    · exact .cdr h hquote hcdr hrest

theorem not_isCode (h : ∀ d, v.datum ≠ .pair d) : ¬ s.IsCode c v := by
  intro hcode
  cases hcode with
  | here h' | car h' | cdr h' => exact h _ h'

theorem isCode_restOf : (∃ rest ∈ restOf v, s.IsCode c rest) ↔ s.IsCode c v := by
  unfold restOf
  split
  · have hnil : ∀ d, v.datum ≠ .pair d := by
      intro d hd
      simp_all [Value.isNil]
    simp [not_isCode hnil]
  · simp

/-! ## Apart -/

/-- A pair that exists and is no code. -/
def Data (s : Store) (Code : CellId → Prop) (c : CellId) : Prop := c.index < s.cells.size ∧ ¬ Code c

/-- Nothing but code leads to code, and where code quotes it does not do so either. -/
structure Apart (s : Store) (Code : CellId → Prop) : Prop where
  made : ∀ c, Code c → c.index < s.cells.size
  content : ∀ i, (∀ c, i = .cell c → ¬ Code c) → (s.content i).Within (s.Data Code)
  quoted : ∀ c, (s.cell c).car.isSymbol "quote" = true →
    ∀ rest ∈ (s.cell c).cdr, rest.Within (s.Data Code)

/-- No data reaches code. -/
theorem Apart.not_reaches (h : s.Apart Code) (hv : v.Within (s.Data Code)) (hc : Code c) :
    ¬ s.Reaches c v := by
  intro hreach
  induction hreach with
  | here hd => exact (hv c hd).2 hc
  | car hd _ ih => exact ih (h.content (.cell _) (by rintro _ ⟨⟩; exact (hv _ hd).2)).1
  | cdr hd hcdr _ ih => exact ih ((h.content (.cell _) (by rintro _ ⟨⟩; exact (hv _ hd).2)).2 _ hcdr)
  | entry hd hkey _ ih => exact ih (h.content (.table _) (by rintro _ ⟨⟩) _ _ hkey)

/-- Data stays data while the store grows and no pair that exists becomes code. -/
theorem data_mono (hsize : s.cells.size ≤ t.cells.size)
    (hcode : ∀ c, Code' c → Code c ∨ s.cells.size ≤ c.index) : ∀ c, s.Data Code c → t.Data Code' c := by
  rintro c ⟨hc, hdata⟩
  refine ⟨by omega, fun hcode' => ?_⟩
  rcases hcode c hcode' with hold | hnew
  · exact hdata hold
  · omega

namespace Apart

theorem empty (h : ∀ c, ¬ Code c) : Apart {} Code := by
  have hcell (c : CellId) : Store.cell {} c = {} := cell_of_size_le (Nat.zero_le _)
  refine ⟨fun c hc => absurd hc (h c), fun i _ => ?_, fun c _ => ?_⟩
  · cases i with
    | cell c =>
      show (Content.cell (Store.cell {} c)).Within _
      rw [hcell]
      exact ⟨.nil, fun _ h => by cases h⟩
    | table t => exact fun _ _ h => by cases h
    | closure k => trivial
    | frame f => exact fun _ _ h => by cases h
  · rw [hcell]
    exact fun _ h => by cases h

/-- A store stays apart under a change after which everything is as it was or holds data only. -/
theorem of_content_cases (h : s.Apart Code) (hsize : s.cells.size ≤ t.cells.size)
    (hcases : ∀ i, (t.content i).Within (s.Data Code) ∨ t.content i = s.content i) : t.Apart Code := by
  have hmono : ∀ c, s.Data Code c → t.Data Code c := data_mono hsize fun c hc => Or.inl hc
  refine ⟨fun c hc => lt_of_lt_of_le (h.made c hc) hsize, fun i hi => ?_, fun c hquote => ?_⟩
  · rcases hcases i with hdata | heq
    · exact hdata.mono hmono
    · rw [heq]
      exact (h.content i hi).mono hmono
  · rcases hcases (.cell c) with hdata | heq
    · exact (hdata.mono hmono).2
    · have hcell : t.cell c = s.cell c := Content.cell.inj heq
      rw [hcell] at hquote ⊢
      exact fun rest hrest => (h.quoted c hquote rest hrest).mono hmono

theorem adds (h : s.Apart Code) {i : Ident} {x : Content} (hadds : s.Adds i x t)
    (hx : x.Within (s.Data Code)) : t.Apart Code := by
  refine h.of_content_cases (size_le_of_holds fun j hj => (hadds.holds j).2 (Or.inl hj)) fun j => ?_
  rcases hadds.content_cases j with ⟨-, hself⟩ | hother
  · exact Or.inl (hself ▸ hx)
  · exact Or.inr hother

theorem sets (h : s.Apart Code) {i : Ident} {x : Content} (hsets : s.Sets i x t)
    (hx : x.Within (s.Data Code)) : t.Apart Code := by
  refine h.of_content_cases (size_le_of_holds fun j hj => (hsets.holds j).2 hj) fun j => ?_
  rcases hsets.content_cases j with ⟨-, -, hself⟩ | hother
  · exact Or.inl (hself ▸ hx)
  · exact Or.inr hother

end Apart

end Store

/-! ## The pairs of a form -/

namespace Form

/-- The number of pairs in a tree. -/
def pairs : Form → Nat
  | .atom _ _ | .empty _ => 0
  | .single _ car => car.pairs + 1
  | .pair _ car cdr => car.pairs + cdr.pairs + 1

/-- Is it the symbol `quote`? -/
def isQuote : Form → Bool
  | .atom _ (.symbol name) => name == "quote"
  | _ => false

/-- With the pairs of a tree counted from `n` on, the halves before the whole, the pair with number `i`
is code.  Nothing is code where the tree as a whole is quoted. -/
def CodeAt (i : Nat) : Form → Bool → Nat → Prop
  | .atom _ _, _, _ | .empty _, _, _ => False
  | .single _ car, quoted, n => (i = n + car.pairs ∧ quoted = false) ∨ CodeAt i car quoted n
  | .pair _ car cdr, quoted, n =>
    (i = n + car.pairs + cdr.pairs ∧ quoted = false) ∨ CodeAt i car quoted n ∨
      CodeAt i cdr (quoted || car.isQuote) (n + car.pairs)

variable {i n : Nat} {quoted : Bool} {f : Form}

theorem CodeAt.bounds (h : f.CodeAt i quoted n) : n ≤ i ∧ i < n + f.pairs := by
  induction f generalizing quoted n with
  | atom | empty => exact h.elim
  | single p car ih =>
    rcases h with ⟨rfl, -⟩ | hcar
    · simp only [pairs]
      omega
    · have := ih hcar
      simp only [pairs]
      omega
  | pair p car cdr ihcar ihcdr =>
    rcases h with ⟨rfl, -⟩ | hcar | hcdr
    · simp only [pairs]
      omega
    · have := ihcar hcar
      simp only [pairs]
      omega
    · have := ihcdr hcdr
      simp only [pairs]
      omega

theorem not_codeAt_quoted : ¬ f.CodeAt i true n := by
  induction f generalizing n with
  | atom | empty => exact id
  | single p car ih => simpa [CodeAt] using ih
  | pair p car cdr ihcar ihcdr => simpa [CodeAt] using ⟨ihcar, ihcdr⟩

end Form

namespace Store

variable {s t : Store} {Code : CellId → Prop} {c : CellId}

theorem size_ofForm (file : String) (f : Form) (s : Store) :
    (s.ofForm file f).2.cells.size = s.cells.size + f.pairs := by
  induction f generalizing s with
  | atom | empty => rfl
  | single p car ih => simp [ofForm, cons, Form.pairs, ih, Nat.add_assoc]
  | pair p car cdr ihcar ihcdr => simp [ofForm, cons, Form.pairs, ihcar, ihcdr, Nat.add_assoc]

theorem isSymbol_ofForm (file : String) (f : Form) (s : Store) :
    (s.ofForm file f).1.isSymbol "quote" = f.isQuote := by
  cases f with
  | atom p a => cases a <;> simp [ofForm, Form.isQuote, Value.isSymbol, Value.symbol?]
  | empty p => rfl
  | single p car => rfl
  | pair p car cdr => rfl

/-- The pair that a form begins with is one of its own. -/
theorem within_ofForm (file : String) (f : Form) (s : Store) :
    (s.ofForm file f).1.Within fun c => s.cells.size ≤ c.index ∧ c.index < s.cells.size + f.pairs := by
  intro c hc
  cases f with
  | atom | empty => cases hc
  | single p car =>
    cases hc
    simp only [size_ofForm, Form.pairs]
    omega
  | pair p car cdr =>
    cases hc
    simp only [size_ofForm, Form.pairs]
    omega

/-! Where the pairs of a form are, in any store that still holds them. -/

section Layout

variable {file : String} {p : Position} {car cdr : Form}

theorem ofForm_single (ht : (s.ofForm file (.single p car)).2.Extends t) :
    (s.ofForm file (.single p car)).1.datum = .pair ⟨s.cells.size + car.pairs⟩ ∧
      t.cell ⟨s.cells.size + car.pairs⟩ = ⟨(s.ofForm file car).1, none⟩ ∧
      (s.ofForm file car).2.Extends t := by
  have hself := cell_cons_self (s.ofForm file car).2 (s.ofForm file car).1 .nil
  have hadds := adds_cons (s.ofForm file car).2 (s.ofForm file car).1 .nil
  rw [size_ofForm] at hself
  refine ⟨?_, ?_, hadds.extends.trans ht⟩
  · simp only [ofForm, cons, size_ofForm, Value.withLocation]
  · rw [(ht.cell_eq _).2]
    · exact hself
    · simp only [size_ofForm, Form.pairs]
      omega

theorem ofForm_pair (ht : (s.ofForm file (.pair p car cdr)).2.Extends t) :
    (s.ofForm file (.pair p car cdr)).1.datum = .pair ⟨s.cells.size + car.pairs + cdr.pairs⟩ ∧
      t.cell ⟨s.cells.size + car.pairs + cdr.pairs⟩ =
        ⟨(s.ofForm file car).1, restOf ((s.ofForm file car).2.ofForm file cdr).1⟩ ∧
      (s.ofForm file car).2.Extends t ∧ ((s.ofForm file car).2.ofForm file cdr).2.Extends t := by
  have hself := cell_cons_self ((s.ofForm file car).2.ofForm file cdr).2 (s.ofForm file car).1
    ((s.ofForm file car).2.ofForm file cdr).1
  have hadds := adds_cons ((s.ofForm file car).2.ofForm file cdr).2 (s.ofForm file car).1
    ((s.ofForm file car).2.ofForm file cdr).1
  rw [size_ofForm, size_ofForm] at hself
  have hcdr := hadds.extends.trans ht
  refine ⟨?_, ?_, (extends_ofForm file cdr _).trans hcdr, hcdr⟩
  · simp only [ofForm, cons, size_ofForm, Value.withLocation]
  · rw [(ht.cell_eq _).2]
    · exact hself
    · simp only [size_ofForm, Form.pairs]
      omega

end Layout

/-- The code of a form, counted. -/
theorem isCode_ofForm (file : String) (f : Form) (s : Store) (ht : (s.ofForm file f).2.Extends t) :
    t.IsCode c (s.ofForm file f).1 ↔ f.CodeAt c.index false s.cells.size := by
  induction f generalizing s with
  | atom | empty => exact ⟨fun h => absurd h (not_isCode fun _ h => by cases h), False.elim⟩
  | single p car ih =>
    obtain ⟨hdatum, hcell, hcar⟩ := ofForm_single ht
    rw [isCode_pair_iff hdatum, hcell, ih s hcar]
    simp [Form.CodeAt, CellId.eq_mk_iff]
  | pair p car cdr ihcar ihcdr =>
    obtain ⟨hdatum, hcell, hcar, hcdr⟩ := ofForm_pair ht
    rw [isCode_pair_iff hdatum, hcell]
    simp only [isCode_restOf, ihcar s hcar, ihcdr _ hcdr, size_ofForm, isSymbol_ofForm,
      CellId.eq_mk_iff, Form.CodeAt, Bool.false_or, and_true]
    cases hquote : car.isQuote with
    | true => simp [Form.not_codeAt_quoted]
    | false => simp

/-- What stands in the pair `c` is data, unless it is code, and what it quotes is data. -/
structure SealedAt (s : Store) (Code : CellId → Prop) (c : CellId) : Prop where
  content : ¬ Code c → (Content.cell (s.cell c)).Within (s.Data Code)
  quoted : (s.cell c).car.isSymbol "quote" = true → ∀ rest ∈ (s.cell c).cdr, rest.Within (s.Data Code)

/-- The pairs of `f` from `n` on, and no others among them, are code. -/
def Counts (Code : CellId → Prop) (f : Form) (quoted : Bool) (n : Nat) : Prop :=
  ∀ c : CellId, n ≤ c.index → c.index < n + f.pairs → (Code c ↔ f.CodeAt c.index quoted n)

theorem Counts.single {p : Position} {car : Form} {quoted : Bool} {n : Nat}
    (h : Counts Code (.single p car) quoted n) :
    (Code ⟨n + car.pairs⟩ ↔ quoted = false) ∧ Counts Code car quoted n := by
  constructor
  · have hout : ¬ car.CodeAt (n + car.pairs) quoted n := fun hcar => by
      have := hcar.bounds
      omega
    rw [h ⟨n + car.pairs⟩ (by simp) (by simp [Form.pairs])]
    simp [Form.CodeAt, hout]
  · intro c hc hc'
    have hne : c.index ≠ n + car.pairs := by omega
    rw [h c hc (by simp only [Form.pairs]; omega)]
    simp [Form.CodeAt, hne]

theorem Counts.pair {p : Position} {car cdr : Form} {quoted : Bool} {n : Nat}
    (h : Counts Code (.pair p car cdr) quoted n) :
    (Code ⟨n + car.pairs + cdr.pairs⟩ ↔ quoted = false) ∧ Counts Code car quoted n ∧
      Counts Code cdr (quoted || car.isQuote) (n + car.pairs) := by
  refine ⟨?_, fun c hc hc' => ?_, fun c hc hc' => ?_⟩
  · have hcar : ¬ car.CodeAt (n + car.pairs + cdr.pairs) quoted n := fun hcar => by
      have := hcar.bounds
      omega
    have hcdr : ¬ cdr.CodeAt (n + car.pairs + cdr.pairs) (quoted || car.isQuote) (n + car.pairs) :=
      fun hcdr => by
        have := hcdr.bounds
        omega
    rw [h ⟨n + car.pairs + cdr.pairs⟩ (by simp only; omega) (by simp only [Form.pairs]; omega)]
    simp [Form.CodeAt, hcar, hcdr]
  · have hne : c.index ≠ n + car.pairs + cdr.pairs := by omega
    have hcdr : ¬ cdr.CodeAt c.index (quoted || car.isQuote) (n + car.pairs) := fun hcdr => by
      have := hcdr.bounds
      omega
    rw [h c hc (by simp only [Form.pairs]; omega)]
    simp [Form.CodeAt, hne, hcdr]
  · have hne : c.index ≠ n + car.pairs + cdr.pairs := by omega
    have hcar : ¬ car.CodeAt c.index quoted n := fun hcar => by
      have := hcar.bounds
      omega
    rw [h c (by omega) (by simp only [Form.pairs]; omega)]
    simp [Form.CodeAt, hne, hcar]

/-- A form that is quoted as a whole is data. -/
theorem Counts.within_data {file : String} {f : Form} {quoted : Bool}
    (h : Counts Code f quoted s.cells.size)
    (hquoted : quoted = true) (hsize : s.cells.size + f.pairs ≤ t.cells.size) :
    (s.ofForm file f).1.Within (t.Data Code) := by
  refine (within_ofForm file f s).mono fun c ⟨hc, hc'⟩ => ⟨by omega, ?_⟩
  rw [h c hc hc', hquoted]
  exact Form.not_codeAt_quoted

/-- The pairs of a form lead to pairs of the form only, and out of its code where it quotes. -/
theorem sealed_ofForm (file : String) (f : Form) {quoted : Bool} {s : Store}
    (ht : (s.ofForm file f).2.Extends t) (hcode : Counts Code f quoted s.cells.size)
    (hc : s.cells.size ≤ c.index) (hc' : c.index < s.cells.size + f.pairs) : t.SealedAt Code c := by
  have hsize : s.cells.size + f.pairs ≤ t.cells.size := by
    rw [← size_ofForm file f s]
    exact size_le_of_holds fun i hi => (ht i hi).1
  induction f generalizing quoted s with
  | atom | empty =>
    simp only [Form.pairs] at hc'
    omega
  | single p car ih =>
    obtain ⟨-, hcell, hcar⟩ := ofForm_single ht
    obtain ⟨hroot, hcodecar⟩ := hcode.single
    simp only [Form.pairs] at hc' hsize
    by_cases hself : c = ⟨s.cells.size + car.pairs⟩
    · subst hself
      refine ⟨fun hdata => ?_, fun _ => ?_⟩ <;> rw [hcell]
      · have hquoted : quoted = true := by simpa [hroot] using hdata
        exact ⟨hcodecar.within_data hquoted (by omega), fun _ h => by cases h⟩
      · exact fun _ h => by cases h
    · rw [CellId.eq_mk_iff] at hself
      exact ih hcar hcodecar hc (by omega) (by omega)
  | pair p car cdr ihcar ihcdr =>
    obtain ⟨-, hcell, hcar, hcdr⟩ := ofForm_pair ht
    obtain ⟨hroot, hcodecar, hcodecdr⟩ := hcode.pair
    simp only [Form.pairs] at hc' hsize
    have hnext := size_ofForm file car s
    rw [← hnext] at hcodecdr
    by_cases hself : c = ⟨s.cells.size + car.pairs + cdr.pairs⟩
    · subst hself
      refine ⟨fun hdata => ?_, fun hquote => ?_⟩ <;> rw [hcell]
      · have hquoted : quoted = true := by simpa [hroot] using hdata
        exact ⟨hcodecar.within_data hquoted (by omega),
          within_restOf (hcodecdr.within_data (by simp [hquoted]) (by omega))⟩
      · rw [hcell, isSymbol_ofForm] at hquote
        exact within_restOf (hcodecdr.within_data (by simp [hquote]) (by omega))
    · rw [CellId.eq_mk_iff] at hself
      by_cases hleft : c.index < s.cells.size + car.pairs
      · exact ihcar hcar hcodecar hc hleft (by omega)
      · exact ihcdr hcdr hcodecdr (by omega) (by omega) (by omega)

/-! ## The pairs of a text -/

/-- The code of forms that were read together lies among their pairs. -/
theorem IsCodeOf.bounds {file : String} {fs : List Form} {s : Store}
    (h : t.IsCodeOf (s.ofForms file fs).1 c) (ht : (s.ofForms file fs).2.Extends t) :
    s.cells.size ≤ c.index ∧ c.index < (s.ofForms file fs).2.cells.size := by
  induction fs generalizing s with
  | nil =>
    obtain ⟨v, hv, -⟩ := h
    cases hv
  | cons f fs ih =>
    have hrest := extends_ofForms file fs (s.ofForm file f).2
    have hgrow := size_le_of_holds fun i hi => (hrest i hi).1
    have hsize := size_ofForm file f s
    show _ ∧ _ < ((s.ofForm file f).2.ofForms file fs).2.cells.size
    obtain ⟨v, hv, hcode⟩ := h
    rcases List.mem_cons.1 hv with rfl | hv
    · have hbounds := ((isCode_ofForm file f s (hrest.trans ht)).1 hcode).bounds
      omega
    · have hbounds := ih ⟨v, hv, hcode⟩ ht
      omega

/-- All pairs of forms that were read together are sealed. -/
theorem sealed_ofForms (file : String) (fs : List Form) {s : Store}
    (ht : (s.ofForms file fs).2.Extends t)
    (hcode : ∀ c : CellId, s.cells.size ≤ c.index → c.index < (s.ofForms file fs).2.cells.size →
      (Code c ↔ t.IsCodeOf (s.ofForms file fs).1 c))
    (hc : s.cells.size ≤ c.index) (hc' : c.index < (s.ofForms file fs).2.cells.size) :
    t.SealedAt Code c := by
  induction fs generalizing s with
  | nil => exact absurd hc' (not_lt.2 hc)
  | cons f fs ih =>
    have hrest := extends_ofForms file fs (s.ofForm file f).2
    have hgrow := size_le_of_holds fun i hi => (hrest i hi).1
    have hsize := size_ofForm file f s
    have hsplit : ∀ d, t.IsCodeOf (s.ofForms file (f :: fs)).1 d ↔
        f.CodeAt d.index false s.cells.size ∨
          t.IsCodeOf ((s.ofForm file f).2.ofForms file fs).1 d := by
      intro d
      rw [← isCode_ofForm file f s (hrest.trans ht)]
      simp [ofForms, IsCodeOf]
    replace hc' : c.index < ((s.ofForm file f).2.ofForms file fs).2.cells.size := hc'
    replace hcode : ∀ d : CellId, s.cells.size ≤ d.index →
        d.index < ((s.ofForm file f).2.ofForms file fs).2.cells.size →
        (Code d ↔ t.IsCodeOf (s.ofForms file (f :: fs)).1 d) := hcode
    by_cases hfirst : c.index < (s.ofForm file f).2.cells.size
    · -- the code of the later forms lies behind the pairs of the first one
      have hcounts : Counts Code f false s.cells.size := by
        intro d hd hd'
        rw [hcode d hd (by omega), hsplit]
        refine or_iff_left fun hlater => ?_
        have := hlater.bounds ht
        omega
      exact sealed_ofForm file f (hrest.trans ht) hcounts hc (by omega)
    · refine ih ht (fun d hd hd' => ?_) (by omega) hc'
      rw [hcode d (by omega) hd', hsplit]
      refine or_iff_right fun hfirst => ?_
      have := hfirst.bounds
      omega

/-- Reading touches neither tables nor closures nor frames. -/
theorem content_ofForm (file : String) (f : Form) (s : Store) {i : Ident} (hi : ∀ c, i ≠ .cell c) :
    (s.ofForm file f).2.content i = s.content i := by
  induction f generalizing s with
  | atom | empty => rfl
  | single p car ih => exact ((adds_cons _ _ _).other i (hi _)).trans (ih s)
  | pair p car cdr ihcar ihcdr =>
    exact ((adds_cons _ _ _).other i (hi _)).trans ((ihcdr _).trans (ihcar s))

theorem content_ofForms (file : String) (fs : List Form) (s : Store) {i : Ident}
    (hi : ∀ c, i ≠ .cell c) : (s.ofForms file fs).2.content i = s.content i := by
  induction fs generalizing s with
  | nil => rfl
  | cons f fs ih => exact (ih _).trans (content_ofForm file f s hi)

theorem IsCodeOf.bounds_of_read {file : String} {fs : List Form} {forms : List Value}
    (h : t.IsCodeOf forms c) (hread : s.ofForms file fs = (forms, t)) :
    s.cells.size ≤ c.index ∧ c.index < t.cells.size := by
  have hforms : forms = (s.ofForms file fs).1 := by rw [hread]
  have ht : t = (s.ofForms file fs).2 := by rw [hread]
  subst hforms ht
  exact h.bounds (Extends.refl _)

/-- A text that is read brings its own code, and the store is kept apart from that too. -/
theorem Apart.read (h : s.Apart Code) {file : String} {fs : List Form} {forms : List Value}
    (hread : s.ofForms file fs = (forms, t)) : t.Apart fun c => Code c ∨ t.IsCodeOf forms c := by
  have hextends : s.Extends t := by simpa only [hread] using extends_ofForms file fs s
  have hsize := size_le_of_holds fun i hi => (hextends i hi).1
  have hmono : ∀ c, s.Data Code c → t.Data (fun c => Code c ∨ t.IsCodeOf forms c) c :=
    data_mono hsize fun c hc => hc.imp_right fun hnew => (hnew.bounds_of_read hread).1
  have hsealed : ∀ c, t.SealedAt (fun c => Code c ∨ t.IsCodeOf forms c) c := by
    intro c
    by_cases hold : c.index < s.cells.size
    · have hcell := (hextends.cell_eq hold).2
      refine ⟨fun hc => ?_, fun hquote => ?_⟩
      · rw [hcell]
        exact (h.content (.cell c) (by rintro _ ⟨⟩; exact fun hcode => hc (Or.inl hcode))).mono hmono
      · rw [hcell] at hquote ⊢
        exact fun rest hrest => (h.quoted c hquote rest hrest).mono hmono
    · by_cases hnew : c.index < t.cells.size
      · have hself : (s.ofForms file fs).2.Extends t := by
          rw [hread]
          exact .refl t
        refine sealed_ofForms file fs hself ?_ (by omega) (by rwa [hread])
        rw [hread]
        exact fun d hd _ => or_iff_right fun hcode => absurd (h.made d hcode) (not_lt.2 hd)
      · have hempty : t.cell c = {} := cell_of_size_le (not_lt.1 hnew)
        refine ⟨fun _ => ?_, fun _ => ?_⟩ <;> rw [hempty]
        · exact ⟨.nil, fun _ h => by cases h⟩
        · exact fun _ h => by cases h
  refine ⟨?_, fun i hi => ?_, fun c => (hsealed c).quoted⟩
  · rintro c (hold | hnew)
    · exact lt_of_lt_of_le (h.made c hold) hsize
    · exact (hnew.bounds_of_read hread).2
  · by_cases hcell : ∃ c, i = .cell c
    · obtain ⟨c, rfl⟩ := hcell
      exact (hsealed c).content (hi c rfl)
    · have hother : t.content i = s.content i := by
        simpa only [hread] using content_ofForms file fs s fun c hc => hcell ⟨c, hc⟩
      rw [hother]
      exact (h.content i fun c hc => absurd ⟨c, hc⟩ hcell).mono hmono

end Store

end Lisplet
