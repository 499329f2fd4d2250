/-
# Lisplet.Proofs.Locations -- locations are authentic

Locations are copied from tokens to forms, from forms to functions and errors, and along with values to
wherever these are stored.  None is ever made up: a location is unknown or that of a token, in a text
that the session has read under the name of the file (`authentic`).  A session reads the text that a
call begins with and the files that programs ask for, which the log tells.

An error that ends the run of a text always has a location, as the forms of a text all have one.  It is
the place of a lexeme: a token, or what could not be scanned.  This is where the limit of 32 bits shows:
the row of a form behind 4294967295 line feeds is counted as zero, and then the form has no location to
give.  So the error has one for certain only if the rows of the text fit.
-/

import Mathlib.Tactic
import Lisplet.Proofs.Evaluator.Stamping
import Lisplet.Proofs.Evaluator.Upheld
import Lisplet.Proofs.KeepGoing

namespace Lisplet

/-! ## Texts that were read -/

/-- The log has come to say that a program asks for the file, since it had `start` entries. -/
def Asks (start : Nat) (log : Array LogEntry) (path : String) : Prop :=
  ∃ i, start ≤ i ∧ log[i]? = some (.loading path)

/-- A session that makes the calls reads `text` under the name `file`: one of the calls begins with it,
or a program asks for the file in the course of the call. -/
def ReadIn (policy : WarnPolicy) (calls : List Call) (file text : String) : Prop :=
  ∃ before call after, calls = before ++ call :: after ∧
    (call.Reads file text ∨ call.host.files file = .ok text ∧
      Asks (Session.ofCalls policy before).state.log.size
        (Session.ofCalls policy (before ++ [call])).state.log file)

theorem ReadIn.append {policy : WarnPolicy} {calls : List Call} {file text : String}
    (h : ReadIn policy calls file text) (more : List Call) :
    ReadIn policy (calls ++ more) file text := by
  obtain ⟨before, call, after, rfl, hread⟩ := h
  exact ⟨before, call, after ++ more, by simp, hread⟩

/-! ## Authentic values -/

/-- The value stands in no text, or where a token of a text stands that was read under that name. -/
def Value.Authentic (Read : String → String → Prop) (v : Value) : Prop :=
  v.provenance.location.row = 0 ∨ ∃ text, Read v.provenance.location.file text ∧
    TokenAt text v.provenance.location.position

/-- The location is the place of a lexeme of a text that was read under that name; its row is zero only
if the rows of that text cannot be counted. -/
def Location.Authentic (Read : String → String → Prop) (l : Location) : Prop :=
  ∃ text, Read l.file text ∧ LexemeAt text l.position ∧ (Text.RowsFit text.toList → 1 ≤ l.row)

/-- All values in the store are authentic. -/
def Store.Authentic (Read : String → String → Prop) (s : Store) : Prop :=
  ∀ i, (s.content i).Each (Value.Authentic Read)

/-- All values in the store are authentic, and so they were at every moment before, together with those
that were read, passed and returned. -/
structure History.Authentic (Read : String → String → Prop) (w : History) : Prop where
  now : w.state.store.Authentic Read
  past : ∀ m ∈ w.moments, m.store.Authentic Read ∧ ∀ v ∈ m.event.shows, v.Authentic Read

theorem LexemeAt.authentic {Read : String → String → Prop} {text : String} {l : Location}
    (h : LexemeAt text l.position) (hread : Read l.file text) : l.Authentic Read :=
  ⟨text, hread, h, fun hfit => h.one_le_row hfit⟩

section Monotone

variable {Read Read' : String → String → Prop} (hR : ∀ file text, Read file text → Read' file text)

include hR

theorem Value.Authentic.mono {v : Value} (h : v.Authentic Read) : v.Authentic Read' := by
  rcases h with hrow | ⟨text, hread, htoken⟩
  · exact .inl hrow
  · exact .inr ⟨text, hR _ _ hread, htoken⟩

theorem Store.Authentic.mono {s : Store} (h : s.Authentic Read) : s.Authentic Read' :=
  fun i => (h i).mono fun _ hv => hv.mono hR

theorem History.Authentic.mono {w : History} (h : w.Authentic Read) : w.Authentic Read' where
  now := h.now.mono hR
  past m hm := ⟨(h.past m hm).1.mono hR, fun v hv => ((h.past m hm).2 v hv).mono hR⟩

end Monotone

theorem Store.Authentic.adds {Read : String → String → Prop} {s t : Store} {i : Ident} {x : Content}
    (h : s.Authentic Read) (hadds : s.Adds i x t) (hx : x.Each (Value.Authentic Read)) :
    t.Authentic Read := by
  intro j
  rcases hadds.content_cases j with ⟨-, hj⟩ | hj
  · rwa [hj]
  · rw [hj]
    exact h j

theorem Store.Authentic.sets {Read : String → String → Prop} {s t : Store} {i : Ident} {x : Content}
    (h : s.Authentic Read) (hsets : s.Sets i x t) (hx : x.Each (Value.Authentic Read)) :
    t.Authentic Read := by
  intro j
  rcases hsets.content_cases j with ⟨-, -, hj⟩ | hj
  · rwa [hj]
  · rw [hj]
    exact h j

theorem History.Authentic.add {Read : String → String → Prop} {w : History} (h : w.Authentic Read)
    {e : Event} (he : ∀ v ∈ e.shows, v.Authentic Read) : (w.add e).Authentic Read :=
  ⟨h.now, List.forall_mem_cons.2 ⟨⟨h.now, he⟩, h.past⟩⟩

/-! ## The standard -/

/-- The texts read so far: those from earlier, and the files asked for since the log had `start`
entries. -/
def ReadSince (host : Host) (Earlier : String → String → Prop) (start : Nat) (w : History)
    (file text : String) : Prop :=
  Earlier file text ∨ host.files file = .ok text ∧ Asks start w.state.log file

/-- The log is never shortened or rewritten. -/
def History.Logs (w w' : History) : Prop :=
  ∀ (i : Nat) entry, w.state.log[i]? = some entry → w'.state.log[i]? = some entry

theorem History.Logs.noted (w : History) (entry : LogEntry) : w.Logs (w.noted entry) := by
  intro i e he
  have hi : i ≠ w.state.log.size := (Array.getElem?_eq_some_iff.1 he).1.ne
  simpa [History.noted, Array.getElem?_push, hi] using he

theorem ReadSince.mono {host : Host} {Earlier : String → String → Prop} {start : Nat} {w w' : History}
    (h : w.Logs w') (file text : String) (hread : ReadSince host Earlier start w file text) :
    ReadSince host Earlier start w' file text := by
  rcases hread with hearlier | ⟨hfile, i, hi, hentry⟩
  · exact .inl hearlier
  · exact .inr ⟨hfile, i, hi, h i _ hentry⟩

/-- Authenticity in the course of a call: of values, and of the locations of errors. -/
def authentic (host : Host) (Earlier : String → String → Prop) (start : Nat) : Standard host where
  Inv w := start ≤ w.state.log.size ∧ w.Authentic (ReadSince host Earlier start w)
  Le := History.Logs
  Meets w v := v.Authentic (ReadSince host Earlier start w)
  Known := ReadSince host Earlier start
  Blame w e := ∀ l, e.location = some l → l.Authentic (ReadSince host Earlier start w)
  refl _ _ _ h := h
  trans h h' i entry hentry := h' i entry (h i entry hentry)
  mono h _ hv := hv.mono (ReadSince.mono h)
  monoKnown := ReadSince.mono
  leaf _ hlocation := .inl (by rw [hlocation]; rfl)
  bound h _ := h
  located _ hform := hform
  placed _ hknown htoken := .inr ⟨_, hknown, htoken⟩
  content h i _ := h.2.now i
  adds h hadds hx _ :=
    ⟨⟨h.1, h.2.now.adds hadds hx, h.2.past⟩, fun _ _ hentry => hentry,
      fun _ _ hlocation => .inl (by rw [hlocation]; rfl), fun _ _ => trivial⟩
  sets h hsets _ hx _ := ⟨⟨h.1, h.2.now.sets hsets hx, h.2.past⟩, fun _ _ hentry => hentry⟩
  add h he := ⟨⟨h.1, h.2.add he⟩, fun _ _ hentry => hentry⟩
  note {w} h entry := by
    have hlogs := History.Logs.noted w entry
    refine ⟨⟨?_, ?_⟩, hlogs⟩
    · exact h.1.trans (by simp [History.noted])
    · have hkept := h.2.mono (ReadSince.mono hlogs)
      exact ⟨hkept.now, hkept.past⟩
  loading {w} h {path text} hfile := by
    refine .inr ⟨hfile, w.state.log.size, h.1, ?_⟩
    simp [History.noted]
  free _ _ _ l hl := by cases hl
  asserted _ _ _ _ l hl := by cases hl
  unreadable _ _ _ _ _ l hl := by cases hl
  locate {w e v} he hv l hl := by
    unfold Error.locate at hl
    split at hl
    · -- the error takes the location of the value, which is known
      next hknown =>
      obtain rfl : v.provenance.location = l := Option.some.inj hl
      have hrow := (Location.isKnown_iff _).1 (Bool.and_eq_true_iff.1 hknown).2
      obtain ⟨text, hread, htoken⟩ := hv.resolve_left (Nat.one_le_iff_ne_zero.1 hrow)
      exact htoken.lexemeAt.authentic hread
    · exact he l hl
  malformed _ hknown herror l hl := by
    obtain rfl := Option.some.inj hl
    exact LexemeAt.authentic (Reading.ofText_error_lexemeAt herror) hknown

/-! ## Errors have locations -/

namespace Stamped

variable {α β : Type}

theorem Located.bind {Q : α → Prop} {act : Run α} {f : α → Run β} (h : Located act)
    (hQ : ∀ s a s', act s = .ok a s' → Q a) (hf : ∀ a, Q a → Located (f a)) : Located (act >>= f) := by
  intro s e s' herror
  rcases Run.bind_eq_error herror with hact | ⟨a, t, hact, hnext⟩
  · exact h s e s' hact
  · exact hf a (hQ s a t hact) t e s' hnext

end Stamped

/-! ## Sessions -/

/-- What holds after one more call, however it ended. -/
theorem History.Authentic.recorded {policy : WarnPolicy} {calls : List Call}
    (h : (History.ofCalls policy calls).Authentic (ReadIn policy calls)) (call : Call) :
    match call.recorded (Session.new policy).env (History.ofCalls policy calls) with
    | .ok v w =>
      w.Authentic (ReadIn policy (calls ++ [call])) ∧ v.Authentic (ReadIn policy (calls ++ [call]))
    | .error why w =>
      w.Authentic (ReadIn policy (calls ++ [call])) ∧
        ∀ e l, why = .raised e → e.location = some l → l.Authentic (ReadIn policy (calls ++ [call])) := by
  let start := (Session.ofCalls policy calls).state.log.size
  let Earlier := fun file text => ReadIn policy calls file text ∨ call.Reads file text
  have hread : ∀ w : History, w.state = (History.ofCalls policy (calls ++ [call])).state →
      ∀ file text, ReadSince call.host Earlier start w file text →
        ReadIn policy (calls ++ [call]) file text := by
    rintro w hw file text ((hearlier | hreads) | ⟨hfile, hasks⟩)
    · exact hearlier.append [call]
    · exact ⟨calls, call, [], rfl, .inl hreads⟩
    · rw [hw, History.state_ofCalls] at hasks
      exact ⟨calls, call, [], rfl, .inr ⟨hfile, hasks⟩⟩
  have hinv : (authentic call.host Earlier start).Inv (History.ofCalls policy calls) := by
    refine ⟨?_, h.mono fun file text hread => .inl (.inl hread)⟩
    rw [History.state_ofCalls]
  have henv : (authentic call.host Earlier start).Env (History.ofCalls policy calls)
      (Session.new policy).env := trivial
  have hgives := (authentic call.host Earlier start).recorded hinv henv
    (fun file text hreads => .inl (.inr hreads)) fun path fault _ _ l hl => by cases hl
  unfold Standard.Gives Standard.Safe at hgives
  rw [History.ofCalls_concat, History.perform] at hread
  cases hcall : call.recorded (Session.new policy).env (History.ofCalls policy calls) with
  | ok v w =>
    rw [hcall] at hgives hread
    exact ⟨hgives.1.2.mono (hread w rfl), hgives.2.2.mono (hread w rfl)⟩
  | error why w =>
    rw [hcall] at hgives hread
    refine ⟨hgives.1.2.mono (hread w rfl), fun e l he hl => ?_⟩
    obtain ⟨text, hknown, hlexeme, -⟩ := hgives.2.2 e he l hl
    exact hlexeme.authentic (hread w rfl _ _ hknown)

/-- A call ends in a session as it does with a record. -/
theorem Session.run_recorded (policy : WarnPolicy) (calls : List Call) (call : Call) :
    match call.recorded (Session.new policy).env (History.ofCalls policy calls) with
    | .ok v _ => ((Session.ofCalls policy calls).run call.plain).1 = .ok v
    | .error why _ => ((Session.ofCalls policy calls).run call.plain).1 = .error why := by
  have herases := call.erases (Session.new policy).env (History.ofCalls policy calls)
  rw [History.state_ofCalls, ← Session.env_ofCalls policy calls] at herases
  rw [← Session.env_ofCalls policy calls]
  unfold Session.run
  cases hcall : call.recorded (Session.ofCalls policy calls).env (History.ofCalls policy calls) with
  | ok v w =>
    rw [hcall] at herases
    simp only [herases]
  | error why w =>
    rw [hcall] at herases
    simp only [herases]

end Lisplet
