import Sygus.Proofs.Arithmetic.Labels
import Sygus.Proofs.Cancellation
import Sygus.Proofs.Faults
import Sygus.Proofs.Search.Agreement

/-!
# The faults of conditional arithmetic

Searches draw nothing but expressions and conditions, whose operators have their arguments and whose
arguments are of the right kind. So there is only one thing that can be wrong, and it is wrong with
the examples: an input may lack a variable.
-/

namespace Sygus.Arithmetic

open Term (Met)

variable {a : Assignment} {fault : Fault} {examples : List Example} {bound : Option Nat}

/-- The fault names a variable of the grammar that the assignment lacks. -/
def Lacks (a : Assignment) (fault : Fault) : Prop :=
  ∃ v : Variable, a.get? v.name = none ∧ fault = .undefinedVariable v.name

theorem lacks_of_value_atom {v : Variable} (h : (Term.atom v.name).value a = .error fault) :
    Lacks a fault := by
  cases hv : a.get? v.name with
  | some n => rw [value_atom hv] at h; cases h
  | none =>
      have hop : IntOp.ofName? v.name = some (.var v) := by cases v <;> rfl
      unfold Term.atom Term.leaf Term.value at h
      rw [hop] at h
      dsimp only at h
      rw [hv] at h
      cases h
      exact ⟨v, hv, rfl⟩

/-- An operator that needs both of its arguments fails if one of them does. -/
theorem lacks_of_both {α β γ : Type} {x : Except Fault α} {y : Except Fault β} {f : α → β → γ}
    (hx : x = .error fault → Lacks a fault) (hy : y = .error fault → Lacks a fault)
    (h : (do return f (← x) (← y)) = Except.error fault) : Lacks a fault := by
  rcases bind_eq_error.mp h with hfault | ⟨_, _, h⟩
  · exact hx hfault
  · rcases bind_eq_error.mp h with hfault | ⟨_, _, h⟩
    · exact hy hfault
    · cases h

mutual

/-- **An expression fails only for the lack of a variable.** -/
theorem Expr.lacks_of_value (x : Expr) (h : x.term.value a = .error fault) : Lacks a fault := by
  cases x with
  | ite c this other =>
      simp only [Expr.term, Term.op, Term.value, IntOp.ofName?] at h
      rcases bind_eq_error.mp h with hfault | ⟨b, _, h⟩
      · exact c.lacks_of_truth hfault
      · cases b with
        | true => exact this.lacks_of_value h
        | false => exact other.lacks_of_value h
  | add l r =>
      simp only [Expr.term, Term.op, Term.value, IntOp.ofName?] at h
      exact lacks_of_both l.lacks_of_value r.lacks_of_value h
  | multiply l r =>
      simp only [Expr.term, Term.op, Term.value, IntOp.ofName?] at h
      exact lacks_of_both l.lacks_of_value r.lacks_of_value h
  | var v => exact lacks_of_value_atom h
  | numeral n => cases n <;> cases h

/-- **So does a condition.** -/
theorem Cond.lacks_of_truth (c : Cond) (h : c.term.truth a = .error fault) : Lacks a fault := by
  cases c with
  | lt l r =>
      simp only [Cond.term, Term.op, Term.truth, BoolOp.ofName?] at h
      exact lacks_of_both l.lacks_of_value r.lacks_of_value h
  | eq l r =>
      simp only [Cond.term, Term.op, Term.truth, BoolOp.ofName?] at h
      exact lacks_of_both l.lacks_of_value r.lacks_of_value h
  | and l r =>
      simp only [Cond.term, Term.op, Term.truth, BoolOp.ofName?] at h
      rcases bind_eq_error.mp h with hfault | ⟨b, _, h⟩
      · exact l.lacks_of_truth hfault
      · cases b with
        | true => exact r.lacks_of_truth h
        | false => cases h
  | or l r =>
      simp only [Cond.term, Term.op, Term.truth, BoolOp.ofName?] at h
      rcases bind_eq_error.mp h with hfault | ⟨b, _, h⟩
      · exact l.lacks_of_truth hfault
      · cases b with
        | true => cases h
        | false => exact r.lacks_of_truth h
  | not c =>
      simp only [Cond.term, Term.op, Term.truth, BoolOp.ofName?] at h
      rcases bind_eq_error.mp h with hfault | ⟨_, _, h⟩
      · exact c.lacks_of_truth hfault
      · cases h

end

/-- What is drawn for a role fails on an example only if its input lacks a variable. -/
theorem lacks_of_satisfies {role : Role} {p : Program} {e : Example}
    (h : role.Draws .arithmetic bound p) (hfault : role.satisfies p e = .error fault) :
    Lacks e.input fault := by
  cases role with
  | expression =>
      obtain ⟨x, rfl⟩ := exists_expr h.1
      rcases bind_eq_error.mp hfault with hvalue | ⟨_, _, hok⟩
      · exact x.lacks_of_value hvalue
      · cases hok
  | predicate =>
      obtain ⟨c, rfl⟩ := exists_cond h.1
      exact c.lacks_of_truth hfault

/-- The categories of both roles have productions. -/
theorem defines_category (role : Role) : Grammar.arithmetic.Defines role.category := by
  cases role with
  | expression => exact defines_expr
  | predicate => exact defines_cond

/-- **The only hazard of a role is an example that lacks a variable.** -/
theorem lacks_of_hazard {role : Role} (h : role.Hazard ⟨.arithmetic, examples⟩ bound fault) :
    ∃ e ∈ examples, Lacks e.input fault := by
  cases h with
  | expansion hmet hexp =>
      obtain ⟨_, hok⟩ := hmet.exists_expand closed (defines_category role)
      cases hexp.symm.trans hok
  | evaluation hdraws he hfault => exact ⟨_, he, lacks_of_satisfies hdraws hfault⟩

/-- Whatever a walk meets has a sketch. -/
theorem exists_sketch_of_met {t : Term} (h : t.Met .arithmetic bound (.nonTerminal "E")) :
    ∃ s n, IntSketched {} t s n := by
  obtain ⟨k, x, hx⟩ := exists_completes_of_met h
  exact x.exists_intSketched hx {}

/-- The same goes for a breadth-first search that has a verdict on every term with a sketch. -/
theorem lacks_of_breadthFirst {m : Manner}
    (hm : ∀ {t s n}, IntSketched {} t s n → ∃ verdict, m.worthwhile t = .ok verdict)
    (h : BreadthFirst.Hazard m ⟨.arithmetic, examples⟩ bound fault) :
    ∃ e ∈ examples, Lacks e.input fault := by
  cases h with
  | expansion hmet hexp =>
      obtain ⟨_, hok⟩ := hmet.exists_expand closed defines_expr
      cases hexp.symm.trans hok
  | verdict hmet hworth =>
      obtain ⟨_, _, hs⟩ := exists_sketch_of_met hmet
      obtain ⟨_, hok⟩ := hm hs
      cases hworth.symm.trans hok
  | @evaluation p _ hmet he hfault =>
      have hdraws : Role.expression.Draws .arithmetic bound p := Role.draws_of_met hmet
      exact ⟨_, he, lacks_of_satisfies hdraws hfault⟩

/-- A run fails only if an example lacks a variable. -/
theorem lacks_of_run {settings : Settings} {stop : Stop} {fuel : Nat} {r : Run}
    (h : settings.run ⟨.arithmetic, examples⟩ stop fuel = some r)
    (hfault : r.result = .error fault) : ∃ e ∈ examples, Lacks e.input fault := by
  obtain ⟨strategy, recalls, bound⟩ := settings
  cases strategy with
  | topDown =>
      exact lacks_of_breadthFirst (fun _ => ⟨true, rfl⟩) (BreadthFirst.hazard_of_run h hfault)
  | constraintBased =>
      exact lacks_of_breadthFirst (fun hs => ⟨_, hs.isFeasibleBy_eq .builtIn examples⟩)
        (BreadthFirst.hazard_of_run h hfault)
  | divideAndConquer =>
      obtain ⟨role, hhazard⟩ := DivideAndConquer.hazard_of_run h hfault
      obtain ⟨e, he, hlacks⟩ := lacks_of_hazard hhazard
      exact ⟨e, List.mem_eraseDups.mp he, hlacks⟩

/-- The terms that a constraint-based search comes by have sketches. -/
theorem exists_sketch_of_reaches {stop : Stop} {s : BreadthFirst.State}
    (h : (BreadthFirst.machine (ConstraintBased.manner examples) ⟨.arithmetic, examples⟩
      bound).Reaches stop s) {t : Term} (ht : t ∈ s.frontier.toList) :
    ∃ sketch, t.sketch = .ok sketch := by
  have hmet : s.Met ⟨.arithmetic, examples⟩ bound := by
    clear ht
    induction h with
    | refl => exact BreadthFirst.met_initial _ _
    | tail _ hturn ih => exact hturn.met ih
  obtain ⟨sketch, _, hs⟩ := exists_sketch_of_met (hmet t ht)
  exact ⟨sketch, hs.sketch_eq⟩

/--
**Nothing but a missing variable can go wrong with conditional arithmetic.**

Take any strategy with any settings, any examples and any moment at which the run is stopped. If the
run ends with a fault, that is an undefined variable: `x`, `y` or `z`, and the input of one of the
examples lacks it. So a run over inputs that bind all variables ends without a fault. Every term in
the frontier of a constraint-based search has a sketch, whatever the inputs bind.
-/
theorem only_variables_are_missing (settings : Settings) (examples : List Example) (stop : Stop) :
    (∀ fuel r fault, settings.run ⟨.arithmetic, examples⟩ stop fuel = some r →
        r.result = .error fault →
        ∃ e ∈ examples, ∃ v : Variable, e.input.get? v.name = none
          ∧ fault = .undefinedVariable v.name)
      ∧ (Binds examples → ∀ fuel r, settings.run ⟨.arithmetic, examples⟩ stop fuel = some r →
        ∃ found, r.result = .ok found)
      ∧ ∀ s, (BreadthFirst.machine (ConstraintBased.manner examples) ⟨.arithmetic, examples⟩
          settings.bound).Reaches stop s →
        ∀ t ∈ s.frontier.toList, ∃ sketch, t.sketch = .ok sketch := by
  refine ⟨fun _ _ _ h hfault => lacks_of_run h hfault, ?_, fun _ h _ ht =>
    exists_sketch_of_reaches h ht⟩
  intro hbinds fuel r h
  cases hresult : r.result with
  | ok found => exact ⟨found, rfl⟩
  | error fault =>
      obtain ⟨e, he, v, hnone, _⟩ := lacks_of_run h hresult
      have hsome := hbinds e he v
      rw [hnone] at hsome
      cases hsome

/-- An example that binds only `x`. -/
def onlyX : List Example := [⟨.ofList [("x", 1)], 5⟩]

/-- On such an example the second candidate fails, and so does the second expression of a pool; with
all variables there is a program, and of a search for it the first turn is made. -/
theorem only_variables_are_missing_onlyX :
    (∃ r, (⟨.topDown, false, none⟩ : Settings).run ⟨.arithmetic, onlyX⟩ .never 10 = some r
        ∧ r.result = .error (.undefinedVariable "y")
        ∧ ∃ e ∈ onlyX, ∃ v : Variable, e.input.get? v.name = none
          ∧ Fault.undefinedVariable "y" = .undefinedVariable v.name)
      ∧ (∃ r, (⟨.divideAndConquer, true, some 1⟩ : Settings).run ⟨.arithmetic, onlyX⟩ .never 10
          = some r ∧ r.result = .error (.undefinedVariable "y")
        ∧ ∃ e ∈ onlyX, ∃ v : Variable, e.input.get? v.name = none
          ∧ Fault.undefinedVariable "y" = .undefinedVariable v.name)
      ∧ (∃ r, (⟨.divideAndConquer, true, none⟩ : Settings).run .branching .never 100 = some r
        ∧ ∃ found, r.result = .ok found)
      ∧ ∃ s, (BreadthFirst.machine (ConstraintBased.manner onlyX) ⟨.arithmetic, onlyX⟩
          none).Reaches .never s ∧ s.journal.polls = 1 ∧ s.frontier.toList ≠ []
        ∧ ∀ t ∈ s.frontier.toList, ∃ sketch, t.sketch = .ok sketch := by
  refine ⟨⟨_, rfl, rfl, (only_variables_are_missing ⟨.topDown, false, none⟩ onlyX .never).1
      10 _ _ rfl rfl⟩,
    ⟨_, rfl, rfl, (only_variables_are_missing ⟨.divideAndConquer, true, some 1⟩ onlyX .never).1
      10 _ _ rfl rfl⟩,
    ⟨_, rfl, (only_variables_are_missing ⟨.divideAndConquer, true, none⟩
      Problem.branching.examples .never).2.1 (binds_of_all (by decide)) 100 _ rfl⟩, ?_⟩
  have hturn : BreadthFirst.Turn (ConstraintBased.manner onlyX) ⟨.arithmetic, onlyX⟩ none .never
      (.initial .arithmetic) _ := .expanded rfl rfl rfl rfl rfl
  have hreaches : (BreadthFirst.machine (ConstraintBased.manner onlyX) ⟨.arithmetic, onlyX⟩
      none).Reaches .never _ := .single hturn
  exact ⟨_, hreaches, rfl, by decide,
    (only_variables_are_missing ⟨.constraintBased, false, none⟩ onlyX .never).2.2 _ hreaches⟩

end Sygus.Arithmetic
