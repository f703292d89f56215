import Sygus.Proofs.Search.Agreement
import Sygus.Proofs.Search.Fairness

/-!
# The frontier searches solve every consistent problem of conditional arithmetic

A table gives any outputs at finitely many points. So some expression is valid for consistent
examples, and top-down search, which is fair and prunes nothing, finds a valid program.

Constraint-based search judges partial terms over the unbounded integers, where a table need not
compute what it evaluates to: its constants are sums that wrap around. It takes a valid expression
of which **no partial term can be infeasible**. The successor of a table for the outputs less one is
such an expression. As long as the table is not complete, the operand beside it is a hole, and with
a hole for one operand a sum can have any value, whatever the other operand computes.
-/

namespace Sygus

open Term (Completes Derives completes_op_inv completes_to_two)

namespace Arithmetic

variable {examples : List Example} {bound : Option Nat} {a : Variable → Int} {k : Nat} {t : Term}

/-! ## An expression that is never infeasible -/

/-- One more than an expression. The one is a product, so that it has operands of its own. -/
def Expr.successor (x : Expr) : Expr := .add x (.multiply (.numeral .one) (.numeral .one))

@[simp] theorem Expr.eval_successor (x : Expr) {p : Point} :
    x.successor.eval p = x.eval p + 1 := rfl

/-- What becomes a one can compute one, and anything as long as it is a hole. -/
theorem canCompute_of_completes_one (h : Completes .arithmetic k t (Expr.numeral .one).term) :
    t.CanCompute a 1 ∧ (t.isComplete = false → ∀ n, t.CanCompute a n) := by
  rcases completes_op_inv h with ⟨_, rfl⟩ | ⟨us, rfl, hnone⟩
  · exact ⟨Term.canCompute_hole, fun _ _ => Term.canCompute_hole⟩
  · cases hnone
    have hliteral : IntOp.ofName? "1" = some (.literal 1) := rfl
    refine ⟨(Term.canCompute_literal hliteral).mpr rfl, ?_⟩
    intro hpartial
    cases hpartial

/-- A product of ones is free in all its stages: one operand can compute anything and the other one
can compute one. -/
theorem canCompute_of_completes_square
    (h : Completes .arithmetic k t (Expr.multiply (.numeral .one) (.numeral .one)).term)
    (hpartial : t.isComplete = false) (n : Int) : t.CanCompute a n := by
  rcases completes_to_two h with ⟨_, rfl⟩ | ⟨l, r, rfl, ⟨_, hl⟩, _, hr⟩
  · exact Term.canCompute_hole
  · obtain ⟨hl₁, hlfree⟩ := canCompute_of_completes_one (a := a) hl
    obtain ⟨hr₁, hrfree⟩ := canCompute_of_completes_one (a := a) hr
    have hproduct : IntOp.ofName? "Multiply" = some .multiply := rfl
    rw [Term.canCompute_multiply hproduct]
    cases hlcomplete : l.isComplete with
    | false => exact ⟨n, 1, hlfree hlcomplete n, hr₁, (Int.mul_one n).symm⟩
    | true =>
        have hrpartial : r.isComplete = false := by
          simpa [Term.isComplete, Term.allComplete, Symbol.isTerminal, hlcomplete] using hpartial
        exact ⟨1, n, hl₁, hrfree hrpartial n, (Int.one_mul n).symm⟩

/-- **No stage of a successor is infeasible.** While the expression is not complete, the product of
ones is a hole. -/
theorem canCompute_of_completes_successor {x : Expr}
    (h : Completes .arithmetic k t x.successor.term) (hleftmost : t.isLeftmost = true)
    (hpartial : t.isComplete = false) (n : Int) : t.CanCompute a n := by
  rcases completes_to_two h with ⟨_, rfl⟩ | ⟨l, r, rfl, ⟨_, hl⟩, _, hr⟩
  · exact Term.canCompute_hole
  · have hsum : IntOp.ofName? "Add" = some .add := rfl
    obtain ⟨s, n', hs⟩ := x.exists_intSketched hl {}
    have hx : l.CanCompute a (x.exact a) := hs.canCompute hl
    have hrpartial : r.isComplete = false := by
      by_contra hrcomplete
      rw [Bool.not_eq_false] at hrcomplete
      -- a complete product has operands, so the expression before it is complete as well
      obtain ⟨_, rfl⟩ := hr.eq_of_isComplete hrcomplete
      obtain ⟨_, _, hlcomplete | hchildless⟩ := Term.allLeftmost_two hleftmost
      · simp [Term.isComplete, Term.allComplete, Symbol.isTerminal, hlcomplete,
          hrcomplete] at hpartial
      · cases hchildless
    rw [Term.canCompute_add hsum]
    exact ⟨x.exact a, n - x.exact a, hx, canCompute_of_completes_square hr hrpartial _, by omega⟩

/-- A term that can compute every integer is found feasible. -/
theorem isFeasible_of_canCompute (hbinds : Binds examples) (hspares : Spares examples)
    (h : t.Met .arithmetic bound (.nonTerminal "E"))
    (hfree : ∀ a n, t.CanCompute a n) : t.isFeasible examples = .ok true := by
  obtain ⟨k, x, hx⟩ := exists_completes_of_met h
  obtain ⟨s, n, hs⟩ := x.exists_intSketched hx {}
  have hthin := hs.isThin (Term.isLeftmost_of_reachable h.steps)
  have hall : (examples.all fun e => Solver.builtIn s e ≠ .unsat) = true := by
    rw [List.all_eq_true]
    intro e he
    rw [decide_eq_true_eq]
    exact (hs.builtIn_ne_unsat_iff (opens hbinds hspares he) hthin).mpr (hfree _ _)
  unfold Term.isFeasible
  rw [hs.isFeasibleBy_eq, hall]

/-! ## Valid expressions -/

/-- **Consistent examples have a successor for a valid expression.** -/
theorem exists_valid_successor (hbinds : Binds examples) (hconsistent : Consistent examples) :
    ∃ x : Expr, x.successor.program.isValid examples = .ok true := by
  obtain ⟨x, hx⟩ := exists_eval_eq hbinds hconsistent (· - 1)
  refine ⟨x, (Expr.isValid_program_iff hbinds).mpr ?_⟩
  intro e he
  rw [Expr.eval_successor, hx e he]
  exact Int64.sub_add_cancel _ _

end Arithmetic

/-! ## The searches -/

/-- A program that can be evaluated on all examples is valid or not. -/
theorem Program.exists_isValid {p : Program} {examples : List Example}
    (h : ∀ e ∈ examples, ∃ b, p.root.produces e = .ok b) :
    ∃ valid, p.isValid examples = .ok valid := by
  induction examples with
  | nil => exact ⟨true, rfl⟩
  | cons e rest ih =>
      rw [List.forall_mem_cons] at h
      obtain ⟨b, hb⟩ := h.1
      obtain ⟨valid, hvalid⟩ := ih h.2
      rw [isValid, hb]
      cases b with
      | true => exact ⟨valid, hvalid⟩
      | false => exact ⟨false, rfl⟩

namespace BreadthFirst

open Arithmetic

variable {examples : List Example} {bound : Option Nat} {m : Manner}

/-- In conditional arithmetic only the verdicts on partial terms are in question. -/
theorem flawless_of_verdict (hbinds : Binds examples)
    (h : ∀ t : Term, t.Met .arithmetic bound (.nonTerminal "E") →
      ∃ worth, m.worthwhile t = .ok worth) : Flawless m ⟨.arithmetic, examples⟩ bound where
  verdict := h
  expansion t ht := ht.exists_expand closed defines_expr
  validity p hp := by
    have hderives : Derives .arithmetic Role.expression.symbol p.root :=
      hp.derives_of_isComplete p.complete
    refine Program.exists_isValid ?_
    intro e he
    show ∃ b, Role.expression.satisfies p e = .ok b
    exact exists_satisfies hbinds hderives he

/--
**The frontier searches solve every consistent problem.**

Without a bound, and without being stopped, top-down search ends and finds a valid program for all
examples that bind the variables and are consistent. So does constraint-based search, if moreover no
input gives a value to an unknown.
-/
theorem frontier_searches_solve (hbinds : Binds examples) (hconsistent : Consistent examples) :
    (∃ fuel₀ r p, (∀ fuel ≥ fuel₀, TopDown.run ⟨.arithmetic, examples⟩ none .never fuel = some r)
      ∧ r.result = .ok (some p) ∧ p.isValid examples = .ok true)
    ∧ (Spares examples → ∃ fuel₀ r p,
      (∀ fuel ≥ fuel₀, ConstraintBased.run ⟨.arithmetic, examples⟩ none .never fuel = some r)
        ∧ r.result = .ok (some p) ∧ p.isValid examples = .ok true) := by
  obtain ⟨x, hvalid⟩ := exists_valid_successor hbinds hconsistent
  have hderives := x.successor.derives
  refine ⟨?_, ?_⟩
  · -- nothing is pruned, so any valid expression would do
    have hspared : Spared TopDown.manner ⟨.arithmetic, examples⟩ none x.successor.program := by
      intro t n _ _ _ hworth
      cases hworth
    exact exists_run_of_spared (flawless_of_verdict hbinds fun _ _ => ⟨true, rfl⟩) hspared hderives
      rfl hvalid
  · intro hspares
    have hspared : Spared (ConstraintBased.manner examples) ⟨.arithmetic, examples⟩ none
        x.successor.program := by
      intro t n hmet hpartial hcompletes hworth
      -- the term is a stage of the successor, so it can compute every output
      have hleftmost := Term.isLeftmost_of_reachable hmet.steps
      have hfeasible := isFeasible_of_canCompute hbinds hspares hmet
        fun a n => canCompute_of_completes_successor hcompletes hleftmost hpartial n
      cases hfeasible.symm.trans hworth
    have hverdict : ∀ t : Term, t.Met .arithmetic none (.nonTerminal "E") →
        ∃ worth, (ConstraintBased.manner examples).worthwhile t = .ok worth := by
      intro t ht
      obtain ⟨worth, hworth, _⟩ := exists_verdict hbinds hspares ht
      exact ⟨worth, hworth⟩
    exact exists_run_of_spared (flawless_of_verdict hbinds hverdict) hspared hderives rfl hvalid

/-- Outputs that no sum of literals reaches without wrapping around, and that depend on `x`. -/
def wrapping : List Example :=
  [⟨.ofList [("x", 0), ("y", 0), ("z", 0)], -7⟩, ⟨.ofList [("x", 1), ("y", 0), ("z", 0)], 5⟩]

theorem frontier_searches_solve_wrapping :
    (∃ fuel₀ r p, (∀ fuel ≥ fuel₀, TopDown.run ⟨.arithmetic, wrapping⟩ none .never fuel = some r)
      ∧ r.result = .ok (some p) ∧ p.isValid wrapping = .ok true)
    ∧ ∃ fuel₀ r p,
      (∀ fuel ≥ fuel₀, ConstraintBased.run ⟨.arithmetic, wrapping⟩ none .never fuel = some r)
        ∧ r.result = .ok (some p) ∧ p.isValid wrapping = .ok true := by
  have hbinds : Binds wrapping := binds_of_all (by decide)
  have hconsistent : Consistent wrapping := by
    intro e he e' he' hsame
    have hx := hsame .x
    simp only [wrapping, List.mem_cons, List.not_mem_nil, or_false] at he he'
    rcases he with rfl | rfl <;> rcases he' with rfl | rfl
    · rfl
    · exact absurd hx (by decide)
    · exact absurd hx (by decide)
    · rfl
  have hspares : Spares wrapping := spares_of_names (by decide)
  obtain ⟨htopDown, hconstraint⟩ := frontier_searches_solve hbinds hconsistent
  exact ⟨htopDown, hconstraint hspares⟩

end BreadthFirst

end Sygus
