import Sygus.Proofs.Feasibility.Pruning
import Sygus.Proofs.Search.Thinning
import Sygus.Search.ConstraintBased

/-!
# Constraint-based search and top-down search

Constraint-based search prunes. The terms it prunes are **lost** to programs that stay in
range: no completion of such a term is valid without wrapping around. So if the program that
top-down search finds has all its values in range, constraint-based search finds it too, and
finds no other program, since what is left is looked at in the same order. If top-down
search finds nothing there is nothing to be lost.

Pruning brings in one more way to fail: a term may have no sketch. Terms of conditional
arithmetic do, because whatever can be completed to an expression has the shape of one.
-/

namespace Sygus

open Arithmetic (Expr Cond)
open Term (Completes Expands completes_op_inv completes_to_one completes_to_two completes_to_three)

/-! ## Every term has a sketch -/

section Sketches

variable {g : Grammar}

mutual

/-- **What can be completed to an expression has a sketch.** -/
theorem Arithmetic.Expr.exists_intSketched : ∀ (x : Expr) {k : Nat} {t : Term},
    Completes g k t x.term → ∀ n, ∃ s n', IntSketched n t s n'
  | .ite c this other, k, t, h, n => by
      rcases completes_to_three h with ⟨_, rfl⟩ | ⟨_, _, _, rfl, ⟨_, hc⟩, ⟨_, ht⟩, _, he⟩
      · exact ⟨_, _, .hole⟩
      · obtain ⟨c', n₁, hc'⟩ := c.exists_boolSketched hc n
        obtain ⟨t', n₂, ht'⟩ := this.exists_intSketched ht n₁
        obtain ⟨e', n₃, he'⟩ := other.exists_intSketched he n₂
        exact ⟨_, _, .ite rfl hc' ht' he'⟩
  | .add l r, k, t, h, n => by
      rcases completes_to_two h with ⟨_, rfl⟩ | ⟨_, _, rfl, ⟨_, hl⟩, _, hr⟩
      · exact ⟨_, _, .hole⟩
      · obtain ⟨l', n₁, hl'⟩ := l.exists_intSketched hl n
        obtain ⟨r', n₂, hr'⟩ := r.exists_intSketched hr n₁
        exact ⟨_, _, .add rfl hl' hr'⟩
  | .multiply l r, k, t, h, n => by
      rcases completes_to_two h with ⟨_, rfl⟩ | ⟨_, _, rfl, ⟨_, hl⟩, _, hr⟩
      · exact ⟨_, _, .hole⟩
      · obtain ⟨l', n₁, hl'⟩ := l.exists_intSketched hl n
        obtain ⟨r', n₂, hr'⟩ := r.exists_intSketched hr n₁
        exact ⟨_, _, .multiply rfl hl' hr'⟩
  | .var v, k, t, h, n => by
      rcases completes_op_inv h with ⟨_, rfl⟩ | ⟨_, rfl, _⟩
      · exact ⟨_, _, .hole⟩
      · have hop : IntOp.ofName? v.name = some (.var v) := by cases v <;> rfl
        exact ⟨_, _, .var hop⟩
  | .numeral m, k, t, h, n => by
      rcases completes_op_inv h with ⟨_, rfl⟩ | ⟨_, rfl, _⟩
      · exact ⟨_, _, .hole⟩
      · have hop : IntOp.ofName? m.name = some (.literal m.value) := by cases m <;> rfl
        exact ⟨_, _, .literal hop⟩

theorem Arithmetic.Cond.exists_boolSketched : ∀ (x : Cond) {k : Nat} {t : Term},
    Completes g k t x.term → ∀ n, ∃ s n', BoolSketched n t s n'
  | .lt l r, k, t, h, n => by
      rcases completes_to_two h with ⟨_, rfl⟩ | ⟨_, _, rfl, ⟨_, hl⟩, _, hr⟩
      · exact ⟨_, _, .hole⟩
      · obtain ⟨l', n₁, hl'⟩ := l.exists_intSketched hl n
        obtain ⟨r', n₂, hr'⟩ := r.exists_intSketched hr n₁
        exact ⟨_, _, .lt rfl hl' hr'⟩
  | .eq l r, k, t, h, n => by
      rcases completes_to_two h with ⟨_, rfl⟩ | ⟨_, _, rfl, ⟨_, hl⟩, _, hr⟩
      · exact ⟨_, _, .hole⟩
      · obtain ⟨l', n₁, hl'⟩ := l.exists_intSketched hl n
        obtain ⟨r', n₂, hr'⟩ := r.exists_intSketched hr n₁
        exact ⟨_, _, .eq rfl hl' hr'⟩
  | .and l r, k, t, h, n => by
      rcases completes_to_two h with ⟨_, rfl⟩ | ⟨_, _, rfl, ⟨_, hl⟩, _, hr⟩
      · exact ⟨_, _, .hole⟩
      · obtain ⟨l', n₁, hl'⟩ := l.exists_boolSketched hl n
        obtain ⟨r', n₂, hr'⟩ := r.exists_boolSketched hr n₁
        exact ⟨_, _, .and rfl hl' hr'⟩
  | .or l r, k, t, h, n => by
      rcases completes_to_two h with ⟨_, rfl⟩ | ⟨_, _, rfl, ⟨_, hl⟩, _, hr⟩
      · exact ⟨_, _, .hole⟩
      · obtain ⟨l', n₁, hl'⟩ := l.exists_boolSketched hl n
        obtain ⟨r', n₂, hr'⟩ := r.exists_boolSketched hr n₁
        exact ⟨_, _, .or rfl hl' hr'⟩
  | .not c, k, t, h, n => by
      rcases completes_to_one h with ⟨_, rfl⟩ | ⟨_, rfl, _, hc⟩
      · exact ⟨_, _, .hole⟩
      · obtain ⟨c', n₁, hc'⟩ := c.exists_boolSketched hc n
        exact ⟨_, _, .not rfl hc'⟩

end

end Sketches

namespace Arithmetic

variable {examples : List Example} {bound : Option Nat} {t : Term}

/-- Whatever a walk meets can be completed to an expression. -/
theorem exists_completes_of_met (h : t.Met .arithmetic bound (.nonTerminal "E")) :
    ∃ (k : Nat) (x : Expr), Completes .arithmetic k t x.term := by
  have hholes := h.holesIn closed.keepsTo defines_expr
  obtain ⟨k, u, hu⟩ := Term.exists_completes productive t h.isBare hholes
  obtain ⟨x, rfl⟩ := derives_expr_iff.mp (h.derives hu)
  exact ⟨k, x, hu⟩

/-- **On what a walk meets there is a verdict,** and if it is negative, no completion computes
all outputs exactly. -/
theorem exists_verdict (hbinds : Binds examples) (hspares : Spares examples)
    (h : t.Met .arithmetic bound (.nonTerminal "E")) :
    ∃ verdict, t.isFeasible examples = .ok verdict
      ∧ (verdict = false → ∀ (x : Expr) (k : Nat), Completes .arithmetic k t x.term →
          ∃ e ∈ examples, x.exact (exactly e.input.point) ≠ e.output.toInt) := by
  obtain ⟨k, x, hx⟩ := exists_completes_of_met h
  obtain ⟨s, n, hs⟩ := x.exists_intSketched hx {}
  have hleftmost := Term.isLeftmost_of_reachable h.steps
  refine ⟨_, hs.isFeasibleBy_eq .builtIn examples, ?_⟩
  intro hverdict y j hy
  obtain ⟨e, he, hinfeasible⟩ := List.all_eq_false.mp hverdict
  rw [decide_eq_true_eq] at hinfeasible
  refine ⟨e, he, ?_⟩
  intro hexact
  exact hinfeasible (builtIn_ne_unsat_of_completes hbinds hspares he hs hleftmost hy hexact)

end Arithmetic

namespace ConstraintBased

open Arithmetic (Binds Spares Within exactly exists_verdict exact_eq_output exists_expr)
open BreadthFirst (Prudent Thinned search_thinned met_initial met_and_isValid_of_search)

variable {examples : List Example} {bound : Option Nat}

/-- Pruning is prudent as long as nothing is held against losing terms. -/
theorem prudent (hbinds : Binds examples) (hspares : Spares examples) :
    Prudent (manner examples) .arithmetic bound fun _ => True where
  verdict t ht _ := by
    obtain ⟨verdict, hverdict, _⟩ := exists_verdict hbinds hspares ht
    exact ⟨verdict, hverdict, fun _ => trivial⟩
  lost_of_expands _ _ _ _ _ := trivial

/-- **Pruning loses no term that an expression completes which computes all outputs exactly.** -/
theorem prudent_of_exact (hbinds : Binds examples) (hspares : Spares examples) {x : Expr}
    (hexact : ∀ e ∈ examples, x.exact (exactly e.input.point) = e.output.toInt) :
    Prudent (manner examples) .arithmetic bound
      fun t => ∀ k, ¬ Completes .arithmetic k t x.term where
  verdict t ht _ := by
    obtain ⟨verdict, hverdict, hlost⟩ := exists_verdict hbinds hspares ht
    refine ⟨verdict, hverdict, ?_⟩
    intro hfalse k hx
    obtain ⟨e, he, hne⟩ := hlost hfalse x k hx
    exact hne (hexact e he)
  lost_of_expands _ _ ht hlost hstep k hu := hlost (k + 1) (.of_expands hstep ht.isBare hu)

/--
**Away from overflow, constraint-based search agrees with top-down search.**

The inputs bind the variables and spare the unknowns. What top-down search finds is an
expression, and if all values in it are in range on every input, constraint-based search finds
the same program, within the same number of turns. If top-down search exhausts the programs, so
does constraint-based search.
-/
theorem agrees_with_topDown (hbinds : Binds examples) (hspares : Spares examples) {fuel : Nat}
    {run : Run} (h : TopDown.run ⟨.arithmetic, examples⟩ bound .never fuel = some run) :
    (∀ p, run.result = .ok (some p) → ∃ x : Expr, p = x.program)
      ∧ (∀ x : Expr, run.result = .ok (some x.program) →
          (∀ e ∈ examples, Within (exactly e.input.point) x.subexpressions) →
          ∃ run', ConstraintBased.run ⟨.arithmetic, examples⟩ bound .never fuel = some run'
            ∧ run'.result = .ok (some x.program))
      ∧ (run.result = .ok none →
          ∃ run', ConstraintBased.run ⟨.arithmetic, examples⟩ bound .never fuel = some run'
            ∧ run'.result = .ok none) := by
  have hmet := met_initial ⟨.arithmetic, examples⟩ bound
  refine ⟨?_, ?_, ?_⟩
  · intro p hp
    obtain ⟨hpmet, _⟩ := met_and_isValid_of_search h hmet hp
    exact exists_expr (hpmet.derives_of_isComplete p.complete)
  · intro x hx hwithin
    obtain ⟨_, hvalid⟩ := met_and_isValid_of_search h hmet hx
    have hexact : ∀ e ∈ examples, x.exact (exactly e.input.point) = e.output.toInt :=
      fun e he => exact_eq_output hbinds he hvalid (x.not_wraps_of_within (hwithin e he))
    have hkept : ¬ ∀ k, ¬ Completes .arithmetic k x.program.root x.term :=
      fun hlost => hlost 0 (Term.completes_self x.program.complete)
    obtain ⟨run', hrun', hsame⟩ := search_thinned (prudent_of_exact hbinds hspares hexact) h hmet
      (.refl _) (Or.inr ⟨_, hx, hkept⟩)
    exact ⟨run', hrun', hsame.trans hx⟩
  · intro hnone
    obtain ⟨run', hrun', hsame⟩ :=
      search_thinned (prudent hbinds hspares) h hmet (.refl _) (Or.inl hnone)
    exact ⟨run', hrun', hsame.trans hnone⟩

/-- The square of `z` is asked for, and nothing even will do. -/
def nine : List Example := [⟨.ofList [("x", 1), ("y", 2), ("z", 3)], 9⟩]

/-- The square of `z`. -/
def squareZ : Expr := .multiply (.var .z) (.var .z)

/-- Both searches find the square, though one of them prunes on the way. -/
theorem agrees_with_topDown_nine :
    ∃ run', ConstraintBased.run ⟨.arithmetic, nine⟩ (some 2) .never 100 = some run'
      ∧ run'.result = .ok (some squareZ.program) := by
  have htop : (TopDown.run ⟨.arithmetic, nine⟩ (some 2) .never 100).map (·.result)
      = some (.ok (some squareZ.program)) := by decide +kernel
  obtain ⟨run, hrun, hresult⟩ := Option.map_eq_some_iff.mp htop
  have hbinds : Binds nine := by
    intro e he v
    cases List.mem_singleton.mp he
    cases v <;> rfl
  have hspares : Spares nine := Arithmetic.spares_of_names (by decide)
  have hwithin : ∀ e ∈ nine, Within (exactly e.input.point) squareZ.subexpressions := by
    unfold Within
    decide +kernel
  exact (agrees_with_topDown hbinds hspares hrun).2.1 squareZ hresult hwithin

end ConstraintBased

end Sygus
