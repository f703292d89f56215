import Sygus.Proofs.Search.Interference

/-!
# Solvers that decide make the same run

A search with a solver hears nothing of it but its answers on the terms that the search meets, so
two solvers with the same answers there make the same run. In particular all solvers do that have a
true answer on each of these terms. If the inputs bind the variables, the built-in solver is one of
them, because the terms met are leftmost. What is said of its runs is then so of the runs with any
other.
-/

namespace Sygus

open Arithmetic (Binds)

variable {solver solver' : Solver} {examples : List Example} {g : Grammar} {bound : Option Nat}

/-- The solver has a true answer, for each of the examples, on every term that a search can meet. -/
def Solver.DecidesMet (solver : Solver) (g : Grammar) (bound : Option Nat)
    (examples : List Example) : Prop :=
  ∀ t : Term, t.Met g bound g.startSymbol → ∀ s, t.sketch = .ok s →
    ∀ e ∈ examples, solver.Decides s e

open Classical in
/-- The solver that knows the truth about every sketch. It is there to compare with, not to be run. -/
noncomputable def Solver.perfect : Solver := fun s e => if s.Reaches e then .sat else .unsat

theorem Solver.perfect_decides (s : IntSketch) (e : Example) : Solver.perfect.Decides s e := by
  unfold Decides perfect
  split
  · rename_i hreaches
    exact Or.inl ⟨rfl, hreaches⟩
  · rename_i hnot
    exact Or.inr ⟨rfl, hnot⟩

/-- **The built-in solver decides what a search meets,** if the inputs bind the variables. -/
theorem Solver.builtIn_decidesMet (hbinds : Binds examples) (g : Grammar) (bound : Option Nat) :
    Solver.builtIn.DecidesMet g bound examples := by
  intro t ht s hs e he
  obtain ⟨n, hsketched⟩ := exists_sketched hs
  exact hsketched.builtIn_decides (Known.complete_ofInput hbinds he)
    (hsketched.isThin (Term.isLeftmost_of_reachable ht.steps))

/-- Solvers that decide keep the same terms. -/
theorem Term.isFeasibleBy_eq_of_decides {t : Term}
    (h : ∀ s, t.sketch = .ok s → ∀ e ∈ examples, solver.Decides s e)
    (h' : ∀ s, t.sketch = .ok s → ∀ e ∈ examples, solver'.Decides s e) :
    t.isFeasibleBy solver examples = t.isFeasibleBy solver' examples := by
  unfold isFeasibleBy
  cases hs : t.sketch with
  | error fault => rfl
  | ok s =>
      have hkept : (examples.all fun e => solver s e ≠ .unsat)
          = examples.all fun e => solver' s e ≠ .unsat := by
        rw [Bool.eq_iff_iff, List.all_eq_true, List.all_eq_true]
        refine forall₂_congr fun e he => ?_
        rw [(h s hs e he).eq (h' s hs e he)]
      exact congrArg Except.ok hkept

namespace ConstraintBased

/-- **All solvers that decide make the same run.** -/
theorem runWith_eq_of_decides (h : solver.DecidesMet g bound examples)
    (h' : solver'.DecidesMet g bound examples) (stop : Stop) (fuel : Nat) :
    runWith solver ⟨g, examples⟩ bound stop fuel
      = runWith solver' ⟨g, examples⟩ bound stop fuel := by
  have hquiet : ∀ {solver : Solver}, solver.DecidesMet g bound examples →
      ∀ t : Term, t.Met g bound g.startSymbol → t.undecidedBy solver examples = [] :=
    fun h t ht => Term.undecidedBy_eq_nil fun s hs e he => (h t ht s hs e he).ne_unknown
  have hm : (mannerWith solver examples).AgreeOn (fun t => t.Met g bound g.startSymbol)
      (mannerWith solver' examples) :=
    { worthwhile := fun t ht => Term.isFeasibleBy_eq_of_decides (h t ht) (h' t ht)
      remarks := fun t ht => congrArg (List.map _) ((hquiet h t ht).trans (hquiet h' t ht).symm)
      accepted := rfl
      exhausted := rfl
      cancelled := rfl }
  exact BreadthFirst.search_congr hm (fun _ => rfl) fuel
    (BreadthFirst.met_initial ⟨g, examples⟩ bound)

/-- **Where the inputs bind the variables, a run does not depend on how its solver decides.** -/
theorem runWith_eq_run (hbinds : Binds examples) (h : solver.DecidesMet g bound examples)
    (stop : Stop) (fuel : Nat) :
    runWith solver ⟨g, examples⟩ bound stop fuel = run ⟨g, examples⟩ bound stop fuel :=
  runWith_eq_of_decides h (Solver.builtIn_decidesMet hbinds g bound) stop fuel

/-- So the program prunes as if it knew the truth about every sketch. -/
theorem run_eq_runWith_perfect (hbinds : Binds examples) (g : Grammar) (bound : Option Nat)
    (stop : Stop) (fuel : Nat) :
    run ⟨g, examples⟩ bound stop fuel = runWith .perfect ⟨g, examples⟩ bound stop fuel :=
  (runWith_eq_run hbinds (fun _ _ s _ e _ => Solver.perfect_decides s e) stop fuel).symm

end ConstraintBased

end Sygus
