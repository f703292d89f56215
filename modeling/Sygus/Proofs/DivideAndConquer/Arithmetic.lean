import Sygus.Proofs.Arithmetic.Labels
import Sygus.Proofs.DivideAndConquer.Totality

/-!
# Divide and conquer solves every consistent problem of conditional arithmetic

There is no bound here, so no pool is ever exhausted, and an attempt to grow a pool would go
on for ever if no program with a new label were left. That there is one whenever an
attempt is made is a matter of what the grammar can express.

* A pool that does not cover an example lacks the label of some program for that example.
* If there is no tree, the pool of expressions lacks the label of all examples. And it has an
  expression without a guard, or else a chain of branches could be chosen greedily; so the
  pool of predicates lacks the label of that expression, which some condition has.

So all attempts end, and no way for the run to end is left but with a program.
-/

namespace Sygus.DivideAndConquer

open Arithmetic (Binds Consistent)

variable {examples : List Example} {role : Role} {p : Pool}

/-- A pool that lacks a label is responsive. -/
theorem responsive_of_lacks (h : Binds examples) (hp : p.Steady ⟨.arithmetic, examples⟩ none role)
    (hlacks : p.Lacks ⟨.arithmetic, examples⟩ none role) : p.Responsive ⟨.arithmetic, examples⟩ := by
  intro j
  obtain ⟨fuel, g, hg, _⟩ :=
    hp.exists_grow_of_lacks (Arithmetic.faultless h none role) hlacks j
  exact ⟨fuel, g, hg⟩

/-- A pool that lacks a label is not exhausted. -/
theorem not_dry_of_lacks {problem : Problem} {bound : Option Nat}
    (hp : p.Steady problem bound role) (hlacks : p.Lacks problem bound role) : ¬ p.Dry := by
  intro hdry
  obtain ⟨q, s, hdraws, hs, hnew⟩ := hlacks
  exact hnew (hp.spurns_of_dry hdry hdraws hs)

theorem lacks_of_not_covers (h : Binds examples) (hp : p.Steady ⟨.arithmetic, examples⟩ none role)
    (hcovers : p.covers examples.length = false) :
    p.Lacks ⟨.arithmetic, examples⟩ none role := by
  have hno : ¬ ∀ i < examples.length, ∃ e ∈ p.entries, i ∈ e.label := by
    rw [← hp.covers_iff, hcovers]
    exact Bool.false_ne_true
  push Not at hno
  obtain ⟨i, hi, hnone⟩ := hno
  obtain ⟨q, s, hdraws, hs, his⟩ := Arithmetic.exists_label_mem h role hi
  refine ⟨q, s, hdraws, hs, ?_⟩
  intro heither
  rcases heither with rfl | ⟨e, he, rfl⟩
  · simp at his
  · exact hnone e he his

/-- The attempt is for all examples, and there is one. -/
theorem lacks_of_not_solvable {c : Setting} {pools : Pools} (hc : c.problem = ⟨.arithmetic, examples⟩)
    (h : Binds examples) (hcons : Consistent examples) (hne : examples ≠ [])
    (hpools : pools.Steady ⟨.arithmetic, examples⟩ none) (hcover : pools.Cover c)
    (hunsolvable : ¬ pools.Solvable c) :
    pools.expressions.Lacks ⟨.arithmetic, examples⟩ none .expression
      ∧ pools.predicates.Lacks ⟨.arithmetic, examples⟩ none .predicate := by
  have hrange : List.range examples.length ≠ [] := by
    simpa [List.range_eq_nil] using hne
  unfold Pools.Solvable at hunsolvable
  unfold Pools.Cover at hcover
  rw [hc] at hunsolvable hcover
  refine ⟨?_, ?_⟩
  · -- an entry that fits all examples would be the tree
    obtain ⟨q, hdraws, hs⟩ := Arithmetic.exists_label_range h hcons
    refine ⟨q, _, hdraws, hs, ?_⟩
    intro heither
    rcases heither with hnil | ⟨e, he, hall⟩
    · exact hrange hnil
    · exact hunsolvable (.last he (by rw [hall]; exact fun _ hi => hi))
  · -- if every entry had a guard, branches could be chosen greedily
    have hguards : ¬ ∀ e ∈ pools.expressions.entries, ∃ guard ∈ pools.predicates.entries,
        guard.label = e.label := by
      intro hguards
      refine hunsolvable (Stitcher.solvable_of_guards hguards hrange fun i hi => ?_)
      exact hpools.expressions.covers_iff.mp hcover.1 i (List.mem_range.mp hi)
    push Not at hguards
    obtain ⟨e, he, hnone⟩ := hguards
    obtain ⟨hdraws, hlabel⟩ := hpools.expressions.entries e he
    obtain ⟨q, hqdraws, hq⟩ := Arithmetic.exists_cond_label h hcons hdraws hlabel
    refine ⟨q, _, hqdraws, hq, ?_⟩
    intro heither
    rcases heither with hnil | ⟨guard, hguard, heq⟩
    · exact hpools.expressions.nonempty e he hnil
    · exact hnone guard hguard heq

/-- In consistent problems all attempts to grow end. -/
theorem tame_arithmetic (h : Binds examples) (hcons : Consistent examples) (hne : examples ≠ [])
    (recalls : Bool) : Tame ⟨⟨.arithmetic, examples⟩, recalls, .never⟩ none where
  calm := rfl
  faultless := Arithmetic.faultless h none
  uncovered := fun hp hcovers => responsive_of_lacks h hp (lacks_of_not_covers h hp hcovers)
  unsolvable := by
    intro pools hpools hcover hunsolvable
    obtain ⟨he, hp⟩ := lacks_of_not_solvable rfl h hcons hne hpools hcover hunsolvable
    exact ⟨responsive_of_lacks h hpools.expressions he, responsive_of_lacks h hpools.predicates hp⟩

theorem binds_branching : Binds Problem.branching.examples := by
  intro e he v
  simp only [Problem.branching, List.mem_cons, List.not_mem_nil, or_false] at he
  rcases he with rfl | rfl <;> cases v <;> decide

/--
**Every consistent problem of conditional arithmetic is solved.**

Take any examples, at least one, that bind all variables, and of which any two with the same
variables have the same output. Then a run that nobody stops, without a bound and whether
it recalls answers or not, ends, whatever amount of fuel it is given beyond some number,
and it ends with a program. The fuel is that of every attempt to grow a pool as well,
so none of these goes on for ever.
-/
theorem solves_consistent (examples : List Example) (recalls : Bool) (hne : examples ≠ [])
    (hbinds : Binds examples) (hconsistent : Consistent examples) :
    ∃ fuel₀ r p, (∀ fuel ≥ fuel₀, run ⟨.arithmetic, examples⟩ recalls none .never fuel = some r)
      ∧ r.result = .ok (some p) ∧ ∀ e ∈ examples, p.evaluate e.input = .ok e.output := by
  have hne' : examples.eraseDups ≠ [] := by
    obtain ⟨e, he⟩ := List.exists_mem_of_ne_nil examples hne
    exact List.ne_nil_of_mem (List.mem_eraseDups.mpr he)
  have hbinds' : Binds examples.eraseDups := fun e he => hbinds e (List.mem_eraseDups.mp he)
  have hconsistent' : Consistent examples.eraseDups := fun e he e' he' =>
    hconsistent e (List.mem_eraseDups.mp he) e' (List.mem_eraseDups.mp he')
  have htame : Tame (.of ⟨.arithmetic, examples⟩ recalls .never) none :=
    tame_arithmetic hbinds' hconsistent' hne' recalls
  obtain ⟨fuel₀, r, hrun, hsettled⟩ := htame.exists_run hne
  have hfits : ∀ {p}, r.result = .ok (some p) →
      ∀ e ∈ examples, p.evaluate e.input = .ok e.output := evaluate_of_run (hrun fuel₀ (Nat.le_refl _))
  cases hsettled with
  | @found _ tree _ _ _ _ => exact ⟨fuel₀, _, tree, hrun, rfl, hfits rfl⟩
  | uncovered hp hdry hcovers =>
      exact absurd hdry (not_dry_of_lacks hp (lacks_of_not_covers hbinds' hp hcovers))
  | unsolvable hpools hcover hdry _ hunsolvable =>
      obtain ⟨hlacks, _⟩ :=
        lacks_of_not_solvable rfl hbinds' hconsistent' hne' hpools hcover hunsolvable
      exact absurd hdry (not_dry_of_lacks hpools.expressions hlacks)

/-- The two examples of `Problem.branching` bind all variables and differ in `x`. -/
theorem solves_consistent_branching :
    ∃ fuel₀ r p, (∀ fuel ≥ fuel₀, run .branching true none .never fuel = some r)
      ∧ r.result = .ok (some p)
      ∧ ∀ e ∈ Problem.branching.examples, p.evaluate e.input = .ok e.output := by
  refine solves_consistent Problem.branching.examples true (by simp [Problem.branching])
    binds_branching ?_
  intro e he e' he' hsame
  have hx := hsame .x
  simp only [Problem.branching, List.mem_cons, List.not_mem_nil, or_false] at he he'
  rcases he with rfl | rfl <;> rcases he' with rfl | rfl
  · rfl
  · exact absurd hx (by decide)
  · exact absurd hx (by decide)
  · rfl

end Sygus.DivideAndConquer
