import Sygus.Proofs.Stitching
import Sygus.Search.DivideAndConquer

/-!
# Divide and conquer never returns a wrong program

The pools of a run are labelled, so every tree that is stitched out of them fits all
examples, and the test that a tree has to pass before it is returned cannot fail. That
test is kept in the search as a safeguard; what is proved here is that its two other
outcomes, a fault and a refutation, do not occur.

A run thus ends in one of five ways, and `Verdict` lists them. A fault is always one of
growing a pool.
-/

namespace Sygus

namespace Stitcher

/-- The states that searches can lead to: from nothing recalled, by any number of searches
for any sets, the journal going on between them. -/
inductive Visited (c : Stitcher Program) : State Program → Prop where
  | start (j : Journal) : Visited c { journal := j }
  | searched {s : State Program} (depth : Nat) (needed : ExampleSet) :
      Visited c s → Visited c (c.solve depth needed s).2
  | onwards {s : State Program} (j : Journal) : Visited c s → Visited c { s with journal := j }

/-- Whatever has been searched for before, only right trees are recalled. -/
theorem Visited.sound {c : Stitcher Program} {examples : List Example} (hc : c.Labelled examples)
    {s : State Program} (h : c.Visited s) : s.Sound examples := by
  induction h with
  | start j => intro needed tree htree; simp at htree
  | searched depth needed _ ih => exact (solve_sound hc depth needed _ ih).1
  | onwards j _ ih => exact ih

end Stitcher

/-- The greater of `x` and `y` is asked for: once it is the one, once the other. -/
def Problem.branching : Problem where
  grammar := .arithmetic
  examples := [⟨.ofList [("x", 5), ("y", 1), ("z", 0)], 5⟩,
    ⟨.ofList [("x", 0), ("y", 9), ("z", 0)], 9⟩]

namespace DivideAndConquer

variable {c : Setting}

/-- The stitcher of two pools. -/
def Pools.stitcher (pools : Pools) (recalls : Bool) (stop : Stop) : Stitcher Program :=
  ⟨pools.expressions.entries, pools.predicates.entries, recalls, stop⟩

/-- Pools that growing has built over the examples of a problem. -/
structure Pools.Grown (pools : Pools) (problem : Problem) : Prop where
  expressions : pools.expressions.Grown problem .expression
  predicates : pools.predicates.Grown problem .predicate

theorem Pools.Grown.labelled {pools : Pools} {problem : Problem} (h : pools.Grown problem)
    (recalls : Bool) (stop : Stop) : (pools.stitcher recalls stop).Labelled problem.examples :=
  ⟨h.expressions.labelled.2, h.predicates.labelled.2⟩

/-- The journal with which an attempt begins to search. -/
def attemptJournal (pools : Pools) (j : Journal) : Journal :=
  j.report (.stitching pools.expressions.entries.length pools.predicates.entries.length)

/-- An attempt is a search for all examples. -/
theorem attempt_eq (pools : Pools) (j : Journal) :
    attempt c pools j
      = (let n := c.problem.examples.length
         let r := (pools.stitcher c.recalls c.stop).solve ((List.range n).length + 1)
           (List.range n) { journal := attemptJournal pools j }
         (r.1, r.2.journal)) := rfl

/-- **The test at the end passes.** A tree that an attempt finds is valid. -/
theorem isValid_of_attempt {pools : Pools}
    (hlabelled : (pools.stitcher c.recalls c.stop).Labelled c.problem.examples) {j j' : Journal}
    {tree : Program} (ha : attempt c pools j = (some tree, j')) :
    tree.isValid c.problem.examples = .ok true := by
  have hstart := (Stitcher.Visited.start (attemptJournal pools j)).sound hlabelled
  rw [attempt_eq] at ha
  exact isValid_of_fits
    ((Stitcher.solve_sound hlabelled _ _ _ hstart).2 tree (congrArg Prod.fst ha))

/-- The ways in which a run can end once there are examples. -/
inductive Verdict (c : Setting) : Run → Prop where
  /-- A pool was exhausted, or stopped, before it covered the examples. -/
  | fallsShort (role : Role) (j : Journal) : Verdict c ⟨.ok none, j.report (.fallsShort role)⟩
  | cancelled (j : Journal) : Verdict c ⟨.ok none, j.report .stitchingCancelled⟩
  | bothDry (j : Journal) : Verdict c ⟨.ok none, j.report .bothDry⟩
  /-- Growing a pool met a fault. -/
  | fault {role : Role} {p : Pool} {fuel : Nat} {j : Journal} {g : Growth} {fault : Fault} :
      p.Grown c.problem role → p.grow c.problem c.stop fuel j = some g →
      g.grew = .error fault → Verdict c ⟨.error fault, g.journal⟩
  /-- A tree was stitched, and it passed the test. -/
  | found {pools : Pools} {j j' : Journal} {tree : Program} :
      pools.Grown c.problem → attempt c pools j = (some tree, j') →
      tree.isValid c.problem.examples = .ok true →
      Verdict c ⟨.ok (some tree), j'.report (.found tree)⟩

/-- No tree has been refuted so far. -/
def Unrefuted (j : Journal) : Prop := ∀ tree, Event.refuted tree ∉ j.events

theorem Unrefuted.report {j : Journal} (h : Unrefuted j) {e : Event}
    (he : ∀ tree, e ≠ .refuted tree) : Unrefuted (j.report e) := by
  intro tree hmem
  rcases List.mem_append.mp hmem with hmem | hmem
  · exact h tree hmem
  · exact he tree (List.mem_singleton.mp hmem).symm

theorem Unrefuted.grow {p : Pool} {problem : Problem} {stop : Stop} {fuel : Nat} {j : Journal}
    {g : Growth} (h : Unrefuted j) (hg : p.grow problem stop fuel j = some g) :
    Unrefuted g.journal := by
  intro tree hmem
  rcases Pool.grow_events hg with heq | ⟨program, s, heq⟩
  · exact h tree (heq ▸ hmem)
  · rw [heq] at hmem
    rcases List.mem_append.mp hmem with hmem | hmem
    · exact h tree hmem
    · simp at hmem

theorem attempt_events (pools : Pools) (j : Journal) :
    (attempt c pools j).2.events = (attemptJournal pools j).events := by
  rw [attempt_eq]
  exact Stitcher.solve_silent _ _ _

theorem Unrefuted.attempt {pools : Pools} {j j' : Journal} {answer : Option Program}
    (h : Unrefuted j) (ha : attempt c pools j = (answer, j')) : Unrefuted j' := by
  intro tree hmem
  have hj' : j' = (DivideAndConquer.attempt c pools j).2 := by rw [ha]
  rw [hj', attempt_events] at hmem
  exact (h.report (e := .stitching _ _) (by simp)) tree hmem

theorem Pools.Grown.step {pools : Pools} (h : pools.Grown c.problem) {e p : Growth}
    {fuel fuel' : Nat} {j j' : Journal}
    (he : pools.expressions.grow c.problem c.stop fuel j = some e)
    (hp : pools.predicates.grow c.problem c.stop fuel' j' = some p) :
    (⟨e.pool, p.pool⟩ : Pools).Grown c.problem :=
  ⟨h.expressions.grow he, h.predicates.grow hp⟩

/-- Growing to cover either does nothing or makes an attempt to grow. -/
theorem growToCover_cases {fuel : Nat} {p : Pool} {j : Journal} {g : Growth}
    (h : growToCover c fuel p j = some g) :
    (p.covers c.problem.examples.length = true ∧ g = ⟨.ok true, p, j⟩)
      ∨ (p.covers c.problem.examples.length = false
          ∧ p.grow c.problem c.stop fuel j = some g) := by
  unfold growToCover at h
  split at h
  · rename_i hcovers
    cases h
    exact Or.inl ⟨hcovers, rfl⟩
  · rename_i hcovers
    exact Or.inr ⟨by simpa using hcovers, h⟩

theorem growToCover_grown {role : Role} {fuel : Nat} {p : Pool} {j : Journal} {g : Growth}
    (hp : p.Grown c.problem role) (hj : Unrefuted j) (h : growToCover c fuel p j = some g) :
    g.pool.Grown c.problem role ∧ Unrefuted g.journal := by
  rcases growToCover_cases h with ⟨_, rfl⟩ | ⟨_, hgrow⟩
  · exact ⟨hp, hj⟩
  · exact ⟨hp.grow hgrow, hj.grow hgrow⟩

theorem verdict_of_growToCover_error {role : Role} {fuel : Nat} {p : Pool} {j : Journal}
    {g : Growth} {fault : Fault} (hp : p.Grown c.problem role)
    (h : growToCover c fuel p j = some g) (hf : g.grew = .error fault) :
    Verdict c ⟨.error fault, g.journal⟩ := by
  rcases growToCover_cases h with ⟨_, rfl⟩ | ⟨_, hgrow⟩
  · exact absurd hf (by simp)
  · exact .fault hp hgrow hf

/-- The first phase ends the run in a way that is allowed, or hands on grown pools. -/
theorem cover_verdict {fuel : Nat} {pools : Pools} {j : Journal} {phase : Phase}
    (hpools : pools.Grown c.problem) (hj : Unrefuted j)
    (h : cover c fuel pools j = some phase) :
    (∃ run, phase = .ended run ∧ Verdict c run ∧ Unrefuted run.journal)
      ∨ ∃ pools' j', phase = .ready pools' j' ∧ pools'.Grown c.problem ∧ Unrefuted j' := by
  induction fuel generalizing pools j with
  | zero => exact absurd h (by simp [cover])
  | succ fuel ih =>
      rw [cover] at h
      split at h
      · -- the pools cover the examples already
        cases h
        exact Or.inr ⟨pools, j, rfl, hpools, hj⟩
      · rw [Option.bind_eq_bind, Option.bind_eq_some_iff] at h
        obtain ⟨e, he, h⟩ := h
        obtain ⟨hgrown, hej⟩ := growToCover_grown hpools.expressions hj he
        split at h
        · rename_i fault hfault
          cases h
          exact Or.inl ⟨_, rfl, verdict_of_growToCover_error hpools.expressions he hfault, hej⟩
        · cases h
          exact Or.inl ⟨_, rfl, .fallsShort .expression _, hej.report (by simp)⟩
        · rw [Option.bind_eq_some_iff] at h
          obtain ⟨p, hp, h⟩ := h
          obtain ⟨hgrown', hpj⟩ := growToCover_grown hpools.predicates hej hp
          split at h
          · rename_i fault hfault
            cases h
            exact Or.inl ⟨_, rfl, verdict_of_growToCover_error hpools.predicates hp hfault, hpj⟩
          · cases h
            exact Or.inl ⟨_, rfl, .fallsShort .predicate _, hpj.report (by simp)⟩
          · exact ih ⟨hgrown, hgrown'⟩ hpj h

/-- The second phase ends the run in a way that is allowed. -/
theorem conquer_verdict {fuel : Nat} {pools : Pools} {j : Journal} {run : Run}
    (hpools : pools.Grown c.problem) (hj : Unrefuted j)
    (h : conquer c fuel pools j = some run) : Verdict c run ∧ Unrefuted run.journal := by
  induction fuel generalizing pools j with
  | zero => exact absurd h (by simp [conquer])
  | succ fuel ih =>
      rw [conquer] at h
      split at h
      · cases h
        exact ⟨.cancelled _, Unrefuted.report (j := j.polled) hj (by simp)⟩
      · split at h
        · rename_i tree j' ha
          -- the tree fits all examples, so the test at the end is passed
          have hvalid := isValid_of_attempt (hpools.labelled c.recalls c.stop) ha
          have hj' : Unrefuted j' := Unrefuted.attempt (j := j.polled) hj ha
          simp only [conclude, hvalid, Option.some.injEq] at h
          subst h
          exact ⟨.found hpools ha hvalid, hj'.report (by simp)⟩
        · rename_i j' ha
          have hj' : Unrefuted j' := Unrefuted.attempt (j := j.polled) hj ha
          rw [Option.bind_eq_bind, Option.bind_eq_some_iff] at h
          obtain ⟨e, he, h⟩ := h
          have hej := hj'.grow he
          split at h
          · rename_i fault hfault
            cases h
            exact ⟨.fault hpools.expressions he hfault, hej⟩
          · rw [Option.bind_eq_some_iff] at h
            obtain ⟨p, hp, h⟩ := h
            have hpj := hej.grow hp
            have hgrown := hpools.step he hp
            split at h
            · rename_i fault hfault
              cases h
              exact ⟨.fault hpools.predicates hp hfault, hpj⟩
            · split at h
              · -- a pool has grown, and the next round begins
                exact ih hgrown hpj h
              · split at h
                · exact ih (j := p.journal.polled) hgrown hpj h
                · cases h
                  exact ⟨.bothDry _, Unrefuted.report (j := p.journal.polled) hpj (by simp)⟩

/-- What a run works on: the distinct examples of a problem. -/
def Setting.of (problem : Problem) (recalls : Bool) (stop : Stop) : Setting :=
  ⟨{ problem with examples := problem.examples.eraseDups }, recalls, stop⟩

/-- A run without examples hands out the first expression; other runs have two phases. -/
theorem run_eq (problem : Problem) (recalls : Bool) (bound : Option Nat) (stop : Stop)
    (fuel : Nat) :
    run problem recalls bound stop fuel
      = (let c := Setting.of problem recalls stop
         if problem.examples = [] then firstExpression c bound fuel
         else (cover c fuel (.fresh bound) .empty).bind fun phase =>
           match phase with
           | .ended run => some run
           | .ready pools j => conquer c fuel pools j) := by
  have hempty : problem.examples.eraseDups.isEmpty = true ↔ problem.examples = [] := by
    cases problem.examples with
    | nil => simp
    | cons e rest => simp [List.eraseDups_cons]
  unfold run Setting.of
  dsimp only
  by_cases h : problem.examples = []
  · rw [if_pos h, if_pos (hempty.mpr h)]
  · rw [if_neg h, if_neg (fun he => h (hempty.mp he))]
    rfl

/-- **Every run with examples ends in one of the five ways,** and reports no refutation. -/
theorem run_verdict {problem : Problem} {recalls : Bool} {bound : Option Nat} {stop : Stop}
    {fuel : Nat} {r : Run} (hne : problem.examples ≠ [])
    (h : run problem recalls bound stop fuel = some r) :
    Verdict (.of problem recalls stop) r ∧ Unrefuted r.journal := by
  rw [run_eq] at h
  dsimp only at h
  rw [if_neg hne, Option.bind_eq_some_iff] at h
  obtain ⟨phase, hcover, h⟩ := h
  have hfresh : (Pools.fresh bound).Grown (Setting.of problem recalls stop).problem :=
    ⟨.fresh _ _ _, .fresh _ _ _⟩
  have hempty : Unrefuted .empty := fun _ => by simp [Journal.empty]
  rcases cover_verdict hfresh hempty hcover with
    ⟨r', rfl, hverdict, hr'⟩ | ⟨pools, j, rfl, hpools, hj⟩
  · cases h
    exact ⟨hverdict, hr'⟩
  · exact conquer_verdict hpools hj h

theorem run_nil_unrefuted {problem : Problem} {recalls : Bool} {bound : Option Nat} {stop : Stop}
    {fuel : Nat} {r : Run} (hnil : problem.examples = [])
    (h : run problem recalls bound stop fuel = some r) : Unrefuted r.journal := by
  rw [run_eq] at h
  dsimp only at h
  rw [if_pos hnil] at h
  unfold firstExpression at h
  rw [Option.bind_eq_bind, Option.bind_eq_some_iff] at h
  obtain ⟨pull, hpull, h⟩ := h
  cases h
  intro tree hmem
  dsimp only at hmem
  rw [Enumerator.next_events hpull] at hmem
  simp [Journal.empty] at hmem

/-- What a run with examples returns is right on each of them, repeated ones included. -/
theorem evaluate_of_run {problem : Problem} {recalls : Bool} {bound : Option Nat} {stop : Stop}
    {fuel : Nat} {r : Run} (h : run problem recalls bound stop fuel = some r) {p : Program}
    (hp : r.result = .ok (some p)) :
    ∀ e ∈ problem.examples, p.evaluate e.input = .ok e.output := by
  intro e he
  obtain ⟨hverdict, _⟩ := run_verdict (List.ne_nil_of_mem he) h
  cases hverdict with
  | found _ _ hvalid =>
      cases hp
      exact isValid_iff.mp hvalid e (List.mem_eraseDups.mpr he)
  | fallsShort => exact absurd hp (by simp)
  | cancelled => exact absurd hp (by simp)
  | bothDry => exact absurd hp (by simp)
  | fault => exact absurd hp (by simp)

/--
**No wrong program is stitched, and none is returned.**

Whatever pools growing has built over the examples of a problem, whatever has been
searched for before and whenever the flag goes up, a tree found for a set of examples
evaluates on all of them, to their outputs. So the test at the end of a run has only one
outcome: a run with examples ends in one of the ways of `Verdict`, no program is ever
reported as refuted, and a program that is returned is right on every example given.
-/
theorem run_sound (problem : Problem) (recalls : Bool) (stop : Stop) :
    (∀ pools : Pools, pools.Grown problem →
      ∀ s, (pools.stitcher recalls stop).Visited s → ∀ depth needed tree,
        ((pools.stitcher recalls stop).solve depth needed s).1 = some tree →
          tree.Fits problem.examples needed)
      ∧ ∀ bound fuel r, run problem recalls bound stop fuel = some r →
          (problem.examples ≠ [] → Verdict (.of problem recalls stop) r)
            ∧ (∀ tree, Event.refuted tree ∉ r.journal.events)
            ∧ ∀ p, r.result = .ok (some p) →
                ∀ e ∈ problem.examples, p.evaluate e.input = .ok e.output := by
  refine ⟨?_, ?_⟩
  · intro pools hpools s hs depth needed tree htree
    have hlabelled := hpools.labelled recalls stop
    exact (Stitcher.solve_sound hlabelled depth needed s (hs.sound hlabelled)).2 tree htree
  · intro bound fuel r hr
    rcases Classical.em (problem.examples = []) with hnil | hne
    · exact ⟨fun hne => absurd hnil hne, run_nil_unrefuted hnil hr, by simp [hnil]⟩
    · obtain ⟨hverdict, hunrefuted⟩ := run_verdict hne hr
      exact ⟨fun _ => hverdict, hunrefuted, fun p hp => evaluate_of_run hr hp⟩

/-- With one entry in the pool of expressions the tree for the first of two examples is that
entry; the run for both goes on to a tree with two branches. -/
theorem run_sound_branching :
    (∃ g, (Pool.fresh .expression none).grow .branching .never 100 .empty = some g
      ∧ ∃ tree, (((⟨g.pool, .fresh .predicate none⟩ : Pools).stitcher true .never).solve 2 [0]
          { journal := .empty }).1 = some tree
        ∧ tree.Fits Problem.branching.examples [0])
      ∧ ∃ r, run .branching true none .never 100 = some r
        ∧ ∃ tree, r.result = .ok (some tree)
          ∧ ∀ e ∈ Problem.branching.examples, tree.evaluate e.input = .ok e.output := by
  refine ⟨?_, ?_⟩
  · have hgrow : (Pool.fresh .expression none).grow .branching .never 100 .empty = some _ := rfl
    refine ⟨_, hgrow, _, rfl, ?_⟩
    exact (run_sound .branching true .never).1 ⟨_, .fresh .predicate none⟩
      ⟨(Pool.Grown.fresh _ _ none).grow hgrow, .fresh _ _ _⟩ _ (.start .empty) 2 [0] _ rfl
  · exact ⟨_, rfl, _, rfl, ((run_sound .branching true .never).2 none 100 _ rfl).2.2 _ rfl⟩

end DivideAndConquer

end Sygus
