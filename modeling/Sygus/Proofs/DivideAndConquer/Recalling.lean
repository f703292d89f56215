import Sygus.Proofs.DivideAndConquer.Totality

/-!
# Recalling answers shows in nothing

A stitching that recalls answers takes fewer looks at the stop flag than one that searches
again. If nobody raises the flag, this is the only difference there is: a run may take note of
how often it has looked at the flag, but what it does depends on its journal only through the
events reported. So `visible` leaves out the number of looks, and the lemmas below say of every
part of a run that what is visible of its outcome is determined by what is visible
of its start.

The answers themselves are those of `Stitcher.answer`, whatever has been asked before, because
nothing else is ever recalled.
-/

namespace Sygus

/-! ## What is visible -/

/-- What others can see of a call: all but the number of looks at the flag. -/
def Pull.visible (p : Pull) : Except Fault (Option Program) × Enumerator × List Event :=
  (p.result, p.rest, p.journal.events)

/-- What others can see of an attempt to grow. -/
def Growth.visible (g : Growth) : Except Fault Bool × Pool × List Event :=
  (g.grew, g.pool, g.journal.events)

/-- What others can see of a run. -/
def Run.visible (r : Run) : Except Fault (Option Program) × List Event :=
  (r.result, r.journal.events)

theorem Pull.visible_eq {result result' : Except Fault (Option Program)} {e e' : Enumerator}
    {j j' : Journal} :
    (⟨result, e, j⟩ : Pull).visible = (⟨result', e', j'⟩ : Pull).visible
      ↔ result = result' ∧ e = e' ∧ j.events = j'.events := by
  simp [visible]

theorem Growth.visible_eq {grew grew' : Except Fault Bool} {p p' : Pool} {j j' : Journal} :
    (⟨grew, p, j⟩ : Growth).visible = (⟨grew', p', j'⟩ : Growth).visible
      ↔ grew = grew' ∧ p = p' ∧ j.events = j'.events := by
  simp [visible]

/-- Steps that go on alike from what looks alike lead to what looks alike. -/
theorem map_bind_eq_of_map_eq {α β γ δ : Type} {v : α → γ} {w : β → δ} {x x' : Option α}
    {f f' : α → Option β} (hx : x.map v = x'.map v)
    (hf : ∀ a a', v a = v a' → (f a).map w = (f' a').map w) :
    (x.bind f).map w = (x'.bind f').map w := by
  cases x with
  | none =>
      cases x' with
      | none => rfl
      | some a' => cases hx
  | some a =>
      cases x' with
      | none => cases hx
      | some a' => exact hf a a' (Option.some.inj hx)

/-- A call that is not stopped does not depend on the number of looks. -/
theorem Enumerator.next_visible (g : Grammar) (fuel : Nat) (e : Enumerator) {j j' : Journal}
    (h : j.events = j'.events) :
    (next g .never fuel e j).map Pull.visible = (next g .never fuel e j').map Pull.visible := by
  cases h₁ : next g .never fuel e j with
  | none =>
      cases h₂ : next g .never fuel e j' with
      | none => rfl
      | some pull =>
          obtain ⟨j₁, h₁'⟩ := exists_next_of_next h₂ j
          cases h₁.symm.trans h₁'
  | some pull =>
      obtain ⟨j₂, h₂⟩ := exists_next_of_next h₁ j'
      have hevents : pull.journal.events = j₂.events :=
        (next_events h₁).trans (h.trans (next_events h₂).symm)
      rw [h₂, Option.map_some, Option.map_some, Pull.visible, Pull.visible, hevents]

/-- Nor does growing. -/
theorem Pool.grow_visible (problem : Problem) (fuel : Nat) (p : Pool) {j j' : Journal}
    (h : j.events = j'.events) :
    (p.grow problem .never fuel j).map Growth.visible
      = (p.grow problem .never fuel j').map Growth.visible := by
  induction fuel generalizing p j j' with
  | zero => rfl
  | succ fuel ih =>
      rw [grow, grow]
      refine map_bind_eq_of_map_eq (Enumerator.next_visible problem.grammar fuel p.source h) ?_
      rintro ⟨result, rest, journal⟩ ⟨result', rest', journal'⟩ hpull
      obtain ⟨rfl, rfl, hevents⟩ := Pull.visible_eq.mp hpull
      rcases result with fault | _ | program
      · simp [Growth.visible, hevents]
      · simp [Growth.visible, hevents]
      · dsimp only
        rcases p.role.label program problem.examples with fault | label
        · simp [Growth.visible, hevents]
        · dsimp only
          split
          · exact ih _ hevents
          · simp [Growth.visible, Journal.report, hevents]

/-! ## Asking for sets -/

namespace Stitcher

variable {α : Type} [Piece α] {c c' : Stitcher α}

/-- A tree is made of the pools alone. -/
theorem tree_congr (hexpressions : c.expressions = c'.expressions)
    (hpredicates : c.predicates = c'.predicates) (depth : Nat) (needed : ExampleSet) :
    c.tree depth needed = c'.tree depth needed := by
  induction depth generalizing needed with
  | zero => rfl
  | succ depth ih => simp only [tree, guards, hexpressions, hpredicates, ih]

theorem answer_congr (hexpressions : c.expressions = c'.expressions)
    (hpredicates : c.predicates = c'.predicates) (needed : ExampleSet) :
    c.answer needed = c'.answer needed :=
  tree_congr hexpressions hpredicates _ needed

/-- The states that an attempt comes by: from nothing to recall, sets are asked for one after
the other, and the journal goes on between them. Each search is deep enough for its set, as those
of an attempt are. -/
inductive Asked (c : Stitcher α) : State α → Prop where
  | start (j : Journal) : Asked c { journal := j }
  | ask {s : State α} {depth : Nat} {needed : ExampleSet} :
      Asked c s → needed.length < depth → Asked c (c.solve depth needed s).2
  | onwards {s : State α} (j : Journal) : Asked c s → Asked c { s with journal := j }

/-- **Whatever has been asked for, only answers are recalled.** -/
theorem Asked.faithful (hc : c.stop = .never) {s : State α} (h : c.Asked s) : s.Faithful c := by
  induction h with
  | start j => intro needed found hmem; simp at hmem
  | ask _ hdepth ih => exact (gives_solve hc hdepth _ ih).2
  | onwards j _ ih => exact ih

/-- Whatever has been asked for, a set gets its answer. -/
theorem Asked.solve_eq (hc : c.stop = .never) {s : State α} (h : c.Asked s) {depth : Nat}
    {needed : ExampleSet} (hdepth : needed.length < depth) :
    (c.solve depth needed s).1 = c.answer needed :=
  (gives_solve hc hdepth s (h.faithful hc)).1

end Stitcher

/-! ## Runs -/

namespace DivideAndConquer

variable {problem : Problem} {recalls recalls' : Bool}

/-- The first phase does not stitch. -/
theorem cover_recalls (stop : Stop) (fuel : Nat) (pools : Pools) (j : Journal) :
    cover ⟨problem, recalls, stop⟩ fuel pools j = cover ⟨problem, recalls', stop⟩ fuel pools j := by
  induction fuel generalizing pools j with
  | zero => rfl
  | succ fuel ih =>
      have hgrow : growToCover ⟨problem, recalls, stop⟩
          = growToCover ⟨problem, recalls', stop⟩ := rfl
      simp only [cover, hgrow, ih]

/-- What an attempt finds and reports does not depend on recalling. -/
theorem attempt_visible {pools : Pools} {j j' j₁ j₁' : Journal} {found found' : Option Program}
    (h : j.events = j'.events) (ha : attempt ⟨problem, recalls, .never⟩ pools j = (found, j₁))
    (ha' : attempt ⟨problem, recalls', .never⟩ pools j' = (found', j₁')) :
    found = found' ∧ j₁.events = j₁'.events := by
  have hfst := attempt_fst (c := ⟨problem, recalls, .never⟩) rfl pools j
  have hfst' := attempt_fst (c := ⟨problem, recalls', .never⟩) rfl pools j'
  have hevents := attempt_events (c := ⟨problem, recalls, .never⟩) pools j
  have hevents' := attempt_events (c := ⟨problem, recalls', .never⟩) pools j'
  rw [ha] at hfst hevents
  rw [ha'] at hfst' hevents'
  have hanswer : (pools.stitcher recalls .never).answer (List.range problem.examples.length)
      = (pools.stitcher recalls' .never).answer (List.range problem.examples.length) := by
    refine Stitcher.answer_congr ?_ ?_ _ <;> rfl
  have hjournal : (attemptJournal pools j).events = (attemptJournal pools j').events := by
    simp [attemptJournal, Journal.report, h]
  exact ⟨hfst.trans (hanswer.trans hfst'.symm), hevents.trans (hjournal.trans hevents'.symm)⟩

theorem conclude_visible (tree : Program) {j j' : Journal} (h : j.events = j'.events) :
    (conclude ⟨problem, recalls, .never⟩ tree j).visible
      = (conclude ⟨problem, recalls', .never⟩ tree j').visible := by
  unfold conclude
  dsimp only
  rcases tree.isValid problem.examples with fault | _ | _ <;>
    simp [Run.visible, Journal.report, h]

/-- **The second phase looks the same, whether answers are recalled or not.** -/
theorem conquer_visible (fuel : Nat) (pools : Pools) {j j' : Journal}
    (h : j.events = j'.events) :
    (conquer ⟨problem, recalls, .never⟩ fuel pools j).map Run.visible
      = (conquer ⟨problem, recalls', .never⟩ fuel pools j').map Run.visible := by
  induction fuel generalizing pools j j' with
  | zero => rfl
  | succ fuel ih =>
      rw [conquer, conquer]
      simp only [Stop.isRaised, Bool.false_eq_true, if_false]
      have hpolled : j.polled.events = j'.polled.events := h
      rcases ha : attempt ⟨problem, recalls, .never⟩ pools j.polled with ⟨found, j₁⟩
      rcases ha' : attempt ⟨problem, recalls', .never⟩ pools j'.polled with ⟨found', j₁'⟩
      obtain ⟨rfl, hevents⟩ := attempt_visible hpolled ha ha'
      cases found with
      | some tree => exact congrArg some (conclude_visible tree hevents)
      | none =>
          dsimp only
          refine map_bind_eq_of_map_eq
            (Pool.grow_visible problem fuel pools.expressions hevents) ?_
          rintro ⟨grew, e, je⟩ ⟨grew', e', je'⟩ he
          obtain ⟨rfl, rfl, hje⟩ := Growth.visible_eq.mp he
          rcases grew with fault | grewExpression
          · simp [Run.visible, hje]
          · refine map_bind_eq_of_map_eq (Pool.grow_visible problem fuel pools.predicates hje) ?_
            rintro ⟨grew, p, jp⟩ ⟨grew', p', jp'⟩ hp
            obtain ⟨rfl, rfl, hjp⟩ := Growth.visible_eq.mp hp
            rcases grew with fault | grewPredicate
            · simp [Run.visible, hjp]
            · dsimp only
              split
              · exact ih _ hjp
              · simp [Run.visible, Journal.report, Journal.polled, hjp]

/-- **A run looks the same, whether answers are recalled or not.** -/
theorem run_visible (problem : Problem) (recalls recalls' : Bool) (bound : Option Nat)
    (fuel : Nat) :
    (run problem recalls bound .never fuel).map Run.visible
      = (run problem recalls' bound .never fuel).map Run.visible := by
  rw [run_eq, run_eq]
  dsimp only [Setting.of]
  split
  · rfl
  · rw [cover_recalls .never fuel]
    cases cover _ fuel (.fresh bound) .empty with
    | none => rw [Option.bind_none, Option.bind_none]
    | some phase =>
        rw [Option.bind_some, Option.bind_some]
        cases phase with
        | ended run => rfl
        | ready pools j => exact conquer_visible fuel pools rfl

/--
**A run that recalls answers looks the same as one that does not.**

Take any problem and any bound on depth. A run that is not stopped has the same result and the
same reports whether answers are recalled or not, and it ends within the same fuel. And take any
two pools of whatever pieces. A set of needed examples gets the same tree from a search that recalls
answers as from one that does not, whatever sets either has been asked for before.
-/
theorem run_recalls_visible_eq :
    (∀ problem bound fuel, (run problem true bound .never fuel).map Run.visible
      = (run problem false bound .never fuel).map Run.visible)
    ∧ ∀ {α : Type} [Piece α] (expressions predicates : List (Entry α)) (s s' : Stitcher.State α),
      (⟨expressions, predicates, true, .never⟩ : Stitcher α).Asked s →
      (⟨expressions, predicates, false, .never⟩ : Stitcher α).Asked s' →
      ∀ (needed : ExampleSet) (depth : Nat), needed.length < depth →
        ((⟨expressions, predicates, true, .never⟩ : Stitcher α).solve depth needed s).1
          = ((⟨expressions, predicates, false, .never⟩ : Stitcher α).solve depth needed s').1 := by
  refine ⟨fun problem bound fuel => run_visible problem true false bound fuel, ?_⟩
  intro α _ expressions predicates s s' hs hs' needed depth hdepth
  rw [hs.solve_eq rfl hdepth, hs'.solve_eq rfl hdepth]
  refine Stitcher.answer_congr ?_ ?_ needed <;> rfl

/-- A variable for each of two examples. -/
def branches : List (Entry Program) := [⟨⟨.atom "x", rfl⟩, [1]⟩, ⟨⟨.atom "y", rfl⟩, [0]⟩]

/-- The variables are told apart by their order. -/
def comparisons : List (Entry Program) := [⟨⟨.op "Lt" [.atom "x", .atom "y"], rfl⟩, [0]⟩]

/-- To have asked for the second example before changes nothing about the tree for both of them,
and the run on the two examples of `Problem.branching` looks the same either way. -/
theorem run_recalls_visible_eq_branching :
    (run .branching true none .never 100).map Run.visible
        = (run .branching false none .never 100).map Run.visible
      ∧ ((⟨branches, comparisons, true, .never⟩ : Stitcher Program).solve 3 [0, 1]
          ((⟨branches, comparisons, true, .never⟩ : Stitcher Program).solve 2 [1]
            { journal := .empty }).2).1
        = ((⟨branches, comparisons, false, .never⟩ : Stitcher Program).solve 3 [0, 1]
          { journal := .empty }).1 := by
  obtain ⟨hruns, hsets⟩ := run_recalls_visible_eq
  refine ⟨hruns .branching none 100, ?_⟩
  exact hsets branches comparisons _ _ (.ask (.start .empty) (by decide)) (.start .empty)
    [0, 1] 3 (by decide)

end DivideAndConquer

end Sygus
