import Sygus.Enumerator.Session
import Sygus.Proofs.Catalogue
import Sygus.Proofs.Choices
import Sygus.Strategy

/-!
# How productions of different categories interleave

All that a search wants to know of a grammar is where to start and what the productions of a
category are. So grammars that give the same answers to these questions cannot be told apart by
anything that runs: a step is the same (`SameChoices.expand_eq`), and by induction on its fuel every
loop that takes steps does the same, be it of an enumerator or of a strategy.

A grammar that is declared as a list of productions keeps the productions of each category in order.
Productions of different categories may change places without consequence, the listing apart.
-/

namespace Sygus

/-- The grammars start alike and have the same productions for each category, in the same order. -/
structure Grammar.SameChoices (g g' : Grammar) : Prop where
  start : g.start = g'.start
  productions : ∀ category, g.productions.filter (·.target = category)
    = g'.productions.filter (·.target = category)

namespace Grammar.SameChoices

variable {g g' : Grammar} {stop : Stop} {fuel : Nat} {j : Journal} {examples : List Example}

theorem productionsOf_eq (h : g.SameChoices g') (category : String) :
    g.productionsOf category = g'.productionsOf category := by
  rw [productionsOf, productionsOf, h.productions]

theorem startSymbol_eq (h : g.SameChoices g') : g.startSymbol = g'.startSymbol :=
  congrArg Symbol.nonTerminal h.start

/-- **A step has the same results.** -/
theorem expand_eq (h : g.SameChoices g') (t : Term) : t.expand g = t.expand g' := by
  rw [Term.expand_eq, Term.expand_eq]
  cases t.firstHole? with
  | none => rfl
  | some category =>
      dsimp only
      rw [h.productionsOf_eq]

/-! ## Enumerators -/

/-- **A call gives the same program**, and takes as long for it. -/
theorem next_eq (h : g.SameChoices g') (e : Enumerator) :
    e.next g stop fuel j = e.next g' stop fuel j := by
  induction fuel generalizing e j with
  | zero => rfl
  | succ fuel ih =>
      rw [Enumerator.next, Enumerator.next]
      simp only [h.expand_eq, ih]

theorem pull_eq (h : g.SameChoices g') (count : Nat) (e : Enumerator) :
    e.pull g stop fuel count = e.pull g' stop fuel count := by
  induction count generalizing e with
  | zero => rfl
  | succ count ih =>
      rw [Enumerator.pull, Enumerator.pull]
      simp only [h.next_eq, ih]

theorem step_eq (h : g.SameChoices g') (s : Enumerator.Session) (st : Enumerator.Session.Step) :
    s.step g fuel st = s.step g' fuel st := by
  cases st with
  | next number count =>
      rw [Enumerator.Session.step, Enumerator.Session.step]
      simp only [h.pull_eq]
  -- no other step looks at the grammar
  | _ => rfl

/-- **A session goes the same way.** -/
theorem play_eq (h : g.SameChoices g') (s : Enumerator.Session)
    (steps : List Enumerator.Session.Step) : s.play g fuel steps = s.play g' fuel steps := by
  induction steps generalizing s with
  | nil => rfl
  | cons st steps ih =>
      rw [Enumerator.Session.play, Enumerator.Session.play]
      simp only [h.step_eq, ih]

/-! ## Breadth-first search -/

theorem search_eq (h : g.SameChoices g') (m : Manner) (bound : Option Nat)
    (s : BreadthFirst.State) : BreadthFirst.search m ⟨g, examples⟩ bound stop fuel s
      = BreadthFirst.search m ⟨g', examples⟩ bound stop fuel s := by
  induction fuel generalizing s with
  | zero => rfl
  | succ fuel ih =>
      rw [BreadthFirst.search, BreadthFirst.search]
      simp only [h.expand_eq, ih]

theorem breadthFirst_eq (h : g.SameChoices g') (m : Manner) (bound : Option Nat) :
    BreadthFirst.run m ⟨g, examples⟩ bound stop fuel
      = BreadthFirst.run m ⟨g', examples⟩ bound stop fuel := by
  rw [BreadthFirst.run, BreadthFirst.run, BreadthFirst.State.initial, BreadthFirst.State.initial,
    h.startSymbol_eq]
  exact h.search_eq m bound _

/-! ## Divide and conquer -/

theorem grow_eq (h : g.SameChoices g') (p : Pool) :
    p.grow ⟨g, examples⟩ stop fuel j = p.grow ⟨g', examples⟩ stop fuel j := by
  induction fuel generalizing p j with
  | zero => rfl
  | succ fuel ih =>
      rw [Pool.grow, Pool.grow]
      simp only [h.next_eq, ih]

section DivideAndConquer

open DivideAndConquer

variable {recalls : Bool}

theorem growToCover_eq (h : g.SameChoices g') (p : Pool) :
    growToCover ⟨⟨g, examples⟩, recalls, stop⟩ fuel p j
      = growToCover ⟨⟨g', examples⟩, recalls, stop⟩ fuel p j := by
  rw [growToCover, growToCover]
  simp only [h.grow_eq]

theorem cover_eq (h : g.SameChoices g') (pools : Pools) :
    cover ⟨⟨g, examples⟩, recalls, stop⟩ fuel pools j
      = cover ⟨⟨g', examples⟩, recalls, stop⟩ fuel pools j := by
  induction fuel generalizing pools j with
  | zero => rfl
  | succ fuel ih =>
      rw [cover, cover]
      simp only [h.growToCover_eq, ih]

/-- An attempt looks at the pools and not at the grammar that they come from. -/
theorem attempt_eq (g g' : Grammar) (pools : Pools) :
    attempt ⟨⟨g, examples⟩, recalls, stop⟩ pools j
      = attempt ⟨⟨g', examples⟩, recalls, stop⟩ pools j := rfl

theorem conclude_eq (g g' : Grammar) (tree : Program) :
    conclude ⟨⟨g, examples⟩, recalls, stop⟩ tree j
      = conclude ⟨⟨g', examples⟩, recalls, stop⟩ tree j := rfl

theorem conquer_eq (h : g.SameChoices g') (pools : Pools) :
    conquer ⟨⟨g, examples⟩, recalls, stop⟩ fuel pools j
      = conquer ⟨⟨g', examples⟩, recalls, stop⟩ fuel pools j := by
  induction fuel generalizing pools j with
  | zero => rfl
  | succ fuel ih =>
      rw [conquer, conquer]
      simp only [h.grow_eq, ih, attempt_eq g g', conclude_eq g g']

theorem divideAndConquer_eq (h : g.SameChoices g') (bound : Option Nat) :
    DivideAndConquer.run ⟨g, examples⟩ recalls bound stop fuel
      = DivideAndConquer.run ⟨g', examples⟩ recalls bound stop fuel := by
  rw [DivideAndConquer.run, DivideAndConquer.run]
  simp only [firstExpression, h.next_eq, h.cover_eq, h.conquer_eq]

end DivideAndConquer

/-! ## Strategies -/

/-- **A run under any settings ends alike and leaves the same journal.** -/
theorem run_eq (h : g.SameChoices g') (settings : Settings) :
    settings.run ⟨g, examples⟩ stop fuel = settings.run ⟨g', examples⟩ stop fuel := by
  rw [Settings.run, Settings.run]
  cases settings.strategy with
  | topDown => exact h.breadthFirst_eq TopDown.manner settings.bound
  | divideAndConquer => exact h.divideAndConquer_eq settings.bound
  | constraintBased => exact h.breadthFirst_eq (ConstraintBased.manner examples) settings.bound

end Grammar.SameChoices

namespace Grammar

/--
**Only the order within a category matters.**

Take any list of productions. Its catalogue gives for each name the productions of the list that
return it, in their order, or the fault that there are none; and this is what searches go by. The
listing shows every production of the list once, those of a category together, the categories in the
order in which they first appear in the list.

Take another list that has the same productions for each name in the same order, whatever comes
between them. Then steps have the same results, enumerators give the same programs, alone and in
sessions, and every strategy ends alike and reports the same, for all examples, settings and
moments of cancellation, also if it does not end.
-/
theorem run_eq_of_same_productions (start : String) (ps : List Production) :
    (∀ category,
        (ps.filter (·.target = category) = [] ↔
          (Catalogue.ofList ps).productionsOf category = .error (.undefinedNonTerminal category))
        ∧ (ps.filter (·.target = category) ≠ [] →
          (Catalogue.ofList ps).productionsOf category = .ok (ps.filter (·.target = category)))
        ∧ (⟨start, ps⟩ : Grammar).productionsOf category
          = (Catalogue.ofList ps).productionsOf category)
      ∧ (∃ order : List String,
          (∀ category, category ∈ order ↔ ∃ p ∈ ps, p.target = category)
          ∧ (order.Pairwise fun c d =>
            (ps.map (·.target)).idxOf c < (ps.map (·.target)).idxOf d)
          ∧ (order.flatMap fun category => ps.filter (·.target = category)).Perm ps
          ∧ (⟨start, ps⟩ : Grammar).text = s!"Start symbol: {start}\nProductions:\n" ++
            String.join ((order.flatMap fun category => ps.filter (·.target = category)).map
              fun p => s!"  {p.text}\n"))
      ∧ ∀ qs : List Production,
          (∀ category, qs.filter (·.target = category) = ps.filter (·.target = category)) →
          (∀ t : Term, t.expand ⟨start, qs⟩ = t.expand ⟨start, ps⟩)
          ∧ (∀ (stop : Stop) (fuel : Nat) (e : Enumerator) (j : Journal),
            e.next ⟨start, qs⟩ stop fuel j = e.next ⟨start, ps⟩ stop fuel j)
          ∧ (∀ (fuel : Nat) (s : Enumerator.Session) (steps : List Enumerator.Session.Step),
            s.play ⟨start, qs⟩ fuel steps = s.play ⟨start, ps⟩ fuel steps)
          ∧ ∀ (settings : Settings) (examples : List Example) (stop : Stop) (fuel : Nat),
            settings.run ⟨⟨start, qs⟩, examples⟩ stop fuel
              = settings.run ⟨⟨start, ps⟩, examples⟩ stop fuel := by
  have hholds := Catalogue.holds_ofList ps
  refine ⟨fun category => ⟨?_, ?_, ?_⟩, ⟨(Catalogue.ofList ps).order, ?_, hholds.earlier, ?_, ?_⟩,
    fun qs hqs => ?_⟩
  · rw [hholds.productionsOf_eq]
    by_cases hnone : ps.filter (·.target = category) = []
    · simp [hnone]
    · simp [hnone]
  · intro hsome
    rw [hholds.productionsOf_eq, if_neg hsome]
  · exact (Catalogue.productionsOf_catalogue ⟨start, ps⟩ category).symm
  · intro category
    rw [hholds.mem_order_iff, Catalogue.mem_targets_iff]
  · rw [← hholds.listing_eq]
    exact hholds.listing_perm
  · rw [text_eq, catalogue, hholds.listing_eq]
  · have hsame : SameChoices ⟨start, qs⟩ ⟨start, ps⟩ := ⟨rfl, hqs⟩
    exact ⟨hsame.expand_eq, fun _ _ e _ => hsame.next_eq e, fun _ s steps => hsame.play_eq s steps,
      fun settings _ _ _ => hsame.run_eq settings⟩

/-- Conditional arithmetic, its predicates declared among its expressions. -/
def shuffled : List Production :=
  let e := Symbol.nonTerminal "E"
  let b := Symbol.nonTerminal "B"
  [⟨"B", "Lt", [e, e]⟩, ⟨"E", "Ite", [b, e, e]⟩, ⟨"B", "Eq", [e, e]⟩, ⟨"E", "Add", [e, e]⟩,
    ⟨"E", "Multiply", [e, e]⟩, .leaf "E" "x", ⟨"B", "And", [b, b]⟩, .leaf "E" "y", .leaf "E" "z",
    ⟨"B", "Or", [b, b]⟩, ⟨"B", "Not", [b]⟩, .leaf "E" "1", .leaf "E" "2", .leaf "E" "3"]

theorem filter_shuffled (category : String) : shuffled.filter (·.target = category)
    = arithmetic.productions.filter (·.target = category) := by
  by_cases hmem : category ∈ ["E", "B"]
  · revert category
    decide
  · have hnone : ∀ ps : List Production, (∀ p ∈ ps, p.target ∈ ["E", "B"]) →
        ps.filter (·.target = category) = [] := by
      intro ps hps
      rw [List.filter_eq_nil_iff]
      intro p hp htarget
      exact hmem (of_decide_eq_true htarget ▸ hps p hp)
    rw [hnone shuffled (by decide), hnone arithmetic.productions (by decide)]

/-- Every run on the shuffled grammar is a run on conditional arithmetic. -/
theorem run_eq_of_same_productions_shuffled :
    (∀ category, shuffled.filter (·.target = category)
        = arithmetic.productions.filter (·.target = category))
      ∧ shuffled ≠ arithmetic.productions
      ∧ shuffled.filter (·.target = "B") ≠ []
      ∧ (Catalogue.ofList shuffled).productionsOf "B"
        = .ok (shuffled.filter (·.target = "B"))
      ∧ (∀ t : Term, t.expand ⟨"E", shuffled⟩ = t.expand arithmetic)
      ∧ ∀ (settings : Settings) (examples : List Example) (stop : Stop) (fuel : Nat),
        settings.run ⟨⟨"E", shuffled⟩, examples⟩ stop fuel
          = settings.run ⟨arithmetic, examples⟩ stop fuel := by
  have hB : shuffled.filter (·.target = "B") ≠ [] := by decide
  obtain ⟨hexpand, _, _, hrun⟩ :=
    (run_eq_of_same_productions "E" arithmetic.productions).2.2 shuffled filter_shuffled
  exact ⟨filter_shuffled, by decide, hB, ((run_eq_of_same_productions "E" shuffled).1 "B").2.1 hB,
    hexpand, hrun⟩

end Grammar

end Sygus
