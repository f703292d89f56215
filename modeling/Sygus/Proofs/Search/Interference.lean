import Sygus.Proofs.Feasibility.Exactness
import Sygus.Proofs.Readings
import Sygus.Proofs.Search.Turns
import Sygus.Search.ConstraintBased

/-!
# What steers constraint-based search

A program sees of an input the values of the variables. Constraint-based search sees more: the
unknown integers that stand for the holes of a term have the names `E0`, `E1` and so on, and an
input that binds such a name fixes the unknown. Nothing else in an input is looked at, if it binds
the variables. So examples are **indistinct** to the search if they have the same reading and their
inputs say the same about these names, and on indistinct examples it makes the same turns.

The names of the unknowns do steer it. The start symbol is nothing but a hole, `E0`, and if an
input gives this name another value than the output, the start symbol is infeasible, and the
search is over before it has tested a program.
-/

namespace Sygus

open Arithmetic (Binds Expr)

variable {e e' : Example} {examples examples' : List Example}

/-! ## Examples that cannot be told apart -/

/-- The examples have the same reading, and their inputs say the same about unknown integers. -/
structure Example.Indistinct (e e' : Example) : Prop where
  reading : e.reading = e'.reading
  unknown (i : Nat) : e.input.get? s!"E{i}" = e'.input.get? s!"E{i}"

/-- The example with one more binding in its input, or with another value for a name. -/
def Example.withBinding (e : Example) (name : String) (value : Int64) : Example :=
  { e with input := e.input.insert name value }

section Bindings

variable {name : String}

/-- Programs do not see a name that is none of the variables. -/
theorem Example.reading_withBinding (hvar : ∀ v : Variable, v.name ≠ name) (value : Int64) :
    (e.withBinding name value).reading = e.reading := by
  have hvalues : (e.input.insert name value).values = e.input.values := by
    funext v
    unfold Assignment.values
    rw [Assignment.get?_insert, if_neg (hvar v)]
  show Reading.mk (e.input.insert name value).values e.output = _
  rw [hvalues]
  rfl

/-- **A name that stands for nothing in a term may have any value or none.** -/
theorem Example.indistinct_withBinding (hvar : ∀ v : Variable, v.name ≠ name)
    (hunknown : ∀ i : Nat, name ≠ s!"E{i}") (value : Int64) :
    e.Indistinct (e.withBinding name value) where
  reading := (reading_withBinding hvar value).symm
  unknown i := by
    show _ = (e.input.insert name value).get? _
    rw [Assignment.get?_insert, if_neg (hunknown i).symm]

end Bindings

namespace Example.Indistinct

/-- All that an input says about a sketch are values of variables and of unknown integers. -/
theorem known_eq (h : e.Indistinct e') : Known.ofInput e.input = Known.ofInput e'.input := by
  have hvar : ∀ v : Variable, e.input.get? v.name = e'.input.get? v.name :=
    congrFun (congrArg Reading.values h.reading)
  unfold Known.ofInput
  simp only [h.unknown, hvar]

/-- The built-in solver says the same about both. -/
theorem builtIn_eq (h : e.Indistinct e') (hk : (Known.ofInput e.input).Complete)
    (s : IntSketch) : Solver.builtIn s e = Solver.builtIn s e' := by
  have houtput : e.output = e'.output := congrArg Reading.output h.reading
  have hshared := Solver.shared_eq_nil hk s
  have hshared' : s.shared (.ofInput e'.input) = [] := h.known_eq ▸ hshared
  rw [Solver.builtIn_of_shared hshared, Solver.builtIn_of_shared hshared', h.known_eq, houtput]

end Example.Indistinct

/-- Inputs that bind the variables leave none of them open. -/
theorem Known.complete_ofInput (hbinds : Binds examples) (he : e ∈ examples) :
    (Known.ofInput e.input).Complete := by
  intro v
  show ((e.input.get? v.name).map Int64.toInt).isSome = true
  rw [Option.isSome_map]
  exact hbinds e he v

/-- **Indistinct examples make the same terms feasible.** -/
theorem Term.isFeasible_congr (hbinds : Binds examples)
    (h : List.Forall₂ Example.Indistinct examples examples') (t : Term) :
    t.isFeasible examples = t.isFeasible examples' := by
  -- the sketch is made without a look at the examples, and then each of them has its own verdict
  have hall : ∀ s : IntSketch, (examples.all fun e => Solver.builtIn s e ≠ .unsat)
      = examples'.all fun e => Solver.builtIn s e ≠ .unsat := by
    intro s
    induction h with
    | nil => rfl
    | cons he _ ih =>
        have hk := Known.complete_ofInput hbinds List.mem_cons_self
        have hrest := ih fun e he => hbinds e (List.mem_cons_of_mem _ he)
        rw [List.all_cons, List.all_cons, he.builtIn_eq hk, hrest]
  unfold isFeasible isFeasibleBy
  simp only [hall]

/-- If the inputs bind the variables, nothing is undecided about a leftmost term. -/
theorem Term.undecidedBy_builtIn (hbinds : Binds examples) {t : Term}
    (ht : t.isLeftmost = true) : t.undecidedBy .builtIn examples = [] := by
  refine Term.undecidedBy_eq_nil ?_
  intro s hs e he
  obtain ⟨n, hsketched⟩ := exists_sketched hs
  exact Solver.builtIn_ne_unknown (Known.complete_ofInput hbinds he) (hsketched.isThin ht)

/-- Indistinct inputs bind the same variables. -/
theorem Arithmetic.Binds.of_indistinct (hbinds : Binds examples)
    (h : List.Forall₂ Example.Indistinct examples examples') : Binds examples' := by
  induction h with
  | nil => exact fun e he => absurd he List.not_mem_nil
  | @cons e e' _ _ hfirst _ ih =>
      rw [Binds, List.forall_mem_cons] at hbinds ⊢
      refine ⟨?_, ih hbinds.2⟩
      intro v
      have hvalue : e.input.get? v.name = e'.input.get? v.name :=
        congrFun (congrArg Reading.values hfirst.reading) v
      rw [← hvalue]
      exact hbinds.1 v

/-- **Examples with the same readings make the same programs valid,** and fail the others in the
same way. -/
theorem Program.isValid_congr
    (h : List.Forall₂ (fun e e' => e.reading = e'.reading) examples examples') (p : Program) :
    p.isValid examples = p.isValid examples' := by
  induction h with
  | nil => rfl
  | @cons e e' _ _ he _ ih =>
      have hproduces : p.root.produces e = p.root.produces e' :=
        Role.expression.satisfies_congr p he
      rw [isValid, isValid, hproduces, ih]

/-! ## Searches on them -/

/-- Two manners do the same on the terms with a property, and report alike how a run ends. -/
structure Manner.AgreeOn (P : Term → Prop) (m m' : Manner) : Prop where
  worthwhile : ∀ t, P t → m.worthwhile t = m'.worthwhile t
  remarks : ∀ t, P t → m.remarks t = m'.remarks t
  accepted : m.accepted = m'.accepted
  exhausted : m.exhausted = m'.exhausted
  cancelled : m.cancelled = m'.cancelled

namespace BreadthFirst

variable {m m' : Manner} {g : Grammar} {bound : Option Nat} {stop : Stop} {s s' : State} {run : Run}

section Congruence

variable (hm : m.AgreeOn (fun t => t.Met g bound g.startSymbol) m')
  (hvalid : ∀ p : Program, p.isValid examples = p.isValid examples')
include hm hvalid

/-- A search makes the same turns in both manners, on all examples that make the same programs
valid. -/
theorem Turn.congr (hs : s.Met ⟨g, examples⟩ bound) (h : Turn m ⟨g, examples⟩ bound stop s s') :
    Turn m' ⟨g, examples'⟩ bound stop s s' := by
  cases h with
  | refuted hp hraised hrefuted => exact .refuted hp hraised ((hvalid _).symm.trans hrefuted)
  | pruned hp hraised hpartial hworth =>
      have hmet := hs _ (Frontier.mem_of_pop? hp)
      rw [hm.remarks _ hmet]
      exact .pruned hp hraised hpartial ((hm.worthwhile _ hmet).symm.trans hworth)
  | expanded hp hraised hpartial hworth hexp =>
      have hmet := hs _ (Frontier.mem_of_pop? hp)
      rw [hm.remarks _ hmet]
      exact .expanded hp hraised hpartial ((hm.worthwhile _ hmet).symm.trans hworth) hexp

/-- It comes to the same endings. -/
theorem Ending.congr (hs : s.Met ⟨g, examples⟩ bound) (h : Ending m ⟨g, examples⟩ stop s run) :
    Ending m' ⟨g, examples'⟩ stop s run := by
  cases h with
  | exhausted hempty =>
      rw [hm.exhausted]
      exact .exhausted hempty
  | stopped hp hraised =>
      rw [hm.cancelled]
      exact .stopped hp hraised
  | accepted hp hraised haccepted =>
      rw [hm.accepted]
      exact .accepted hp hraised ((hvalid _).symm.trans haccepted)
  | faultyCandidate hp hraised hfault =>
      exact .faultyCandidate hp hraised ((hvalid _).symm.trans hfault)
  | faultyVerdict hp hraised hpartial hworth =>
      have hmet := hs _ (Frontier.mem_of_pop? hp)
      exact .faultyVerdict hp hraised hpartial ((hm.worthwhile _ hmet).symm.trans hworth)
  | faultyExpansion hp hraised hpartial hworth hexp =>
      have hmet := hs _ (Frontier.mem_of_pop? hp)
      rw [hm.remarks _ hmet]
      exact .faultyExpansion hp hraised hpartial ((hm.worthwhile _ hmet).symm.trans hworth) hexp

/-- **Of the examples a search sees no more than its manner does and which programs are valid.** -/
theorem search_congr (fuel : Nat) (hs : s.Met ⟨g, examples⟩ bound) :
    search m ⟨g, examples⟩ bound stop fuel s = search m' ⟨g, examples'⟩ bound stop fuel s := by
  induction fuel generalizing s with
  | zero => rfl
  | succ fuel ih =>
      rcases turn_or_ending m ⟨g, examples⟩ bound stop s with ⟨s', hturn⟩ | ⟨run, hend⟩
      · rw [hturn.search_eq, (hturn.congr hm hvalid hs).search_eq, ih (hturn.met hs)]
      · rw [hend.search_eq, (hend.congr hm hvalid hs).search_eq]

end Congruence

end BreadthFirst

namespace ConstraintBased

open BreadthFirst (State Turn Ending search_congr met_initial)

variable {g : Grammar} {bound : Option Nat} {stop : Stop}

/-- On indistinct examples the same terms are pruned, and nothing is remarked. -/
theorem manner_agree (hbinds : Binds examples)
    (h : List.Forall₂ Example.Indistinct examples examples') :
    (manner examples).AgreeOn (fun t => t.Met g bound g.startSymbol) (manner examples') where
  worthwhile t _ := Term.isFeasible_congr hbinds h t
  remarks t ht := by
    have hleftmost := Term.isLeftmost_of_reachable ht.steps
    have hquiet := Term.undecidedBy_builtIn hbinds hleftmost
    have hquiet' := Term.undecidedBy_builtIn (hbinds.of_indistinct h) hleftmost
    show List.map _ _ = List.map _ _
    rw [hquiet, hquiet']
  accepted := rfl
  exhausted := rfl
  cancelled := rfl

/-- The built-in solver always has an answer about a hole by itself. -/
theorem builtIn_hole (i : Nat) (e : Example) :
    Solver.builtIn (.unknown i) e ≠ .unknown
      ∧ (Solver.builtIn (.unknown i) e ≠ .unsat
        ↔ (Values.ofKnown ((Known.ofInput e.input).int i)).Mem e.output.toInt) := by
  have hshared : (IntSketch.unknown i).shared (.ofInput e.input) = [] := by
    simp [IntSketch.shared, IntSketch.occurrences]
  exact Solver.builtIn_of_tidy hshared (Values.tidy_ofKnown _)

/-- The start symbol can be nothing but what an input says that it is, and nothing is remarked. -/
theorem worthwhile_start (g : Grammar) (he : e ∈ examples) {n : Int64}
    (hn : e.input.get? "E0" = some n) (hne : n ≠ e.output) :
    (manner examples).worthwhile (.leaf g.startSymbol) = .ok false
      ∧ (manner examples).remarks (.leaf g.startSymbol) = [] := by
  -- the sketch is the first unknown integer, and it has the one value that the input gives to it
  have hs : IntSketched {} (.leaf g.startSymbol) (.unknown 0) { ints := 1 } := .hole
  have hknown : (Known.ofInput e.input).int 0 = some n.toInt := by
    show (e.input.get? "E0").map Int64.toInt = _
    rw [hn]
    rfl
  have hruled : ¬ Solver.builtIn (.unknown 0) e ≠ .unsat := by
    rw [(builtIn_hole 0 e).2, hknown]
    intro hmem
    exact hne (Int64.toInt_inj.mp (Values.mem_single_iff.mp hmem)).symm
  refine ⟨?_, ?_⟩
  · show Term.isFeasibleBy .builtIn examples _ = _
    rw [hs.isFeasibleBy_eq, List.all_eq_false.mpr ⟨e, he, by rwa [decide_eq_true_eq]⟩]
  · have hquiet : Term.undecidedBy .builtIn examples (.leaf g.startSymbol) = [] := by
      refine Term.undecidedBy_eq_nil ?_
      intro s hsketch e' _
      cases hs.sketch_eq.symm.trans hsketch
      exact (builtIn_hole 0 e').1
    show List.map _ _ = _
    rw [hquiet]
    rfl

/-- **An input that contradicts the output by its value for `E0` ends the search at once.** The
start symbol is pruned, and nothing is left. -/
theorem run_of_contradiction (he : e ∈ examples) {n : Int64} (hn : e.input.get? "E0" = some n)
    (hne : n ≠ e.output) (g : Grammar) (bound : Option Nat) (fuel : Nat) :
    run ⟨g, examples⟩ bound .never (fuel + 2)
      = some ⟨.ok none, Journal.empty.polled.report (.prunedExhausted 1)⟩ := by
  obtain ⟨hworth, hquiet⟩ := worthwhile_start g he hn hne
  have hturn : Turn (manner examples) ⟨g, examples⟩ bound .never (.initial g)
      ⟨⟨[], []⟩, { pruned := 1 }, Journal.empty.polled.reportAll []⟩ := by
    rw [← hquiet]
    exact .pruned rfl rfl rfl hworth
  rw [Journal.reportAll_nil] at hturn
  have hend : Ending (manner examples) ⟨g, examples⟩ .never
      ⟨⟨[], []⟩, { pruned := 1 }, Journal.empty.polled⟩
      ⟨.ok none, Journal.empty.polled.report (.prunedExhausted 1)⟩ := .exhausted rfl
  show BreadthFirst.search (manner examples) ⟨g, examples⟩ bound .never (fuel + 2) (.initial g) = _
  rw [hturn.search_eq, hend.search_eq]

/--
**Of what programs cannot see, only the names of unknowns steer constraint-based search.**

The inputs bind the variables. On examples that are indistinct from these the search makes the
same run, whatever else their inputs bind. But unless there are no examples, there are some with
the same readings on which it finds nothing: the first input gives a value to `E0` as well.
-/
theorem steered_by_unknowns (hbinds : Binds examples) (g : Grammar) (bound : Option Nat) :
    (∀ examples', List.Forall₂ Example.Indistinct examples examples' → ∀ stop fuel,
        run ⟨g, examples⟩ bound stop fuel = run ⟨g, examples'⟩ bound stop fuel)
      ∧ (examples ≠ [] → ∃ examples',
          List.Forall₂ (fun e e' => e.reading = e'.reading) examples examples'
            ∧ ∀ fuel, run ⟨g, examples'⟩ bound .never (fuel + 2)
                = some ⟨.ok none, Journal.empty.polled.report (.prunedExhausted 1)⟩) := by
  refine ⟨?_, ?_⟩
  · intro examples' h stop fuel
    have hreadings := h.imp fun _ _ he => he.reading
    exact search_congr (manner_agree hbinds h) (Program.isValid_congr hreadings) fuel
      (met_initial ⟨g, examples⟩ bound)
  · intro hne
    obtain ⟨e, rest, rfl⟩ := List.exists_cons_of_ne_nil hne
    -- every value but one is a contradiction
    obtain ⟨n, hn⟩ : ∃ n : Int64, n ≠ e.output := by
      by_cases h : e.output = 0
      · exact ⟨1, h ▸ by decide⟩
      · exact ⟨0, fun heq => h heq.symm⟩
    have hvar : ∀ v : Variable, v.name ≠ "E0" := fun v => Arithmetic.name_ne_unknown v 0
    refine ⟨e.withBinding "E0" n :: rest, ?_, ?_⟩
    · refine .cons (Example.reading_withBinding hvar n).symm ?_
      exact List.forall₂_same.mpr fun _ _ => rfl
    · have hbound : (e.withBinding "E0" n).input.get? "E0" = some n := by
        show (e.input.insert "E0" n).get? "E0" = _
        rw [Assignment.get?_insert, if_pos rfl]
      exact run_of_contradiction List.mem_cons_self hbound hn g bound

/-- The value of `x` is asked for. -/
def copyX : Example := ⟨.ofList [("x", 1), ("y", 2), ("z", 3)], 1⟩

theorem binds_copyX : Binds [copyX] := Arithmetic.binds_of_all (by decide)

/-- A value for `B0`, the name of an unknown truth value, is never looked at. -/
theorem steered_by_unknowns_copyX :
    (∀ stop fuel, run ⟨.arithmetic, [copyX]⟩ none stop fuel
        = run ⟨.arithmetic, [copyX.withBinding "B0" 5]⟩ none stop fuel)
      ∧ ∃ examples', List.Forall₂ (fun e e' => e.reading = e'.reading) [copyX] examples'
          ∧ ∀ fuel, run ⟨.arithmetic, examples'⟩ none .never (fuel + 2)
              = some ⟨.ok none, Journal.empty.polled.report (.prunedExhausted 1)⟩ := by
  have hvar : ∀ v : Variable, v.name ≠ "B0" := by
    intro v
    cases v <;> decide
  have hunknown : ∀ i : Nat, "B0" ≠ s!"E{i}" := Arithmetic.ne_unknown_of_head (by decide)
  have hindistinct : copyX.Indistinct (copyX.withBinding "B0" 5) :=
    Example.indistinct_withBinding hvar hunknown 5
  obtain ⟨hsame, hother⟩ := steered_by_unknowns binds_copyX .arithmetic none
  exact ⟨hsame _ (.cons hindistinct .nil), hother (List.cons_ne_nil _ _)⟩

/-- Nothing but the value of `E0` is different, and instead of `x` nothing is found. -/
theorem steered_by_unread_name :
    Binds [copyX]
      ∧ List.Forall₂ (fun e e' => e.reading = e'.reading) [copyX] [copyX.withBinding "E0" 5]
      ∧ (run ⟨.arithmetic, [copyX]⟩ none .never 20).map (·.result)
          = some (.ok (some (Expr.var .x).program))
      ∧ (run ⟨.arithmetic, [copyX.withBinding "E0" 5]⟩ none .never 20).map (·.result)
          = some (.ok none) := by
  have hvar : ∀ v : Variable, v.name ≠ "E0" := fun v => Arithmetic.name_ne_unknown v 0
  have hreading := (Example.reading_withBinding (e := copyX) hvar 5).symm
  exact ⟨binds_copyX, .cons hreading .nil, by decide +kernel, by decide +kernel⟩

end ConstraintBased

end Sygus
