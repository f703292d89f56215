import Sygus.Proofs.DivideAndConquer.Branches
import Sygus.Proofs.Search.Turns
import Sygus.Strategy

/-!
# The language that a result belongs to

Breadth-first searches start from the start symbol of the grammar and use nothing but its
productions, so what they return derives from that symbol. Divide and conquer asks the grammar for
expressions and predicates, whatever its start symbol, and puts choices between expressions
together by itself. What it returns belongs to the language of expressions of the grammar **with
branching**, in which `E ::= Ite(B, E, E)` is a production. If that is a production anyway, and the
start symbol is that of expressions, nothing is gained by this; otherwise the result may be foreign
to the grammar (`exists_foreign_program`).
-/

namespace Sygus

open Term (Derives DerivesAll Completes CompletesAll)

/-- A choice between two expressions, by a predicate. -/
def Production.branching : Production :=
  ⟨"E", "Ite", [.nonTerminal "B", .nonTerminal "E", .nonTerminal "E"]⟩

/-- The grammar in which expressions may be such choices. -/
def Grammar.withBranching (g : Grammar) : Grammar where
  start := g.start
  productions := .branching :: g.productions

variable {g g' : Grammar} {t : Term}

namespace Term

mutual

/-- More productions complete more. -/
theorem Completes.mono (hg : g.productions ⊆ g'.productions) {n : Nat} {u t : Term}
    (h : Completes g n u t) : Completes g' n u t := by
  cases h with
  | hole hp htarget hname hall => exact .hole (hg hp) htarget hname (hall.mono hg)
  | node hall => exact .node (hall.mono hg)

theorem CompletesAll.mono (hg : g.productions ⊆ g'.productions) {n : Nat} {us ts : List Term}
    (h : CompletesAll g n us ts) : CompletesAll g' n us ts := by
  cases h with
  | nil => exact .nil
  | cons hhead htail => exact .cons (hhead.mono hg) (htail.mono hg)

end

theorem Derives.mono (hg : g.productions ⊆ g'.productions) {s : Symbol} (h : Derives g s t) :
    Derives g' s t := by
  obtain ⟨n, hn⟩ := h
  exact ⟨n, hn.mono hg⟩

/-- A term that derives from a category begins with the operator of a production. -/
theorem Derives.exists_production {category name : String} {ts : List Term}
    (h : Derives g (.nonTerminal category) (.op name ts)) :
    ∃ p ∈ g.productions, p.target = category ∧ p.operator = name := by
  obtain ⟨n, hn⟩ := h
  obtain ⟨_, _, p, hp, htarget, _, heq, _⟩ := completes_hole_inv hn
  cases heq
  exact ⟨p, hp, htarget, rfl⟩

end Term

/-- A choice between expressions is an expression, with branching. -/
theorem derives_ite (hg : .branching ∈ g.productions) {guard this other : Program}
    (hguard : Derives g Role.predicate.symbol guard.root)
    (hthis : Derives g Role.expression.symbol this.root)
    (hother : Derives g Role.expression.symbol other.root) :
    Derives g Role.expression.symbol (Program.ite guard this other).root :=
  Term.derives_op (.cons hguard (.cons hthis (.cons hother .nil))) hg

/-- So is a chain of expressions. -/
theorem derives_chain (hg : .branching ∈ g.productions) {branches : List Branch} {last : Program}
    (hthis : ∀ p ∈ chained branches last, Derives g Role.expression.symbol p.root)
    (hguards : ∀ b ∈ branches, Derives g Role.predicate.symbol b.guard.root) :
    Derives g Role.expression.symbol (last.chain branches).root := by
  induction branches with
  | nil => exact hthis last (by simp [chained])
  | cons b branches ih =>
      rw [chained_cons, List.forall_mem_cons] at hthis
      rw [List.forall_mem_cons] at hguards
      exact derives_ite hg hguards.1 hthis.1 (ih hthis.2 hguards.2)

theorem subset_withBranching (g : Grammar) : g.productions ⊆ g.withBranching.productions :=
  List.subset_cons_self _ _

/-- With branching among its productions, a grammar has all of those with branching. -/
theorem withBranching_subset (hg : .branching ∈ g.productions) :
    g.withBranching.productions ⊆ g.productions :=
  List.cons_subset.mpr ⟨hg, fun _ hp => hp⟩

variable {problem : Problem} {bound : Option Nat} {stop : Stop} {fuel : Nat} {r : Run} {p : Program}

/-- What a breadth-first search returns derives from the start symbol. -/
theorem BreadthFirst.derives_of_run {m : Manner} (h : run m problem bound stop fuel = some r)
    (hp : r.result = .ok (some p)) :
    Derives problem.grammar problem.grammar.startSymbol p.root :=
  (met_and_isValid_of_search h (met_initial problem bound) hp).1.derives_of_isComplete p.complete

namespace DivideAndConquer

variable {recalls : Bool}

/-- **What divide and conquer returns is an expression, with branching.** -/
theorem derives_withBranching_of_run (h : run problem recalls bound stop fuel = some r)
    (hp : r.result = .ok (some p)) :
    Derives problem.grammar.withBranching Role.expression.symbol p.root := by
  have hmono : ∀ {s t}, Derives problem.grammar s t → Derives problem.grammar.withBranching s t :=
    fun hd => hd.mono (subset_withBranching _)
  rcases origin_of_run h hp with ⟨_, hdraws⟩ | ⟨pools, branches, last, hpools, rfl, hchain⟩
  · exact hmono hdraws.1
  · exact derives_chain List.mem_cons_self
      (fun p hp => hmono (hpools.draws_expression hchain p hp).1)
      (fun b hb => hmono (hpools.draws_guard hchain b hb).1)

/-- For one example, or none, nothing has to be put together. -/
theorem derives_of_run_of_length_le_one (hone : problem.examples.eraseDups.length ≤ 1)
    (h : run problem recalls bound stop fuel = some r) (hp : r.result = .ok (some p)) :
    Derives problem.grammar Role.expression.symbol p.root := by
  rcases origin_of_run h hp with ⟨_, hdraws⟩ | ⟨pools, branches, last, hpools, rfl, hchain⟩
  · exact hdraws.1
  · by_cases hne : problem.examples = []
    · -- without examples, an expression alone satisfies all that is needed
      have hempty : List.range problem.examples.eraseDups.length = [] := by simp [hne]
      rw [hempty] at hchain
      cases hchain with
      | last he _ => exact ((hpools .expression).entries _ he).1.1
      | branch _ _ _ hpart _ _ => exact absurd (List.nil_subset _) hpart
    · have hlength := length_lt_of_stitched hne hchain
      obtain rfl : branches = [] := List.eq_nil_of_length_eq_zero (by omega)
      exact (hpools.draws_expression hchain last (by simp [chained])).1

end DivideAndConquer

/--
**Results belong to the grammar, with branching where divide and conquer is at work.**

Take any run of any strategy. A program that top-down or constraint-based search returns derives
from the start symbol. One that divide and conquer returns derives from the category of
expressions in the grammar with branching. If the start symbol is that of expressions, then it
derives from the start symbol by the grammar's own productions in two cases: if choices between
expressions are among them, and if there is no more than one distinct example.
-/
theorem result_derives (settings : Settings) (problem : Problem) (stop : Stop) (fuel : Nat)
    (r : Run) (h : settings.run problem stop fuel = some r) (p : Program)
    (hp : r.result = .ok (some p)) :
    (settings.strategy ≠ .divideAndConquer →
        Derives problem.grammar problem.grammar.startSymbol p.root)
      ∧ (settings.strategy = .divideAndConquer →
        Derives problem.grammar.withBranching Role.expression.symbol p.root
          ∧ (problem.grammar.startSymbol = Role.expression.symbol →
            (.branching ∈ problem.grammar.productions
              ∨ problem.examples.eraseDups.length ≤ 1) →
            Derives problem.grammar problem.grammar.startSymbol p.root)) := by
  obtain ⟨strategy, recalls, bound⟩ := settings
  cases strategy with
  | topDown => exact ⟨fun _ => BreadthFirst.derives_of_run h hp, by simp⟩
  | constraintBased => exact ⟨fun _ => BreadthFirst.derives_of_run h hp, by simp⟩
  | divideAndConquer =>
      refine ⟨by simp, fun _ => ?_⟩
      have hbranching := DivideAndConquer.derives_withBranching_of_run h hp
      refine ⟨hbranching, fun hstart hcases => ?_⟩
      rw [hstart]
      rcases hcases with hown | hone
      · exact hbranching.mono (withBranching_subset hown)
      · exact DivideAndConquer.derives_of_run_of_length_le_one hone h hp

/-- Conditional arithmetic can choose between expressions, so the tree for the greater of two
numbers is one of its programs. -/
theorem result_derives_branching :
    ∃ r p, (⟨.divideAndConquer, true, none⟩ : Settings).run .branching .never 100 = some r
      ∧ r.result = .ok (some p) ∧ Derives .arithmetic Grammar.arithmetic.startSymbol p.root :=
  ⟨_, _, rfl, rfl,
    ((result_derives ⟨.divideAndConquer, true, none⟩ .branching .never 100 _ rfl _ rfl).2 rfl).2 rfl
      (Or.inl (by decide))⟩

/-- Two variables can be compared, but there is no way to choose between them. -/
def Grammar.comparing : Grammar where
  start := "E"
  productions := [.leaf "E" "x", .leaf "E" "y",
    ⟨"B", "Lt", [.nonTerminal "E", .nonTerminal "E"]⟩]

/-- There are choices between expressions, but the start symbol does not lead to expressions. -/
def Grammar.aside : Grammar where
  start := "S"
  productions := .leaf "S" "1" :: Grammar.comparing.withBranching.productions

/-- **A result may be foreign to the grammar.** For the greater of two numbers, divide and conquer
returns a choice between the variables, be it that the grammar has no choices or that its start
symbol does not lead to them. -/
theorem exists_foreign_program :
    (∃ r p, DivideAndConquer.run ⟨.comparing, Problem.branching.examples⟩ false (some 2) .never 100
          = some r ∧ r.result = .ok (some p)
        ∧ ¬ Derives .comparing Grammar.comparing.startSymbol p.root)
      ∧ ∃ r p, DivideAndConquer.run ⟨.aside, Problem.branching.examples⟩ false (some 2) .never 100
          = some r ∧ r.result = .ok (some p)
        ∧ ¬ Derives .aside Grammar.aside.startSymbol p.root := by
  refine ⟨⟨_, _, rfl, rfl, ?_⟩, _, _, rfl, rfl, ?_⟩
  · intro h
    obtain ⟨q, hq, _, hname⟩ := Term.Derives.exists_production h
    revert q
    decide
  · intro h
    obtain ⟨q, hq, htarget, hname⟩ := Term.Derives.exists_production h
    revert q
    decide

end Sygus
