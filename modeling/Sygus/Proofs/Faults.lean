import Sygus.Proofs.DivideAndConquer.Branches
import Sygus.Proofs.Search.Turns

/-!
# Where the fault of a run comes from

A search has no faults of its own. If a run ends with one, then it has met a term that cannot be
expanded or, under constraints, has no verdict, or it has drawn a program that cannot be evaluated
on one of the examples. What can go wrong in this way is a **hazard** of the search. The tree that
divide and conquer stitches is none: it is known to be right before it is tested.
-/

namespace Sygus

open Term (Met)

variable {problem : Problem} {bound : Option Nat} {stop : Stop} {fault : Fault} {p : Program}
  {examples : List Example}

/-- A sequence fails in its first part or in its second one. -/
theorem bind_eq_error {α β : Type} {x : Except Fault α} {f : α → Except Fault β} :
    (x >>= f) = .error fault ↔ x = .error fault ∨ ∃ a, x = .ok a ∧ f a = .error fault := by
  cases x with
  | error fault' => simp [bind, Except.bind]
  | ok a => simp [bind, Except.bind]

/-- A program has no label if it cannot be evaluated on one of the examples. -/
theorem Role.exists_fault_of_labelFrom {role : Role} {first : Nat}
    (h : role.labelFrom p first examples = .error fault) :
    ∃ e ∈ examples, role.satisfies p e = .error fault := by
  induction examples generalizing first with
  | nil => cases h
  | cons e rest ih =>
      rw [labelFrom, bind_eq_error] at h
      rcases h with hfault | ⟨b, _, hrest⟩
      · exact ⟨e, List.mem_cons_self, hfault⟩
      · have hlabel : role.labelFrom p (first + 1) rest = .error fault := by
          cases b with
          | false => exact hrest
          | true =>
              rcases bind_eq_error.mp hrest with hlabel | ⟨_, _, hok⟩
              · exact hlabel
              · cases hok
        obtain ⟨e', he', hfault⟩ := ih hlabel
        exact ⟨e', List.mem_cons_of_mem _ he', hfault⟩

/-- A test of a program fails if the program cannot be evaluated on one of the examples. -/
theorem Program.exists_fault_of_isValid (h : p.isValid examples = .error fault) :
    ∃ e ∈ examples, Role.expression.satisfies p e = .error fault := by
  induction examples with
  | nil => cases h
  | cons e rest ih =>
      rw [isValid, bind_eq_error] at h
      rcases h with hfault | ⟨b, _, hrest⟩
      · exact ⟨e, List.mem_cons_self, hfault⟩
      · cases b with
        | false => cases hrest
        | true =>
            obtain ⟨e', he', hfault⟩ := ih hrest
            exact ⟨e', List.mem_cons_of_mem _ he', hfault⟩

/-- What can go wrong when programs of a role are drawn and evaluated. -/
inductive Role.Hazard (problem : Problem) (bound : Option Nat) (role : Role) (fault : Fault) :
    Prop where
  /-- A partial term cannot be expanded. -/
  | expansion {t : Term} :
      Met problem.grammar bound role.symbol t → t.expand problem.grammar = .error fault →
      Hazard problem bound role fault
  /-- A program cannot be evaluated. -/
  | evaluation {p : Program} {e : Example} :
      role.Draws problem.grammar bound p → e ∈ problem.examples →
      role.satisfies p e = .error fault → Hazard problem bound role fault

/-! ## Breadth-first searches -/

namespace BreadthFirst

variable {m : Manner}

/-- What can go wrong in a breadth-first search. -/
inductive Hazard (m : Manner) (problem : Problem) (bound : Option Nat) (fault : Fault) : Prop where
  | expansion {t : Term} :
      Met problem.grammar bound problem.grammar.startSymbol t →
      t.expand problem.grammar = .error fault → Hazard m problem bound fault
  /-- It cannot be told whether a partial term is worth expanding. -/
  | verdict {t : Term} :
      Met problem.grammar bound problem.grammar.startSymbol t → m.worthwhile t = .error fault →
      Hazard m problem bound fault
  | evaluation {p : Program} {e : Example} :
      Met problem.grammar bound problem.grammar.startSymbol p.root → e ∈ problem.examples →
      Role.expression.satisfies p e = .error fault → Hazard m problem bound fault

/-- **The fault of a search is one of its hazards.** -/
theorem hazard_of_run {fuel : Nat} {r : Run} (h : run m problem bound stop fuel = some r)
    (hfault : r.result = .error fault) : Hazard m problem bound fault := by
  obtain ⟨s, hmet, hend⟩ :=
    exists_ending_of_search (fun hs hturn => hturn.met hs) h (met_initial problem bound)
  have htaken : ∀ {t : Term} {rest : Frontier}, s.frontier.pop? = some (t, rest) →
      Met problem.grammar bound problem.grammar.startSymbol t :=
    fun hp => hmet _ (Frontier.mem_of_pop? hp)
  cases hend with
  | exhausted _ => cases hfault
  | stopped _ _ => cases hfault
  | accepted _ _ _ => cases hfault
  | faultyCandidate hp _ hvalid =>
      cases hfault
      obtain ⟨e, he, hsat⟩ := Program.exists_fault_of_isValid hvalid
      exact .evaluation (htaken hp) he hsat
  | faultyVerdict hp _ _ hworth =>
      cases hfault
      exact .verdict (htaken hp) hworth
  | faultyExpansion hp _ _ _ hexp =>
      cases hfault
      exact .expansion (htaken hp) hexp

end BreadthFirst

/-! ## Divide and conquer -/

/-- A call fails on a term that cannot be expanded. -/
theorem Enumerator.Walks.exists_met_of_fault {g : Grammar} {s : Symbol} {e : Enumerator}
    (h : e.Walks g bound s) {fuel : Nat} {j : Journal} {pull : Pull}
    (hpull : Enumerator.next g stop fuel e j = some pull) (hfault : pull.result = .error fault) :
    ∃ t, Met g bound s t ∧ t.expand g = .error fault := by
  obtain ⟨e', hturns, hend⟩ := next_cases hpull
  have hwalks : e'.Walks g bound s := by
    clear hend
    induction hturns with
    | refl => exact h
    | tail _ hturn ih => exact ih.turn hturn
  rw [hfault] at hend
  generalize pull.rest = rest at hend
  cases hend with
  | failed hp _ hexp => exact ⟨_, (hwalks.pop hp).1, hexp⟩

namespace Pool

variable {role : Role} {pool pool' : Pool}

theorem Sourced.stir (h : pool.Sourced problem bound role) (hstir : Stir problem pool pool') :
    pool'.Sourced problem bound role := by
  cases hstir with
  | turn hturn => exact h.withSource (h.walks.turn hturn)
  | spurn hp _ _ => exact h.withSource (h.walks.pop hp).2

/-- **A pool that cannot grow for a fault has met a hazard of its role.** -/
theorem Sourced.hazard_of_grow (h : pool.Sourced problem bound role) {fuel : Nat} {j : Journal}
    {g : Growth} (hgrow : pool.grow problem stop fuel j = some g)
    (hfault : g.grew = .error fault) : role.Hazard problem bound fault := by
  obtain ⟨pool', hstirs, hend⟩ := grow_cases hgrow
  have hsourced : pool'.Sourced problem bound role := by
    clear hend
    induction hstirs with
    | refl => exact h
    | tail _ hstir ih => exact ih.stir hstir
  rw [hfault] at hend
  generalize g.pool = after at hend
  cases hend with
  | unexpandable hp _ hexp => exact .expansion (hsourced.walks.pop hp).1 hexp
  | unlabelled hp hlabel =>
      rw [hsourced.role_eq] at hlabel
      obtain ⟨e, he, hsat⟩ := Role.exists_fault_of_labelFrom hlabel
      exact .evaluation (Role.draws_of_met (hsourced.walks.pop hp).1) he hsat

end Pool

namespace DivideAndConquer

variable {recalls : Bool}

/-- **The fault of a run is a hazard of one of the roles.** -/
theorem hazard_of_run {fuel : Nat} {r : Run} (h : run problem recalls bound stop fuel = some r)
    (hfault : r.result = .error fault) :
    ∃ role : Role, role.Hazard (Setting.of problem recalls stop).problem bound fault := by
  obtain ⟨s, hpools, hend⟩ := exists_ending_of_run
    (P := fun s => s.pools.Sourced (Setting.of problem recalls stop).problem bound)
    (fun hs hturn => hturn.sourced hs) h (Pools.sourced_fresh _ _)
  cases hend with
  | first hpull =>
      obtain ⟨t, ht, hexp⟩ := (hpools .expression).walks.exists_met_of_fault hpull hfault
      exact ⟨.expression, .expansion ht hexp⟩
  | @faultyCovering role _ _ _ _ _ _ hgrow hgrew =>
      cases hfault
      rcases growToCover_cases hgrow with ⟨_, rfl⟩ | ⟨_, hgrow'⟩
      · cases hgrew
      · exact ⟨role, (hpools role).hazard_of_grow hgrow' hgrew⟩
  | fallsShort _ _ _ => cases hfault
  | cancelled _ => cases hfault
  | concluded hsearch =>
      -- a tree that has been found passes its test
      have hvalid := isValid_of_search (hpools.labelled _ _) hsearch
      simp [conclude, hvalid] at hfault
  | faultyExpression hgrow hgrew =>
      cases hfault
      exact ⟨.expression, (hpools .expression).hazard_of_grow hgrow hgrew⟩
  | faultyPredicate hgrow hgrew =>
      cases hfault
      exact ⟨.predicate, (hpools .predicate).hazard_of_grow hgrow hgrew⟩
  | bothDry _ _ _ => cases hfault

end DivideAndConquer

end Sygus
