import Sygus.Proofs.Search.Testing

/-!
# Top-down search finds a smallest program

Suppose that every argument of every production is a hole. Then a leftmost step puts one
operator where a hole was, and the number of operators of a term is the number of steps that lead
to it. A breadth-first walk goes through the terms **level by level**: those in its frontier
are sorted by their operators, and no two of them are more than one level apart.

A complete term has nothing but operators, so their number is its size. Hence programs come in the
order of their sizes. And a program that is still to come is the completion of a term in the
frontier, with one operator more for each step to go. So it is not smaller than the one that
has just been taken out.
-/

namespace Sygus

open Relation (ReflTransGen)
open Term (Completes CompletesAll Derives Expands ExpandsFirst)

variable {g : Grammar}

/-- Whether all arguments of all productions are holes. -/
def Grammar.ArgsAreHoles (g : Grammar) : Prop :=
  ∀ p ∈ g.productions, ∀ s ∈ p.args, s.isTerminal = false

instance (g : Grammar) : Decidable g.ArgsAreHoles :=
  inferInstanceAs (Decidable (∀ p ∈ g.productions, ∀ s ∈ p.args, s.isTerminal = false))

/-! ## Counting operators -/

namespace Term

mutual

/-- The number of nodes that are not holes. -/
def operators : Term → Nat
  | node s cs => (if s.isTerminal then 1 else 0) + totalOperators cs

/-- The number of such nodes of a list of terms. -/
def totalOperators : List Term → Nat
  | [] => 0
  | c :: cs => c.operators + totalOperators cs

end

mutual

/-- **The operators of a complete term are its nodes.** -/
theorem operators_of_isComplete : ∀ {t : Term}, t.isComplete = true → t.operators = t.size
  | node s cs, h => by
      rw [isComplete, Bool.and_eq_true] at h
      rw [operators, size, if_pos h.1, totalOperators_of_allComplete h.2]

theorem totalOperators_of_allComplete : ∀ {cs : List Term}, allComplete cs = true →
    totalOperators cs = totalSize cs
  | [], _ => rfl
  | _ :: _, h => by
      rw [allComplete, Bool.and_eq_true] at h
      rw [totalOperators, totalSize, operators_of_isComplete h.1,
        totalOperators_of_allComplete h.2]

end

/-- Fresh arguments have no operators yet. -/
theorem totalOperators_leaves {args : List Symbol} (h : ∀ s ∈ args, s.isTerminal = false) :
    totalOperators (args.map leaf) = 0 := by
  induction args with
  | nil => rfl
  | cons s args ih =>
      rw [List.forall_mem_cons] at h
      rw [List.map_cons, totalOperators, ih h.2]
      simp [leaf, operators, totalOperators, h.1]

theorem operators_production (hg : g.ArgsAreHoles) {p : Production} (hp : p ∈ g.productions) :
    p.term.operators = 1 := by
  simp [Production.term, Production.operatorSymbol, operators, Symbol.isTerminal,
    totalOperators_leaves (hg p hp)]

mutual

/-- **A step brings in one operator.** -/
theorem Expands.operators_eq (hg : g.ArgsAreHoles) {t u : Term} (h : Expands g t u)
    (ht : t.isBare = true) : u.operators = t.operators + 1 := by
  cases h with
  | hole _ hp _ =>
      rw [Term.isBare, List.isEmpty_iff] at ht
      subst ht
      rw [operators_production hg hp]
      rfl
  | @child s cs cs' hcs =>
      cases s with
      | terminal name =>
          have hcount := hcs.totalOperators_eq hg ht
          rw [operators, operators]
          omega
      | nonTerminal name =>
          rw [Term.isBare, List.isEmpty_iff] at ht
          subst ht
          cases hcs

theorem ExpandsFirst.totalOperators_eq (hg : g.ArgsAreHoles) {cs cs' : List Term}
    (h : ExpandsFirst g cs cs') (hcs : allBare cs = true) :
    totalOperators cs' = totalOperators cs + 1 := by
  cases h with
  | here _ hstep =>
      rw [allBare, Bool.and_eq_true] at hcs
      have hcount := hstep.operators_eq hg hcs.1
      rw [totalOperators, totalOperators]
      omega
  | later _ hstep =>
      rw [allBare, Bool.and_eq_true] at hcs
      have hcount := hstep.totalOperators_eq hg hcs.2
      rw [totalOperators, totalOperators]
      omega

end

mutual

/-- **A completion has one operator more for each hole to replace.** -/
theorem Completes.operators_add (hg : g.ArgsAreHoles) {n : Nat} {u t : Term}
    (h : Completes g n u t) : u.operators + n = t.size := by
  cases h with
  | @hole n category name p ts hp _ _ hall =>
      have hcount := hall.totalOperators_add hg
      rw [totalOperators_leaves (hg p hp)] at hcount
      rw [size, ← hcount]
      simp [operators, totalOperators, Symbol.isTerminal, Nat.add_comm]
  | node hall =>
      have hcount := hall.totalOperators_add hg
      rw [size, ← hcount, operators]
      simp [Symbol.isTerminal, Nat.add_assoc]

theorem CompletesAll.totalOperators_add (hg : g.ArgsAreHoles) {n : Nat} {us ts : List Term}
    (h : CompletesAll g n us ts) : totalOperators us + n = totalSize ts := by
  cases h with
  | nil => rfl
  | cons hhead htail =>
      have hcount := hhead.operators_add hg
      have hcounts := htail.totalOperators_add hg
      rw [totalOperators, totalSize]
      omega

end

end Term

/-! ## Level by level -/

/-- Terms level by level: sorted by their operators, of which there are at least `n`, and
no more than one level apart. -/
structure Leveled (n : Nat) (ts : List Term) : Prop where
  bare : ∀ t ∈ ts, t.isBare = true
  sorted : ts.Pairwise fun t u => t.operators ≤ u.operators
  narrow : ∀ t ∈ ts, ∀ u ∈ ts, u.operators ≤ t.operators + 1
  least : ∀ t ∈ ts, n ≤ t.operators

namespace Leveled

variable {n : Nat} {t : Term} {ts us : List Term}

theorem singleton (ht : t.isBare = true) : Leveled t.operators [t] where
  bare := List.forall_mem_singleton.mpr ht
  sorted := List.pairwise_singleton _ _
  narrow := by
    intro u hu v hv
    rw [List.mem_singleton.mp hu, List.mem_singleton.mp hv]
    exact Nat.le_succ _
  least := List.forall_mem_singleton.mpr (Nat.le_refl _)

theorem mono {m : Nat} (h : Leveled n ts) (hle : m ≤ n) : Leveled m ts :=
  { h with least := fun t ht => Nat.le_trans hle (h.least t ht) }

theorem le_head (h : Leveled n (t :: ts)) : n ≤ t.operators := h.least t List.mem_cons_self

/-- What is behind a term has no fewer operators than that term. -/
theorem tail (h : Leveled n (t :: ts)) : Leveled t.operators ts where
  bare := (List.forall_mem_cons.mp h.bare).2
  sorted := (List.pairwise_cons.mp h.sorted).2
  narrow := fun u hu v hv =>
    h.narrow u (List.mem_cons_of_mem _ hu) v (List.mem_cons_of_mem _ hv)
  least := (List.pairwise_cons.mp h.sorted).1

/-- **A term makes way for terms of the next level,** which join at the end. -/
theorem expand (hg : g.ArgsAreHoles) (h : Leveled n (t :: ts)) (hus : ∀ u ∈ us, Expands g t u) :
    Leveled t.operators (ts ++ us) := by
  have hbare : t.isBare = true := h.bare t List.mem_cons_self
  have hnext : ∀ u ∈ us, u.operators = t.operators + 1 :=
    fun u hu => (hus u hu).operators_eq hg hbare
  -- nothing in the frontier is past the level of the new terms, nor more than one level before it
  have hlow : ∀ u ∈ ts ++ us, t.operators ≤ u.operators := by
    intro u hu
    rcases List.mem_append.mp hu with hu | hu
    · exact h.tail.least u hu
    · have := hnext u hu
      omega
  have hhigh : ∀ u ∈ ts ++ us, u.operators ≤ t.operators + 1 := by
    intro u hu
    rcases List.mem_append.mp hu with hu | hu
    · exact h.narrow t List.mem_cons_self u (List.mem_cons_of_mem _ hu)
    · exact Nat.le_of_eq (hnext u hu)
  refine ⟨?_, ?_, ?_, hlow⟩
  · intro u hu
    rcases List.mem_append.mp hu with hu | hu
    · exact h.tail.bare u hu
    · exact (hus u hu).isBare hbare
  · refine List.pairwise_append.mpr ⟨h.tail.sorted, ?_, ?_⟩
    · refine List.pairwise_of_forall_mem_list ?_
      intro u hu v hv
      rw [hnext u hu, hnext v hv]
    · intro u hu v hv
      rw [hnext v hv]
      exact hhigh u (List.mem_append_left _ hu)
  · intro u hu v hv
    have := hlow u hu
    have := hhigh v hv
    omega

/-- **What is still to come is not smaller than the first term.** -/
theorem head_le_size (hg : g.ArgsAreHoles) (h : Leveled n (t :: ts)) {u q : Term} {k : Nat}
    (hu : u ∈ t :: ts) (hq : Completes g k u q) : t.operators ≤ q.size := by
  have hle : t.operators ≤ u.operators := by
    rcases List.mem_cons.mp hu with rfl | hu
    · exact Nat.le_refl _
    · exact h.tail.least u hu
  have hsize := hq.operators_add hg
  omega

end Leveled

/-! ## Enumerators -/

namespace Enumerator

variable {e e' : Enumerator} {n : Nat}

theorem Turn.leveled (hg : g.ArgsAreHoles) (h : Turn g e e') (he : Leveled n e.frontier.toList) :
    Leveled n e'.frontier.toList := by
  cases h with
  | @expand t frontier terms hp _ hexp =>
      rw [Frontier.toList_of_pop? hp] at he
      rw [toList_enqueue]
      refine (he.expand hg ?_).mono he.le_head
      intro u hu
      exact (Term.mem_expand_iff t hexp).mp (List.mem_filter.mp hu).1

theorem leveled_of_turns (hg : g.ArgsAreHoles) (h : ReflTransGen (Turn g) e e')
    (he : Leveled n e.frontier.toList) : Leveled n e'.frontier.toList := by
  induction h with
  | refl => exact he
  | tail _ hturn ih => exact hturn.leveled hg ih

/-- An ending leaves nothing smaller than what it hands out. -/
theorem Ending.leveled {stop : Stop} {answer : Except Fault (Option Program)}
    (h : Ending g stop e answer e') (he : Leveled n e.frontier.toList) :
    ∃ m, n ≤ m ∧ Leveled m e'.frontier.toList ∧ ∀ p, answer = .ok (some p) → p.root.size = m := by
  cases h with
  | dry _ => exact ⟨n, Nat.le_refl _, he, fun _ heq => by cases heq⟩
  | stopped hp _ =>
      rw [Frontier.toList_of_pop? hp] at he
      exact ⟨_, he.le_head, he.tail, fun _ heq => by cases heq⟩
  | @handed p _ hp =>
      rw [Frontier.toList_of_pop? hp] at he
      refine ⟨_, he.le_head, he.tail, fun _ heq => ?_⟩
      cases heq
      exact (Term.operators_of_isComplete p.complete).symm
  | failed hp _ _ =>
      rw [Frontier.toList_of_pop? hp] at he
      exact ⟨_, he.le_head, he.tail, fun _ heq => by cases heq⟩

/-- **Programs come in the order of their sizes.** -/
theorem Pulls.pairwise_size (hg : g.ArgsAreHoles) {answers : List (Except Fault (Option Program))}
    (h : Pulls g e answers e') (he : Leveled n e.frontier.toList) :
    ((programs answers).Pairwise fun p q => p.root.size ≤ q.root.size)
      ∧ ∀ p ∈ programs answers, n ≤ p.root.size := by
  induction h generalizing n with
  | nil => exact ⟨.nil, fun p hp => by cases hp⟩
  | @cons e e' stop fuel j pull answers hnext _ ih =>
      obtain ⟨e₁, hturns, hend⟩ := next_cases hnext
      obtain ⟨m, hle, hleveled, hsize⟩ := hend.leveled (leveled_of_turns hg hturns he)
      obtain ⟨hsorted, hleast⟩ := ih hleveled
      have hleast' : ∀ p ∈ programs answers, n ≤ p.root.size :=
        fun p hp => Nat.le_trans hle (hleast p hp)
      rcases hresult : pull.result with fault | _ | p
      · exact ⟨hsorted, hleast'⟩
      · exact ⟨hsorted, hleast'⟩
      · -- what is handed out first is no larger than what follows
        have hm := hsize p hresult
        refine ⟨.cons ?_ hsorted, List.forall_mem_cons.mpr ⟨?_, hleast'⟩⟩
        · rw [hm]
          exact hleast
        · rw [hm]
          exact hle

end Enumerator

/-! ## Top-down search -/

namespace TopDown

open BreadthFirst (State search)

variable {problem : Problem} {bound : Option Nat} {stop : Stop} {s s' : State} {n : Nat}

theorem leveled_of_turn (hg : problem.grammar.ArgsAreHoles)
    (h : BreadthFirst.Turn manner problem bound stop s s') (hs : Leveled n s.frontier.toList) :
    Leveled n s'.frontier.toList := by
  cases h with
  | refuted hp _ _ =>
      rw [Frontier.toList_of_pop? hp] at hs
      exact hs.tail.mono hs.le_head
  | pruned _ _ _ hworth => cases hworth
  | expanded hp _ hpartial _ hexp =>
      have hturn : Enumerator.Turn problem.grammar (s.walk bound) _ := .expand hp hpartial hexp
      exact hturn.leveled hg hs

/-- **What a search finds is not larger than a valid program that is due.** -/
theorem size_le_of_search (hg : problem.grammar.ArgsAreHoles) {fuel : Nat} {run : Run}
    {p q : Program} (h : search manner problem bound stop fuel s = some run)
    (hs : Leveled n s.frontier.toList) (hfound : run.result = .ok (some p))
    (hfits : q.root.fits bound = true) (hvalid : q.isValid problem.examples = .ok true)
    (hdue : (s.walk bound).Pending problem.grammar q.root) :
    p.root.size ≤ q.root.size := by
  -- the frontier stays in order, and `q` stays due, since it would not be turned down
  have hstep : ∀ {s s' : State}, (Leveled n s.frontier.toList
        ∧ (s.walk bound).Pending problem.grammar q.root) →
      BreadthFirst.Turn manner problem bound stop s s' →
      (Leveled n s'.frontier.toList ∧ (s'.walk bound).Pending problem.grammar q.root) := by
    intro s s' hand hturn
    obtain ⟨hs, hdue⟩ := hand
    refine ⟨leveled_of_turn hg hturn hs, (pending_of_turn hturn hfits hdue).resolve_right ?_⟩
    rw [hvalid]
    simp
  obtain ⟨s', ⟨hleveled, k, i, u, hu, hcompletes⟩, hend⟩ :=
    BreadthFirst.exists_ending_of_search hstep h ⟨hs, hdue⟩
  obtain ⟨rest, hp, _⟩ := hend.exists_pop? hfound
  have hmem : u ∈ s'.frontier.toList := List.mem_of_getElem? hu
  rw [Frontier.toList_of_pop? hp] at hleveled hmem
  rw [← Term.operators_of_isComplete p.complete]
  exact hleveled.head_le_size hg hmem hcompletes

/--
**Top-down search finds a smallest program.**

Take any grammar all of whose production arguments are holes. The programs of a category come in
the order of their sizes, whatever the bound on depth, and also if calls are stopped on the
way. And the program that a run of top-down search finds, with any bound, is no larger
than any valid program that derives from the start symbol and fits the bound.
-/
theorem found_size_le {g : Grammar} (hg : g.ArgsAreHoles) :
    (∀ category bound answers e',
      Enumerator.Pulls g ((Enumerator.ofSymbol (.nonTerminal category)).withBound bound)
        answers e' →
      (programs answers).Pairwise fun p q => p.root.size ≤ q.root.size)
    ∧ ∀ examples bound stop fuel run p,
      TopDown.run ⟨g, examples⟩ bound stop fuel = some run → run.result = .ok (some p) →
      ∀ q : Program, Derives g g.startSymbol q.root → q.root.fits bound = true →
        q.isValid examples = .ok true → p.root.size ≤ q.root.size := by
  refine ⟨?_, ?_⟩
  · intro category bound answers e' hpulls
    exact (hpulls.pairwise_size hg (.singleton (Term.isBare_leaf _))).1
  · intro examples bound stop fuel run p hrun hfound q hderives hfits hvalid
    exact size_le_of_search hg hrun (.singleton (Term.isBare_leaf _)) hfound hfits hvalid
      (Enumerator.pending_ofSymbol hderives bound)

/-- The sum of two variables is asked for, and nothing smaller will do. -/
def eleven : List Example := [⟨.ofList [("x", 1), ("y", 10), ("z", 100)], 11⟩]

/-- No expression of conditional arithmetic with fewer than three nodes computes the sum. -/
theorem found_size_le_sum :
    Grammar.arithmetic.ArgsAreHoles
      ∧ ∀ q : Program, Derives .arithmetic Grammar.arithmetic.startSymbol q.root →
        q.isValid eleven = .ok true → 3 ≤ q.root.size := by
  have hg : Grammar.arithmetic.ArgsAreHoles := by decide
  have htop : (TopDown.run ⟨.arithmetic, eleven⟩ none .never 200).map (·.result)
      = some (.ok (some ⟨.op "Add" [.atom "x", .atom "y"], rfl⟩)) := by decide +kernel
  obtain ⟨run, hrun, hresult⟩ := Option.map_eq_some_iff.mp htop
  refine ⟨hg, ?_⟩
  intro q hderives hvalid
  exact (found_size_le hg).2 eleven none .never 200 run _ hrun hresult q hderives rfl hvalid

end TopDown

end Sygus
