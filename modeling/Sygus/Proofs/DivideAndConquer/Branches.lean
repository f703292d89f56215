import Sygus.Proofs.DivideAndConquer.Bounded
import Sygus.Proofs.DivideAndConquer.Turns
import Sygus.Proofs.Drawing

/-!
# The trees that are returned are chains

A tree grows only to one side: under each guard stands an expression, and the other branch is
the rest of the tree. So it is a **chain** of branches and a last expression, and `Stitched` says
which chains are stitched for a set of needed examples.

Each expression of a chain is there for some example that none of the expressions before it
satisfies. There are no more of them than needed examples, therefore, and the tree is at most so
much deeper than what it is made of.
-/

namespace Sygus

/-- An expression and the guard under which it is taken. -/
structure Branch where
  guard : Program
  this : Program

/-- The tree that takes the first branch whose guard holds, and `last` if there is none. -/
def Program.chain (last : Program) : List Branch → Program
  | [] => last
  | b :: branches => .ite b.guard b.this (last.chain branches)

/-- The expressions of a chain, in order. -/
def chained (branches : List Branch) (last : Program) : List Program :=
  branches.map (·.this) ++ [last]

theorem chained_cons (b : Branch) (branches : List Branch) (last : Program) :
    chained (b :: branches) last = b.this :: chained branches last := rfl

/-- A chain is deeper than what it is made of by the number of its branches at most. -/
theorem depth_chain_le {d : Nat} {branches : List Branch} {last : Program}
    (hthis : ∀ p ∈ chained branches last, p.root.depth ≤ d)
    (hguards : ∀ b ∈ branches, b.guard.root.depth ≤ d) :
    (last.chain branches).root.depth ≤ d + branches.length := by
  induction branches with
  | nil => exact hthis last (by simp [chained])
  | cons b branches ih =>
      rw [chained_cons, List.forall_mem_cons] at hthis
      rw [List.forall_mem_cons] at hguards
      have hrest := ih hthis.2 hguards.2
      have hdepth : (last.chain (b :: branches)).root.depth
          = 1 + max b.guard.root.depth (max b.this.root.depth
              (max (last.chain branches).root.depth 0)) := rfl
      rw [hdepth, List.length_cons]
      have hthis' := hthis.1
      have hguard := hguards.1
      omega

/-- Whether a program gives the output of an example is a matter of its label. -/
theorem evaluate_iff_mem_label {p : Program} {examples : List Example} {s : ExampleSet}
    (h : Role.expression.label p examples = .ok s) {i : Nat} {x : Example}
    (hx : examples[i]? = some x) : p.evaluate x.input = .ok x.output ↔ i ∈ s := by
  rw [← satisfies_expression, Role.satisfies_of_label h hx, Except.ok.injEq, decide_eq_true_iff]

/-- A guard with the label of an expression holds exactly where the expression is right. -/
theorem truth_of_labels {guard this : Program} {examples : List Example} {s : ExampleSet}
    (hguard : Role.predicate.label guard examples = .ok s)
    (hthis : Role.expression.label this examples = .ok s) {x : Example} (hx : x ∈ examples) :
    ∃ v, guard.root.truth x.input = .ok v
      ∧ (v = true ↔ this.evaluate x.input = .ok x.output) := by
  obtain ⟨i, hi⟩ := List.mem_iff_getElem?.mp hx
  refine ⟨decide (i ∈ s), Role.satisfies_of_label hguard hi, ?_⟩
  rw [decide_eq_true_iff, evaluate_iff_mem_label hthis hi]

namespace Stitcher

variable {c : Stitcher Program} {needed : ExampleSet} {branches : List Branch} {last : Program}

/-- The chains that can be stitched for a set of needed examples. -/
inductive Stitched (c : Stitcher Program) : ExampleSet → List Branch → Program → Prop where
  /-- One expression satisfies all that is needed. -/
  | last {e : Entry Program} {needed : ExampleSet} :
      e ∈ c.expressions → needed ⊆ e.label → Stitched c needed [] e.piece
  /-- An expression satisfies a part, its guard has the same label, and a chain does the rest. -/
  | branch {e guard : Entry Program} {needed : ExampleSet} {branches : List Branch}
      {last : Program} :
      e ∈ c.expressions → guard ∈ c.predicates → guard.label = e.label →
      ¬ needed ⊆ e.label → (∃ i ∈ needed, i ∈ e.label) →
      Stitched c (needed.without e.label) branches last →
      Stitched c needed (⟨guard.piece, e.piece⟩ :: branches) last

/-- **What is stitched is a chain.** -/
theorem inductive_stitched (c : Stitcher Program) : c.Inductive fun needed tree =>
    ∃ branches last, tree = .chain last branches ∧ c.Stitched needed branches last where
  last he hsub := ⟨[], _, rfl, .last he hsub⟩
  branch he hguard hlabel hpart hmeets hother := by
    obtain ⟨branches, last, rfl, hchain⟩ := hother
    exact ⟨_ :: branches, last, rfl, .branch he hguard hlabel hpart hmeets hchain⟩

/-- The expressions of a chain come from the pool of expressions. -/
theorem Stitched.exists_entry (h : c.Stitched needed branches last) :
    ∀ p ∈ chained branches last, ∃ e ∈ c.expressions, e.piece = p := by
  induction h with
  | last he _ =>
      intro p hp
      cases List.mem_singleton.mp hp
      exact ⟨_, he, rfl⟩
  | branch he _ _ _ _ _ ih =>
      rw [chained_cons, List.forall_mem_cons]
      exact ⟨⟨_, he, rfl⟩, ih⟩

/-- The guards come from the pool of predicates and have the labels of their expressions. -/
theorem Stitched.exists_guard (h : c.Stitched needed branches last) :
    ∀ b ∈ branches, ∃ guard ∈ c.predicates, ∃ e ∈ c.expressions,
      guard.piece = b.guard ∧ e.piece = b.this ∧ guard.label = e.label := by
  induction h with
  | last _ _ => simp
  | branch he hguard hlabel _ _ _ ih =>
      rw [List.forall_mem_cons]
      exact ⟨⟨_, hguard, _, he, rfl, rfl, hlabel⟩, ih⟩

/-- There are fewer branches than needed examples: each of them takes one away, and one is left for
the last expression. -/
theorem Stitched.length_lt (h : c.Stitched needed branches last) (hne : needed ≠ []) :
    branches.length < needed.length := by
  induction h with
  | last _ _ => exact List.length_pos_of_ne_nil hne
  | @branch e _ needed _ _ _ _ _ hpart hmeets _ ih =>
      have hleft : needed.without e.label ≠ [] := fun hnil =>
        hpart (ExampleSet.without_isEmpty_iff.mp (List.isEmpty_iff.mpr hnil))
      have hshorter := ExampleSet.length_without_lt_of_meets hmeets
      have hrest := ih hleft
      rw [List.length_cons]
      omega

/-- **Each expression is right on an example that none before it is right on.** -/
theorem Stitched.exists_new {examples : List Example} (hc : c.Labelled examples)
    (h : c.Stitched needed branches last) (hneeded : needed ⊆ List.range examples.length)
    (hne : needed ≠ []) {before after : List Program} {this : Program}
    (hsplit : chained branches last = before ++ this :: after) :
    ∃ i ∈ needed, ∃ x, examples[i]? = some x ∧ this.evaluate x.input = .ok x.output
      ∧ ∀ q ∈ before, q.evaluate x.input ≠ .ok x.output := by
  induction h generalizing before with
  | @last e needed he hsub =>
      have hthis : before = [] ∧ this = e.piece := by
        cases before with
        | nil => exact ⟨rfl, (List.cons.inj hsplit).1.symm⟩
        | cons b before => exact absurd (List.cons.inj hsplit).2 (by simp)
      obtain ⟨rfl, rfl⟩ := hthis
      obtain ⟨i, hi⟩ := List.exists_mem_of_ne_nil needed hne
      have hget := List.getElem?_eq_getElem (List.mem_range.mp (hneeded hi))
      exact ⟨i, hi, _, hget, (evaluate_iff_mem_label (hc.expressions e he) hget).mpr (hsub hi),
        by simp⟩
  | @branch e guard needed _ _ he _ _ hpart hmeets _ ih =>
      have hlabel := hc.expressions e he
      cases before with
      | nil =>
          -- the first expression: any needed example in its label will do
          cases (List.cons.inj hsplit).1
          obtain ⟨i, hi, hie⟩ := hmeets
          have hget := List.getElem?_eq_getElem (List.mem_range.mp (hneeded hi))
          exact ⟨i, hi, _, hget, (evaluate_iff_mem_label hlabel hget).mpr hie, by simp⟩
      | cons b before =>
          cases (List.cons.inj hsplit).1
          have hleft : needed.without e.label ≠ [] := fun hnil =>
            hpart (ExampleSet.without_isEmpty_iff.mp (List.isEmpty_iff.mpr hnil))
          -- what the first expression leaves over, it is not right on
          obtain ⟨i, hi, x, hget, hthis, hbefore⟩ :=
            ih (fun i hi => hneeded (ExampleSet.mem_without.mp hi).1) hleft (List.cons.inj hsplit).2
          obtain ⟨hi, hie⟩ := ExampleSet.mem_without.mp hi
          refine ⟨i, hi, x, hget, hthis, List.forall_mem_cons.mpr ⟨?_, hbefore⟩⟩
          exact fun hright => hie ((evaluate_iff_mem_label hlabel hget).mp hright)

end Stitcher

namespace DivideAndConquer

variable {problem : Problem} {recalls : Bool} {bound : Option Nat} {stop : Stop}

/-- A tree that a search finds is valid. -/
theorem isValid_of_search {c : Setting} {pools : Pools}
    (hlabelled : (pools.stitcher c.recalls c.stop).Labelled c.problem.examples) {j j' : Journal}
    {tree : Program} (h : search c pools j = (some tree, j')) :
    tree.isValid c.problem.examples = .ok true :=
  isValid_of_fits (Stitcher.stitch_finds (Stitcher.inductive_fits hlabelled) h)

/-- Both pools draw from their categories. -/
def Pools.Sourced (problem : Problem) (bound : Option Nat) (pools : Pools) : Prop :=
  ∀ role, (pools.of role).Sourced problem bound role

theorem Pools.Sourced.labelled {pools : Pools} (h : pools.Sourced problem bound) (recalls : Bool)
    (stop : Stop) : (pools.stitcher recalls stop).Labelled problem.examples :=
  ⟨fun e he => ((h .expression).entries e he).2, fun e he => ((h .predicate).entries e he).2⟩

theorem Pools.sourced_fresh (problem : Problem) (bound : Option Nat) :
    (Pools.fresh bound).Sourced problem bound := by
  intro role
  cases role <;> exact Pool.sourced_fresh _ _ _

theorem Turn.sourced {c : Setting} {s s' : State} (h : Turn c s s')
    (hs : s.pools.Sourced c.problem bound) : s'.pools.Sourced c.problem bound :=
  h.preserves (fun hp hg _ => hp.grow hg) hs

theorem examples_of_first {c : Setting} (h : (State.initial c bound).stage = .first) :
    c.problem.examples = [] := by
  by_contra hne
  unfold State.initial at h
  rw [if_neg hne] at h
  cases h

/-- **Where a program that is returned comes from.** A run without examples has drawn it as an
expression; a run with examples has stitched it out of pools that draw from their categories. -/
theorem origin_of_run {fuel : Nat} {r : Run} {p : Program}
    (h : run problem recalls bound stop fuel = some r) (hp : r.result = .ok (some p)) :
    (problem.examples = [] ∧ Role.expression.Draws problem.grammar bound p)
      ∨ ∃ (pools : Pools) (branches : List Branch) (last : Program),
          pools.Sourced (Setting.of problem recalls stop).problem bound
          ∧ p = .chain last branches ∧ (pools.stitcher recalls stop).Stitched
            (List.range problem.examples.eraseDups.length) branches last := by
  obtain ⟨s, ⟨hstage, hpools⟩, hend⟩ := exists_ending_of_run
    (P := fun s => (s.stage = .first → (Setting.of problem recalls stop).problem.examples = [])
      ∧ s.pools.Sourced (Setting.of problem recalls stop).problem bound)
    (fun hs hturn => ⟨by cases hturn <;> simp, hturn.sourced hs.2⟩) h
    ⟨examples_of_first, Pools.sourced_fresh _ _⟩
  cases hend with
  | first hpull =>
      have hmet := ((hpools .expression).walks.next hpull).2 p hp
      exact Or.inl ⟨examples_of_eq_nil_iff.mp (hstage rfl), Role.draws_of_met hmet⟩
  | @concluded pools _ _ _ hsearch =>
      have hvalid := isValid_of_search (hpools.labelled _ _) hsearch
      simp only [conclude, hvalid, Except.ok.injEq, Option.some.injEq] at hp
      subst hp
      obtain ⟨branches, last, heq, hchain⟩ :=
        Stitcher.stitch_finds (Stitcher.inductive_stitched _) hsearch
      exact Or.inr ⟨pools, branches, last, hpools, heq, hchain⟩
  | faultyCovering _ _ _ => cases hp
  | fallsShort _ _ _ => cases hp
  | cancelled _ => cases hp
  | faultyExpression _ _ => cases hp
  | faultyPredicate _ _ => cases hp
  | bothDry _ _ _ => cases hp

/-- The expressions of a chain stitched out of such pools can be drawn. -/
theorem Pools.Sourced.draws_expression {pools : Pools} (h : pools.Sourced problem bound)
    {needed : ExampleSet} {branches : List Branch} {last : Program}
    (hchain : (pools.stitcher recalls stop).Stitched needed branches last) :
    ∀ p ∈ chained branches last, Role.expression.Draws problem.grammar bound p := by
  intro p hp
  obtain ⟨e, he, rfl⟩ := hchain.exists_entry p hp
  exact ((h .expression).entries e he).1

/-- So can its guards. -/
theorem Pools.Sourced.draws_guard {pools : Pools} (h : pools.Sourced problem bound)
    {needed : ExampleSet} {branches : List Branch} {last : Program}
    (hchain : (pools.stitcher recalls stop).Stitched needed branches last) :
    ∀ b ∈ branches, Role.predicate.Draws problem.grammar bound b.guard := by
  intro b hb
  obtain ⟨guard, hguard, _, _, heq, _⟩ := hchain.exists_guard b hb
  exact heq ▸ ((h .predicate).entries guard hguard).1

theorem range_ne_nil (hne : problem.examples ≠ []) :
    List.range problem.examples.eraseDups.length ≠ [] := by
  obtain ⟨x, hx⟩ := List.exists_mem_of_ne_nil _ hne
  have hpos := List.length_pos_of_mem (List.mem_eraseDups.mpr hx)
  exact fun hnil => absurd (List.range_eq_nil.mp hnil) (by omega)

/-- A chain for all distinct examples has fewer branches than there are of them. -/
theorem length_lt_of_stitched {c : Stitcher Program} (hne : problem.examples ≠ [])
    {branches : List Branch} {last : Program}
    (h : c.Stitched (List.range problem.examples.eraseDups.length) branches last) :
    branches.length < problem.examples.eraseDups.length := by
  have hlt := h.length_lt (range_ne_nil hne)
  rwa [List.length_range] at hlt

/-- The shape of a chain for the examples of a problem. -/
structure Shape (problem : Problem) (bound : Option Nat) (branches : List Branch) (last : Program) :
    Prop where
  /-- There are no more expressions than there are distinct examples. -/
  length_le : branches.length + 1 ≤ problem.examples.eraseDups.length
  /-- The expressions derive from their category and keep to the bound. -/
  expressions : ∀ p ∈ chained branches last, Role.expression.Draws problem.grammar bound p
  /-- The guards derive from theirs and keep to the bound. -/
  guards : ∀ b ∈ branches, Role.predicate.Draws problem.grammar bound b.guard
  /-- A guard holds on the examples whose output its expression gives, and fails on the others. -/
  decides : ∀ b ∈ branches, ∀ x ∈ problem.examples, ∃ v, b.guard.root.truth x.input = .ok v
    ∧ (v = true ↔ b.this.evaluate x.input = .ok x.output)
  /-- An expression gives the output of an example whose output none before it gives. -/
  news : ∀ before this after, chained branches last = before ++ this :: after →
    ∃ x ∈ problem.examples, this.evaluate x.input = .ok x.output
      ∧ ∀ q ∈ before, q.evaluate x.input ≠ .ok x.output

/--
**A program that is returned is a chain of guarded expressions.**

Take any run with examples, whether it recalls answers or not and whenever its flag goes up. If it
returns a program, that is a chain with at most one expression for each distinct example. Its
expressions and guards derive from their categories within the bound, a guard holds on exactly
those examples whose output its expression gives, and each expression gives the output of an
example that those before it get wrong. Under a bound, the program is at most so much deeper as
there are further examples.
-/
theorem found_is_chain (problem : Problem) (recalls : Bool) (bound : Option Nat) (stop : Stop)
    (hne : problem.examples ≠ []) (fuel : Nat) (r : Run)
    (h : run problem recalls bound stop fuel = some r) (p : Program)
    (hp : r.result = .ok (some p)) :
    ∃ branches last, p = .chain last branches ∧ Shape problem bound branches last
      ∧ ∀ d, bound = some d → p.root.depth ≤ d + problem.examples.eraseDups.length - 1 := by
  rcases origin_of_run h hp with ⟨hnil, _⟩ | ⟨pools, branches, last, hpools, rfl, hchain⟩
  · exact absurd hnil hne
  have hlabelled := hpools.labelled recalls stop
  have hrange := range_ne_nil hne
  have hlength := length_lt_of_stitched hne hchain
  have hexpressions := hpools.draws_expression hchain
  have hguards := hpools.draws_guard hchain
  refine ⟨branches, last, rfl, ⟨hlength, hexpressions, hguards, ?_, ?_⟩, ?_⟩
  · intro b hb x hx
    obtain ⟨guard, hguard, e, he, hbguard, hbthis, hlabel⟩ := hchain.exists_guard b hb
    rw [← hbguard, ← hbthis]
    exact truth_of_labels (hlabelled.predicates guard hguard)
      (hlabel ▸ hlabelled.expressions e he) (List.mem_eraseDups.mpr hx)
  · intro before this after hsplit
    obtain ⟨i, _, x, hget, hthis, hbefore⟩ :=
      hchain.exists_new hlabelled (fun _ hi => hi) hrange hsplit
    exact ⟨x, List.mem_eraseDups.mp (List.mem_of_getElem? hget), hthis, hbefore⟩
  · intro d hd
    subst hd
    have hdepth := depth_chain_le (fun p hp => (Role.draws_iff.mp (hexpressions p hp)).2)
      (fun b hb => (Role.draws_iff.mp (hguards b hb)).2)
    omega

/-- The greater of two numbers is found as a chain of two expressions. -/
theorem found_is_chain_branching :
    ∃ r p, run .branching true (some 2) .never 100 = some r ∧ r.result = .ok (some p)
      ∧ ∃ branches last, p = .chain last branches ∧ Shape .branching (some 2) branches last
        ∧ ∀ d, some 2 = some d →
          p.root.depth ≤ d + Problem.branching.examples.eraseDups.length - 1 :=
  ⟨_, _, rfl, rfl, found_is_chain .branching true (some 2) .never (by simp [Problem.branching])
    100 _ rfl _ rfl⟩

end DivideAndConquer

end Sygus
