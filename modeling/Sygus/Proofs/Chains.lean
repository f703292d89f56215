import Mathlib.Data.List.Lex
import Mathlib.Order.Bounds.Basic
import Sygus.Proofs.DivideAndConquer.Recalling

/-!
# The tree that is found is the first one

A tree is a **chain** of expressions. Each of them but the last is a branch: it satisfies some of
the examples that are still needed, not all of them, and some predicate has exactly its label. The
last one satisfies whatever is left. Written as the places of its expressions in their pool, a chain
is a list of numbers, and chains are compared as such lists are, from the front.

The search goes through the expressions in order and backtracks, so the first tree that it comes by
belongs to the least chain (`least_of_tree`). That it has the first guard for every branch is because
all guards for a branch are tried with the same rest: if the first of them fails, then all do.

The search is a recursion over sets of needed examples, of which `body` is one call. A call asks only
for sets that are shorter, so the recursion ends, and `unify` is what it computes.
-/

namespace Sygus.Stitcher

variable {α : Type} [Piece α] {c : Stitcher α}

/-! ## The recursion -/

/-- One call of the search, which has `call` do the calls for what is left. -/
def body (c : Stitcher α) (call : ExampleSet → State α → Option α × State α)
    (needed : ExampleSet) (s : State α) : Option α × State α :=
  match s.recall needed with
  | some answer => (answer, s)
  | none =>
    let (answer, s) := c.tryEntries call needed c.expressions s
    (answer, c.remember needed answer s)

/-- The search for a set, as deep as it needs to be. A stitching is such a search. -/
def unify (c : Stitcher α) (needed : ExampleSet) : State α → Option α × State α :=
  c.solve (needed.length + 1) needed

theorem solve_succ (depth : Nat) (needed : ExampleSet) :
    c.solve (depth + 1) needed = c.body (c.solve depth) needed := rfl

/-- Trying expressions asks only for less than is needed. -/
theorem tryEntries_congr {call call' : ExampleSet → State α → Option α × State α}
    {needed : ExampleSet}
    (h : ∀ left : ExampleSet, left.length < needed.length → call left = call' left)
    (entries : List (Entry α)) (s : State α) :
    c.tryEntries call needed entries s = c.tryEntries call' needed entries s := by
  induction entries generalizing s with
  | nil => rfl
  | cons e entries ih =>
      rw [tryEntries, tryEntries]
      by_cases hshorter : (needed.without e.label).length = needed.length
      · simp only [hshorter, if_true, ih]
      · simp only [h _ (ExampleSet.length_without_lt hshorter), ih]

/-- **A call asks only for sets that are shorter than its own.** -/
theorem body_congr {call call' : ExampleSet → State α → Option α × State α}
    {needed : ExampleSet}
    (h : ∀ left : ExampleSet, left.length < needed.length → call left = call' left) :
    c.body call needed = c.body call' needed := by
  funext s
  simp only [body, tryEntries_congr h]

/-- A search that is deep enough is the same as any other that is, whenever the flag goes up. -/
theorem solve_eq_unify {depth : Nat} {needed : ExampleSet} (h : needed.length < depth) :
    c.solve depth needed = c.unify needed := by
  induction hlen : needed.length using Nat.strong_induction_on generalizing depth needed with
  | _ n ih =>
      obtain ⟨depth, rfl⟩ : ∃ m, depth = m + 1 := ⟨depth - 1, by omega⟩
      rw [unify, solve_succ, solve_succ]
      refine body_congr fun left hleft => ?_
      exact (ih _ (by omega) (by omega) rfl).trans (ih _ (by omega) hleft rfl).symm

/-- The search is the recursion whose calls are `body`. -/
theorem unify_eq_body (needed : ExampleSet) : c.unify needed = c.body c.unify needed := by
  rw [unify, solve_succ]
  exact body_congr fun _ hleft => solve_eq_unify hleft

/-! ## Chains -/

/-- The places of the expressions of a chain for the needed examples. -/
inductive Chain (c : Stitcher α) : ExampleSet → List Nat → Prop where
  /-- One expression satisfies all that is needed. -/
  | last {i : Nat} {e : Entry α} {needed : ExampleSet} :
      c.expressions[i]? = some e → needed ⊆ e.label → Chain c needed [i]
  /-- An expression satisfies a part, there is a guard for it, and a chain for what is left. -/
  | branch {i : Nat} {e guard : Entry α} {needed : ExampleSet} {places : List Nat} :
      c.expressions[i]? = some e → guard ∈ c.predicates → guard.label = e.label →
      ¬ needed ⊆ e.label → (∃ k ∈ needed, k ∈ e.label) →
      Chain c (needed.without e.label) places → Chain c needed (i :: places)

/-- The tree with these expressions for branches, each under the first guard for its label. -/
def assemble (c : Stitcher α) : List Nat → Option α
  | [] => none
  | [i] => c.expressions[i]?.map (·.piece)
  | i :: places => do
    let e ← c.expressions[i]?
    let guard ← c.predicates.find? (·.label = e.label)
    let other ← assemble c places
    return Piece.ite guard.piece e.piece other

theorem assemble_cons {i : Nat} {places : List Nat} {e guard : Entry α} {other : α}
    (he : c.expressions[i]? = some e)
    (hguard : c.predicates.find? (·.label = e.label) = some guard)
    (hother : c.assemble places = some other) :
    c.assemble (i :: places) = some (Piece.ite guard.piece e.piece other) := by
  cases places with
  | nil => cases hother
  | cons => simp [assemble, he, hguard, hother]

omit [Piece α] in
theorem Chain.solvable {needed : ExampleSet} {places : List Nat} (h : c.Chain needed places) :
    c.Solvable needed := by
  induction h with
  | last he hsub => exact .last (List.mem_of_getElem? he) hsub
  | branch he hguard hlabel hpart hmeets _ ih =>
      exact .branch (List.mem_of_getElem? he) hguard hlabel hpart hmeets ih

omit [Piece α] in
theorem Solvable.exists_chain {needed : ExampleSet} (h : c.Solvable needed) :
    ∃ places, c.Chain needed places := by
  induction h with
  | last he hsub =>
      obtain ⟨i, hi⟩ := List.mem_iff_getElem?.mp he
      exact ⟨[i], .last hi hsub⟩
  | branch he hguard hlabel hpart hmeets _ ih =>
      obtain ⟨i, hi⟩ := List.mem_iff_getElem?.mp he
      obtain ⟨places, hplaces⟩ := ih
      exact ⟨i :: places, .branch hi hguard hlabel hpart hmeets hplaces⟩

/-! ## Trees that begin with an expression -/

/-- The first tree with this expression for its first branch. -/
def treeFrom (c : Stitcher α) (depth : Nat) (needed : ExampleSet) (e : Entry α) : Option α :=
  let left := needed.without e.label
  if left.isEmpty then some e.piece
  else if left.length = needed.length then none
  else (c.guards e.label).findSome? fun guard =>
    (c.tree depth left).map (Piece.ite guard e.piece)

theorem tree_succ (depth : Nat) (needed : ExampleSet) :
    c.tree (depth + 1) needed = c.expressions.findSome? (c.treeFrom depth needed) := rfl

variable {depth : Nat} {needed : ExampleSet} {e : Entry α}

theorem treeFrom_last (h : needed ⊆ e.label) : c.treeFrom depth needed e = some e.piece := by
  unfold treeFrom
  exact if_pos (ExampleSet.without_isEmpty_iff.mpr h)

/-- The guards differ in nothing that matters for the rest of a tree, so only the first one
counts. -/
theorem treeFrom_branch (hpart : ¬ needed ⊆ e.label) (hmeets : ∃ k ∈ needed, k ∈ e.label) :
    c.treeFrom depth needed e = (c.predicates.find? (·.label = e.label)).bind fun guard =>
      (c.tree depth (needed.without e.label)).map (Piece.ite guard.piece e.piece) := by
  have hshorter := (ExampleSet.length_without_lt_of_meets hmeets).ne
  have hfirst : (c.guards e.label).head?
      = (c.predicates.find? (·.label = e.label)).map (·.piece) := by
    rw [guards, List.head?_map, List.head?_filter]
  unfold treeFrom
  dsimp only
  rw [if_neg fun hall => hpart (ExampleSet.without_isEmpty_iff.mp hall), if_neg hshorter]
  cases c.tree depth (needed.without e.label) with
  | none => simp
  | some other =>
      cases hguard : c.predicates.find? (·.label = e.label) with
      | none =>
          rw [hguard, Option.map_none, List.head?_eq_none_iff] at hfirst
          rw [hfirst]
          rfl
      | some guard =>
          rw [hguard, Option.map_some, List.head?_eq_some_iff] at hfirst
          obtain ⟨guards, hguards⟩ := hfirst
          rw [hguards]
          rfl

/-- An expression that has nothing to do with what is needed begins no tree. -/
theorem treeFrom_apart (hpart : ¬ needed ⊆ e.label) (hmeets : ¬ ∃ k ∈ needed, k ∈ e.label) :
    c.treeFrom depth needed e = none := by
  push Not at hmeets
  unfold treeFrom
  dsimp only
  rw [if_neg fun hall => hpart (ExampleSet.without_isEmpty_iff.mp hall),
    if_pos (ExampleSet.length_without_eq_iff.mpr hmeets)]

/-- Where a chain begins, a tree begins. -/
theorem Chain.treeFrom_isSome {i : Nat} {places : List Nat} (h : c.Chain needed (i :: places))
    (hdepth : needed.length ≤ depth) (he : c.expressions[i]? = some e) :
    (c.treeFrom depth needed e).isSome = true := by
  cases h with
  | last he' hsub =>
      obtain rfl := Option.some.inj (he.symm.trans he')
      rw [treeFrom_last hsub]
      rfl
  | @branch _ _ guard _ _ he' hguard hlabel hpart hmeets hrest =>
      obtain rfl := Option.some.inj (he.symm.trans he')
      have hlt := ExampleSet.length_without_lt_of_meets hmeets
      have htree : (c.tree depth (needed.without e.label)).isSome = true :=
        hrest.solvable.tree_isSome (by omega)
      have hfind : (c.predicates.find? (·.label = e.label)).isSome = true :=
        List.find?_isSome.mpr ⟨guard, hguard, decide_eq_true hlabel⟩
      obtain ⟨other, hother⟩ := Option.isSome_iff_exists.mp htree
      obtain ⟨guard', hguard'⟩ := Option.isSome_iff_exists.mp hfind
      rw [treeFrom_branch hpart hmeets, hguard', hother]
      rfl

/-! ## The least chain -/

omit [Piece α] in
/-- A chain is least if no chain begins earlier, and none that begins with the same expression goes
on with less. -/
theorem isLeast_cons {i : Nat} {places : List Nat} (h : c.Chain needed (i :: places))
    (hfirst : ∀ j rest, c.Chain needed (j :: rest) → i ≤ j)
    (hrest : ∀ rest, c.Chain needed (i :: rest) → places ≤ rest) :
    IsLeast {is | c.Chain needed is} (i :: places) := by
  refine ⟨h, ?_⟩
  intro is his
  obtain ⟨j, rest, rfl⟩ : ∃ j rest, is = j :: rest := by
    cases his with
    | last => exact ⟨_, _, rfl⟩
    | branch => exact ⟨_, _, rfl⟩
  rcases Nat.lt_or_eq_of_le (hfirst j rest his) with hlt | rfl
  · exact le_of_lt (List.Lex.rel hlt)
  · exact List.cons_le_cons i (hrest rest his)

/-- **The first tree that the search comes by belongs to the least chain.** -/
theorem least_of_tree {tree : α} (hdepth : needed.length < depth)
    (h : c.tree depth needed = some tree) :
    ∃ places, IsLeast {is | c.Chain needed is} places ∧ c.assemble places = some tree := by
  induction depth generalizing needed tree with
  | zero => omega
  | succ depth ih =>
      rw [tree_succ, List.findSome?_eq_some_iff] at h
      obtain ⟨before, e, after, hsplit, htree, hbefore⟩ := h
      have he : c.expressions[before.length]? = some e := by rw [hsplit]; simp
      -- a chain that began earlier would have been found
      have hfirst : ∀ j rest, c.Chain needed (j :: rest) → before.length ≤ j := by
        intro j rest hchain
        by_contra hlt
        have hj : c.expressions[j]? = some before[j] := by
          rw [hsplit, List.getElem?_append_left (by omega), List.getElem?_eq_getElem]
        have hsome : (c.treeFrom depth needed before[j]).isSome = true :=
          hchain.treeFrom_isSome (by omega) hj
        rw [hbefore _ (List.getElem_mem _)] at hsome
        exact Bool.false_ne_true hsome
      by_cases hsub : needed ⊆ e.label
      · rw [treeFrom_last hsub] at htree
        obtain rfl := Option.some.inj htree
        refine ⟨[before.length], isLeast_cons (.last he hsub) hfirst ?_, ?_⟩
        · intro rest hrest
          cases hrest with
          | last => exact le_rfl
          | branch he' _ _ hpart =>
              obtain rfl := Option.some.inj (he.symm.trans he')
              exact absurd hsub hpart
        · rw [assemble, he, Option.map_some]
      · have hmeets : ∃ k ∈ needed, k ∈ e.label := by
          by_contra hapart
          rw [treeFrom_apart hsub hapart] at htree
          cases htree
        rw [treeFrom_branch hsub hmeets, Option.bind_eq_some_iff] at htree
        obtain ⟨guard, hguard, htree⟩ := htree
        rw [Option.map_eq_some_iff] at htree
        obtain ⟨other, hother, rfl⟩ := htree
        have hlt := ExampleSet.length_without_lt_of_meets hmeets
        obtain ⟨places, hleast, hassemble⟩ := ih (by omega) hother
        have hlabel : guard.label = e.label := of_decide_eq_true (List.find?_some hguard :)
        have hchain : c.Chain needed (before.length :: places) :=
          .branch he (List.mem_of_find?_eq_some hguard) hlabel hsub hmeets hleast.1
        refine ⟨before.length :: places, isLeast_cons hchain hfirst ?_,
          assemble_cons he hguard hassemble⟩
        intro rest hrest
        cases hrest with
        | last he' hsub' =>
            obtain rfl := Option.some.inj (he.symm.trans he')
            exact absurd hsub' hsub
        | branch he' _ _ _ _ hrest =>
            obtain rfl := Option.some.inj (he.symm.trans he')
            exact hleast.2 hrest

/--
**The search finds the tree of the least chain, and there is none only if there is no chain.**

Take any two pools of terms, finished or not, or of anything else that can be put under a guard,
with any labels, and any set of needed examples. A call of the search asks only for sets that are
shorter than its own, so the recursion that `unify` computes ends, and to go any deeper changes
nothing. And if nobody raises the flag, then nothing is found exactly if there is no chain for the
set, whatever has been asked for before and whether or not answers are recalled. What is found
otherwise is the tree of the first chain in the order of the pool, with the first predicate that has
the label of its expression for every guard.
-/
theorem unify_finds_the_least_chain (c : Stitcher α) :
    (∀ needed, c.unify needed = c.body c.unify needed)
    ∧ (∀ (needed : ExampleSet) (depth : Nat), needed.length < depth →
      c.solve depth needed = c.unify needed)
    ∧ (∀ (needed : ExampleSet) (call call' : ExampleSet → State α → Option α × State α),
      (∀ left : ExampleSet, left.length < needed.length → call left = call' left) →
        c.body call needed = c.body call' needed)
    ∧ (c.stop = .never → ∀ s, c.Asked s → ∀ needed,
      ((c.unify needed s).1 = none ↔ ¬ ∃ places, c.Chain needed places)
      ∧ ∀ tree, (c.unify needed s).1 = some tree →
        ∃ places, IsLeast {is | c.Chain needed is} places ∧ c.assemble places = some tree) := by
  refine ⟨unify_eq_body, fun _ _ h => solve_eq_unify h, fun _ _ _ h => body_congr h, ?_⟩
  intro hc s hs needed
  have hanswer : (c.unify needed s).1 = c.answer needed :=
    hs.solve_eq hc (Nat.lt_succ_self _)
  rw [hanswer]
  refine ⟨?_, fun tree htree => least_of_tree (Nat.lt_succ_self _) htree⟩
  rw [← Option.not_isSome_iff_eq_none, answer_isSome_iff]
  exact not_congr ⟨Solvable.exists_chain, fun ⟨_, hplaces⟩ => hplaces.solvable⟩

/-- Pools of terms that are not finished. Only the second expression has a guard. -/
def unfinished : Stitcher Term where
  expressions := [⟨.atom "x", [1]⟩, ⟨.op "Add" [.hole "E", .atom "y"], [0]⟩]
  predicates := [⟨.op "Lt" [.atom "x", .hole "E"], [0]⟩]
  recalls := true
  stop := .never

/-- A chain for both examples begins with the second expression, as there is no guard for the first
one. This is so for pools of programs and for pools of terms with holes in them. -/
theorem unify_finds_the_least_chain_branches :
    (∃ places, IsLeast {is | (⟨DivideAndConquer.branches, DivideAndConquer.comparisons, true,
          .never⟩ : Stitcher Program).Chain [0, 1] is} places
        ∧ (⟨DivideAndConquer.branches, DivideAndConquer.comparisons, true, .never⟩
          : Stitcher Program).assemble places
            = some (Program.ite ⟨.op "Lt" [.atom "x", .atom "y"], rfl⟩ ⟨.atom "y", rfl⟩
              ⟨.atom "x", rfl⟩))
      ∧ ∃ places, IsLeast {is | unfinished.Chain [0, 1] is} places
        ∧ unfinished.assemble places
          = some (.ite (.op "Lt" [.atom "x", .hole "E"]) (.op "Add" [.hole "E", .atom "y"])
            (.atom "x")) := by
  obtain ⟨-, -, -, hfinds⟩ := unify_finds_the_least_chain
    ⟨DivideAndConquer.branches, DivideAndConquer.comparisons, true, .never⟩
  obtain ⟨-, -, -, hunfinished⟩ := unify_finds_the_least_chain unfinished
  exact ⟨(hfinds rfl _ (.start .empty) [0, 1]).2 _ rfl,
    (hunfinished rfl _ (.start .empty) [0, 1]).2 _ rfl⟩

end Sygus.Stitcher
