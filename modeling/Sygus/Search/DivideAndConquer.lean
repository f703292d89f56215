import Sygus.DecisionTree.Stitching

/-!
# Divide and conquer

A program is sought that treats different examples in different branches. One pool
collects expressions, another one predicates. First both grow until each covers all
examples; then an attempt is made to stitch a decision tree out of them, and after
each failure both grow by one entry. The run fails once neither can grow.

Repeated examples count once. Without examples the first expression is the answer.
-/

namespace Sygus.DivideAndConquer

/-- What a run is asked for, its examples being distinct. -/
structure Setting where
  problem : Problem
  /-- Whether a stitching recalls answers. -/
  recalls : Bool
  stop : Stop

/-- The pools of a run under way. -/
structure Pools where
  expressions : Pool
  predicates : Pool
  deriving DecidableEq

/-- Pools that have not begun to grow. -/
def Pools.fresh (bound : Option Nat) : Pools :=
  ⟨.fresh .expression bound, .fresh .predicate bound⟩

/-- How a phase of a run ends: with the run, or with pools to go on with. -/
inductive Phase where
  | ended (run : Run)
  | ready (pools : Pools) (journal : Journal)

/-- Grows a pool by one entry, unless it covers all examples already. -/
def growToCover (c : Setting) (fuel : Nat) (p : Pool) (j : Journal) : Option Growth :=
  if p.covers c.problem.examples.length then some ⟨.ok true, p, j⟩
  else p.grow c.problem c.stop fuel j

/-- Grows the pools in turn until each covers all examples. -/
def cover (c : Setting) : Nat → Pools → Journal → Option Phase
  | 0, _, _ => none
  | fuel + 1, pools, j => do
    let count := c.problem.examples.length
    if pools.expressions.covers count && pools.predicates.covers count then
      some (.ready pools j)
    else
      let e ← growToCover c fuel pools.expressions j
      match e.grew with
      | .error fault => some (.ended ⟨.error fault, e.journal⟩)
      | .ok false => some (.ended ⟨.ok none, e.journal.report (.fallsShort .expression)⟩)
      | .ok true =>
        let p ← growToCover c fuel pools.predicates e.journal
        match p.grew with
        | .error fault => some (.ended ⟨.error fault, p.journal⟩)
        | .ok false => some (.ended ⟨.ok none, p.journal.report (.fallsShort .predicate)⟩)
        | .ok true => cover c fuel ⟨e.pool, p.pool⟩ p.journal

/-- The tree found is tested before it is returned. -/
def conclude (c : Setting) (tree : Program) (j : Journal) : Run :=
  match tree.isValid c.problem.examples with
  | .error fault => ⟨.error fault, j⟩
  | .ok false => ⟨.ok none, j.report (.refuted tree)⟩
  | .ok true => ⟨.ok (some tree), j.report (.found tree)⟩

/-- One attempt to stitch all examples out of the pools. -/
def attempt (c : Setting) (pools : Pools) (j : Journal) : Option Program × Journal :=
  let stitcher : Stitcher Program :=
    ⟨pools.expressions.entries, pools.predicates.entries, c.recalls, c.stop⟩
  stitcher.stitch (List.range c.problem.examples.length)
    (j.report (.stitching pools.expressions.entries.length pools.predicates.entries.length))

/-- Attempts to stitch, and grows both pools after each failure, until a tree is found,
neither pool grows or the flag is raised. -/
def conquer (c : Setting) : Nat → Pools → Journal → Option Run
  | 0, _, _ => none
  | fuel + 1, pools, j => do
    if c.stop.isRaised j then some ⟨.ok none, j.polled.report .stitchingCancelled⟩
    else
      match attempt c pools j.polled with
      | (some tree, j) => some (conclude c tree j)
      | (none, j) =>
        let e ← pools.expressions.grow c.problem c.stop fuel j
        match e.grew with
        | .error fault => some ⟨.error fault, e.journal⟩
        | .ok grewExpression =>
          let p ← pools.predicates.grow c.problem c.stop fuel e.journal
          match p.grew with
          | .error fault => some ⟨.error fault, p.journal⟩
          | .ok grewPredicate =>
            let pools := ⟨e.pool, p.pool⟩
            if grewExpression || grewPredicate then conquer c fuel pools p.journal
            else if c.stop.isRaised p.journal then conquer c fuel pools p.journal.polled
            else some ⟨.ok none, p.journal.polled.report .bothDry⟩

/-- The first expression of the grammar, whatever its value. -/
def firstExpression (c : Setting) (bound : Option Nat) (fuel : Nat) : Option Run := do
  let pull ← ((Enumerator.ofRole .expression).withBound bound).next c.problem.grammar c.stop
    fuel .empty
  some ⟨pull.result, pull.journal⟩

/-- A run of divide and conquer. -/
def run (problem : Problem) (recalls : Bool) (bound : Option Nat) (stop : Stop) (fuel : Nat) :
    Option Run := do
  let c : Setting := ⟨{ problem with examples := problem.examples.eraseDups }, recalls, stop⟩
  if c.problem.examples.isEmpty then firstExpression c bound fuel
  else
    match ← cover c fuel (.fresh bound) .empty with
    | .ended run => some run
    | .ready pools j => conquer c fuel pools j

end Sygus.DivideAndConquer
