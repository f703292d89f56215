import Sygus.DecisionTree.Pool

/-!
# Stitching

Two pools of entries are stitched into a decision tree that satisfies a set of
needed examples. An expression whose label holds all of them will do by itself.
Otherwise an expression that satisfies some of them becomes a branch, guarded by a
predicate with exactly its label, and the other branch is a tree for the examples
that are left. Pools are searched in order and the first tree found is the answer.

What is left is always smaller than what was needed, so the number of needed
examples bounds the depth of the search.

A stitching may **recall** what it found out about sets of needed examples before.
This saves time and changes no answer.

The search goes by labels and never looks inside of what it puts together, so it is the
same for programs, which is what pools hold, as for terms with holes in them.
-/

namespace Sygus

/-- What trees are made of: it can be put under a guard. -/
class Piece (α : Type) where
  /-- A choice between two pieces: `this` where `guard` holds, else `other`. -/
  ite (guard this other : α) : α

/-- A choice between two terms, finished or not. -/
def Term.ite (guard this other : Term) : Term := .op "Ite" [guard, this, other]

instance : Piece Term := ⟨Term.ite⟩

/-- A choice between two programs is a program. -/
def Program.ite (guard this other : Program) : Program where
  root := .ite guard.root this.root other.root
  complete := by
    simp [Term.ite, Term.op, Term.isComplete, Term.allComplete, Symbol.isTerminal, guard.complete,
      this.complete, other.complete]

instance : Piece Program := ⟨Program.ite⟩

/-- The pools that a tree is made of. -/
structure Stitcher (α : Type) where
  expressions : List (Entry α)
  predicates : List (Entry α)
  /-- Whether answers are recalled. -/
  recalls : Bool
  stop : Stop

namespace Stitcher

/-- A stitching under way: its journal, and the answers it can recall. -/
structure State (α : Type) where
  journal : Journal
  answers : List (ExampleSet × Option α) := []

variable {α : Type}

/-- The answer known for a set, if there is one. -/
def State.recall (s : State α) (needed : ExampleSet) : Option (Option α) :=
  s.answers.lookup needed

/-- The pieces that hold exactly under the examples of a label. -/
def guards (c : Stitcher α) (label : ExampleSet) : List α :=
  (c.predicates.filter (·.label = label)).map (·.piece)

/-- Notes down an answer, if answers are recalled. -/
def remember (c : Stitcher α) (needed : ExampleSet) (answer : Option α) (s : State α) : State α :=
  if c.recalls then { s with answers := (needed, answer) :: s.answers } else s

variable [Piece α]

/-- Puts `this` under the first guard for which the rest of the tree can be stitched. -/
def tryGuards (rest : State α → Option α × State α) (this : α) :
    List α → State α → Option α × State α
  | [], s => (none, s)
  | guard :: guards, s =>
    match rest s with
    | (some other, s) => (some (Piece.ite guard this other), s)
    | (none, s) => tryGuards rest this guards s

/-- Tries expressions in order as the first branch of a tree, with `solve` for the rest of
it. Each expression costs a look at the stop flag. -/
def tryEntries (c : Stitcher α) (solve : ExampleSet → State α → Option α × State α)
    (needed : ExampleSet) : List (Entry α) → State α → Option α × State α
  | [], s => (none, s)
  | e :: entries, s =>
    let polled := { s with journal := s.journal.polled }
    if c.stop.isRaised s.journal then (none, polled)
    else
      let left := needed.without e.label
      if left.isEmpty then (some e.piece, polled)
      else if left.length = needed.length then tryEntries c solve needed entries polled
      else
        match tryGuards (solve left) e.piece (c.guards e.label) polled with
        | (some tree, s) => (some tree, s)
        | (none, s) => tryEntries c solve needed entries s

/-- Looks for a tree in which no path has more than `depth` branches. -/
def solve (c : Stitcher α) : Nat → ExampleSet → State α → Option α × State α
  | 0, _, s => (none, s)
  | depth + 1, needed, s =>
    match s.recall needed with
    | some answer => (answer, s)
    | none =>
      let (answer, s) := c.tryEntries (c.solve depth) needed c.expressions s
      (answer, c.remember needed answer s)

/-- The first tree that satisfies the needed examples. Every branch satisfies one more of
them, so no tree needs more branches than there are examples. -/
def stitch (c : Stitcher α) (needed : ExampleSet) (j : Journal) : Option α × Journal :=
  let (answer, s) := c.solve (needed.length + 1) needed { journal := j }
  (answer, s.journal)

end Stitcher

end Sygus
