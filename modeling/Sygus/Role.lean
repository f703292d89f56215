import Sygus.Evaluation

/-!
# Roles

A decision tree is made of expressions, which give the outputs, and predicates,
which choose among them. The two roles differ in the category that their programs
come from and in what it means for a program to satisfy an example.
-/

namespace Sygus

/-- The numbers of the examples that a program satisfies, in ascending order. -/
abbrev ExampleSet := List Nat

namespace ExampleSet

/-- What is left of a set without the members of another one. -/
def without (s t : ExampleSet) : ExampleSet := s.filter fun i => !t.contains i

/-- The set with one more member, in its place. -/
def insert (i : Nat) : ExampleSet → ExampleSet
  | [] => [i]
  | j :: s => if i < j then i :: j :: s else if i = j then j :: s else j :: insert i s

/-- The members of either set. -/
def union (s t : ExampleSet) : ExampleSet := t.foldl (fun u i => insert i u) s

/-- A set is written `{0, 1}`. -/
def text (s : ExampleSet) : String :=
  "\x7b" ++ ", ".intercalate (s.map toString) ++ "\x7d"

end ExampleSet

/-- What a program does in a decision tree. -/
inductive Role where
  | expression
  | predicate
  deriving DecidableEq, Repr

namespace Role

/-- The name of a role in the journal. -/
def name : Role → String
  | expression => "Expr"
  | predicate => "Pred"

/-- The category that the programs of a role belong to. -/
def category : Role → String
  | expression => "E"
  | predicate => "B"

/-- An expression satisfies the examples whose output it gives, a predicate those under whose
input it holds. -/
def satisfies : Role → Program → Example → Except Fault Bool
  | expression, p, e => p.root.produces e
  | predicate, p, e => p.root.holds e

/-- The numbers of the examples of a list that the program satisfies, the first one having
number `first`. The first fault ends the evaluation. -/
def labelFrom (role : Role) (p : Program) (first : Nat) :
    List Example → Except Fault ExampleSet
  | [] => .ok []
  | e :: rest => do
    if ← role.satisfies p e then return first :: (← role.labelFrom p (first + 1) rest)
    else role.labelFrom p (first + 1) rest

/-- The examples that the program satisfies, numbered from zero. -/
def label (role : Role) (p : Program) (examples : List Example) : Except Fault ExampleSet :=
  role.labelFrom p 0 examples

end Role

end Sygus
