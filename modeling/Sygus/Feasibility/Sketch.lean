import Sygus.Evaluation

/-!
# Sketches

A sketch is what a partial term computes over the unbounded integers, as a formula
whose unknowns stand for the term's holes. A hole where an integer is wanted is an
unknown integer, a hole where a truth value is wanted an unknown truth value,
whatever its category and its children. Unknowns of each kind are numbered from zero
in the order in which they are met, so none occurs twice.

A sketch exists only if all operators of the term are known and have the right
number of arguments; the first fault from the left is reported. Variables and
literals are taken as they are, without a look at their children.
-/

namespace Sygus

mutual

/-- A formula for an integer. -/
inductive IntSketch where
  | unknown (index : Nat)
  | var (v : Variable)
  | literal (n : Nat)
  | ite (condition : BoolSketch) (this other : IntSketch)
  | add (l r : IntSketch)
  | multiply (l r : IntSketch)

/-- A formula for a truth value. -/
inductive BoolSketch where
  | unknown (index : Nat)
  | lt (l r : IntSketch)
  | eq (l r : IntSketch)
  | and (l r : BoolSketch)
  | or (l r : BoolSketch)
  | not (b : BoolSketch)

end

/-- How many unknowns of each kind have been met. -/
structure Numbering where
  ints : Nat := 0
  bools : Nat := 0
  deriving DecidableEq, Repr

namespace Term

/-- The next unknown integer. -/
def freshInt : StateT Numbering (Except Fault) IntSketch := fun n =>
  .ok (.unknown n.ints, { n with ints := n.ints + 1 })

/-- The next unknown truth value. -/
def freshBool : StateT Numbering (Except Fault) BoolSketch := fun n =>
  .ok (.unknown n.bools, { n with bools := n.bools + 1 })

mutual

/-- The sketch of a term where an integer is wanted. -/
def intSketch : Term → StateT Numbering (Except Fault) IntSketch
  | node (.nonTerminal _) _ => freshInt
  | node (.terminal name) args =>
    match IntOp.ofName? name, args with
    | some .ite, [condition, this, other] => do
      return .ite (← condition.boolSketch) (← this.intSketch) (← other.intSketch)
    | some .ite, args => throw (.arity name 3 args.length)
    | some .add, [l, r] => do return .add (← l.intSketch) (← r.intSketch)
    | some .add, args => throw (.arity name 2 args.length)
    | some .multiply, [l, r] => do return .multiply (← l.intSketch) (← r.intSketch)
    | some .multiply, args => throw (.arity name 2 args.length)
    | some (.var v), _ => return .var v
    | some (.literal n), _ => return .literal n
    | none, _ => throw (.unknownOperator name)

/-- The sketch of a term where a truth value is wanted. -/
def boolSketch : Term → StateT Numbering (Except Fault) BoolSketch
  | node (.nonTerminal _) _ => freshBool
  | node (.terminal name) args =>
    match BoolOp.ofName? name, args with
    | some .lt, [l, r] => do return .lt (← l.intSketch) (← r.intSketch)
    | some .lt, args => throw (.arity name 2 args.length)
    | some .eq, [l, r] => do return .eq (← l.intSketch) (← r.intSketch)
    | some .eq, args => throw (.arity name 2 args.length)
    | some .and, [l, r] => do return .and (← l.boolSketch) (← r.boolSketch)
    | some .and, args => throw (.arity name 2 args.length)
    | some .or, [l, r] => do return .or (← l.boolSketch) (← r.boolSketch)
    | some .or, args => throw (.arity name 2 args.length)
    | some .not, [b] => do return .not (← b.boolSketch)
    | some .not, args => throw (.arity name 1 args.length)
    | none, _ => throw (.unknownOperator name)

end

/-- The sketch of a whole term, its unknowns numbered from zero. -/
def sketch (t : Term) : Except Fault IntSketch := (·.1) <$> t.intSketch.run {}

end Term

/-- Values for everything that a sketch leaves open. -/
structure Filling where
  int : Nat → Int
  bool : Nat → Bool
  var : Variable → Int

mutual

/-- The integer that a sketch computes once it is filled. -/
def IntSketch.value (f : Filling) : IntSketch → Int
  | .unknown i => f.int i
  | .var v => f.var v
  | .literal n => n
  | .ite c t e => if c.value f then t.value f else e.value f
  | .add l r => l.value f + r.value f
  | .multiply l r => l.value f * r.value f

/-- The truth value that a sketch computes once it is filled. -/
def BoolSketch.value (f : Filling) : BoolSketch → Bool
  | .unknown i => f.bool i
  | .lt l r => decide (l.value f < r.value f)
  | .eq l r => decide (l.value f = r.value f)
  | .and l r => l.value f && r.value f
  | .or l r => l.value f || r.value f
  | .not b => !b.value f

end

mutual

/-- How often a variable occurs in a sketch. -/
def IntSketch.occurrences (v : Variable) : IntSketch → Nat
  | .unknown _ => 0
  | .var w => if w = v then 1 else 0
  | .literal _ => 0
  | .ite c t e => c.occurrences v + t.occurrences v + e.occurrences v
  | .add l r => l.occurrences v + r.occurrences v
  | .multiply l r => l.occurrences v + r.occurrences v

/-- How often a variable occurs in a sketch. -/
def BoolSketch.occurrences (v : Variable) : BoolSketch → Nat
  | .unknown _ => 0
  | .lt l r => l.occurrences v + r.occurrences v
  | .eq l r => l.occurrences v + r.occurrences v
  | .and l r => l.occurrences v + r.occurrences v
  | .or l r => l.occurrences v + r.occurrences v
  | .not b => b.occurrences v

end

end Sygus
