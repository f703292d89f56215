import Sygus.Example
import Sygus.Fault
import Sygus.Operator

/-!
# Evaluation

A term has a 64-bit value, or a truth value, under an assignment. `Add` and
`Multiply` wrap around. Evaluation is lazy: `Ite` looks at the branch it takes,
`And` and `Or` at their second argument only if the first does not settle them.
Whatever goes wrong first is reported, an operator's number of arguments before
its arguments, and arguments from left to right. A hole that is never reached does
no harm.

A program is **valid** for a list of examples if it gives the output of each.
-/

namespace Sygus

namespace Term

mutual

/-- The integer value of a term. -/
def value (a : Assignment) : Term → Except Fault Int64
  | node (.nonTerminal name) args => .error (.incompleteTerm (node (.nonTerminal name) args))
  | node (.terminal name) args =>
    match IntOp.ofName? name, args with
    | some .ite, [condition, this, other] => do
      if ← condition.truth a then this.value a else other.value a
    | some .ite, args => .error (.arity name 3 args.length)
    | some .add, [l, r] => do return (← l.value a) + (← r.value a)
    | some .add, args => .error (.arity name 2 args.length)
    | some .multiply, [l, r] => do return (← l.value a) * (← r.value a)
    | some .multiply, args => .error (.arity name 2 args.length)
    | some (.var v), [] =>
      match a.get? v.name with
      | some n => .ok n
      | none => .error (.undefinedVariable v.name)
    | some (.var _), args => .error (.arity name 0 args.length)
    | some (.literal n), [] => .ok (Int64.ofNat n)
    | some (.literal _), args => .error (.arity name 0 args.length)
    | none, _ => .error (.unknownOperator name)

/-- The truth value of a term. -/
def truth (a : Assignment) : Term → Except Fault Bool
  | node (.nonTerminal name) args => .error (.incompleteTerm (node (.nonTerminal name) args))
  | node (.terminal name) args =>
    match BoolOp.ofName? name, args with
    | some .lt, [l, r] => do return decide ((← l.value a) < (← r.value a))
    | some .lt, args => .error (.arity name 2 args.length)
    | some .eq, [l, r] => do return decide ((← l.value a) = (← r.value a))
    | some .eq, args => .error (.arity name 2 args.length)
    | some .and, [l, r] => do if ← l.truth a then r.truth a else return false
    | some .and, args => .error (.arity name 2 args.length)
    | some .or, [l, r] => do if ← l.truth a then return true else r.truth a
    | some .or, args => .error (.arity name 2 args.length)
    | some .not, [t] => do return !(← t.truth a)
    | some .not, args => .error (.arity name 1 args.length)
    | none, _ => .error (.unknownOperator name)

end

/-- Whether the term gives the output of the example. -/
def produces (t : Term) (e : Example) : Except Fault Bool := do
  return decide ((← t.value e.input) = e.output)

/-- Whether the term holds under the input of the example. -/
def holds (t : Term) (e : Example) : Except Fault Bool := t.truth e.input

end Term

namespace Program

/-- The value of a program under an input. -/
def evaluate (p : Program) (a : Assignment) : Except Fault Int64 := p.root.value a

/-- Whether the program gives the output of every example. The first example that decides
this, by another output or by a fault, is the last one looked at. -/
def isValid (p : Program) : List Example → Except Fault Bool
  | [] => .ok true
  | e :: rest => do if ← p.root.produces e then p.isValid rest else return false

end Program

end Sygus
