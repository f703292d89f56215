/-!
# Operators

What the terminals of conditional arithmetic mean. Integer operators and truth
operators are told apart by position, so a name is looked up in the table of the
position where it stands, and `Lt` is unknown where an integer is wanted.
-/

namespace Sygus

/-- The variables an input can give a value to. -/
inductive Variable where
  | x | y | z
  deriving DecidableEq, Repr

/-- The name of a variable, in terms and in inputs. -/
def Variable.name : Variable → String
  | x => "x"
  | y => "y"
  | z => "z"

/-- What a terminal means where an integer is wanted. -/
inductive IntOp where
  /-- The second argument if the first holds, else the third. -/
  | ite
  | add
  | multiply
  | var (v : Variable)
  | literal (value : Nat)
  deriving DecidableEq, Repr

/-- The integer operator of a name. -/
def IntOp.ofName? : String → Option IntOp
  | "Ite" => some ite
  | "Add" => some add
  | "Multiply" => some multiply
  | "x" => some (var .x)
  | "y" => some (var .y)
  | "z" => some (var .z)
  | "1" => some (literal 1)
  | "2" => some (literal 2)
  | "3" => some (literal 3)
  | _ => none

/-- What a terminal means where a truth value is wanted. -/
inductive BoolOp where
  | lt
  | eq
  | and
  | or
  | not
  deriving DecidableEq, Repr

/-- The truth operator of a name. -/
def BoolOp.ofName? : String → Option BoolOp
  | "Lt" => some lt
  | "Eq" => some eq
  | "And" => some and
  | "Or" => some or
  | "Not" => some not
  | _ => none

end Sygus
