import Sygus.Feasibility.Divisors

/-!
# Sets of values

What a sketch can compute when its unknowns range over all integers. A set is
**finite**, and then listed, or it is unbounded in both directions: an arithmetic
progression, or a union, a sum or a product of sets that has no simpler form. Since
no unknown occurs twice in a sketch, operands vary independently, and the set of a
sum is the sum of the sets.

Membership is decided by division: in `a * b`, a number other than zero splits into
a divisor and its cofactor, and there are finitely many ways to do so. Only a sum
of two infinite sets, at least one of them a proper product, has infinitely many ways
to split; there the search is limited to a window, and what it does not find is left
open. A term with all its variables bound never makes such a sum, because what stands
beside its leftmost hole is either a single value or a hole that can be anything.
-/

namespace Sygus

/-- A set of integers. -/
inductive Values where
  /-- Finitely many. -/
  | only (members : List Int)
  /-- `start + step * k` for all integers `k`. -/
  | progression (step : Nat) (start : Int)
  /-- Everything in one set or the other. -/
  | union (a b : Values)
  /-- All sums of a member of each. -/
  | sum (a b : Values)
  /-- All products of a member of each. -/
  | product (a b : Values)
  deriving DecidableEq, Repr

namespace Values

/-- All integers. -/
def every : Values := progression 1 0

/-- One integer. -/
def single (n : Int) : Values := only [n]

/-- The members of a finite set. -/
def finite? : Values → Option (List Int)
  | only members => some members
  | _ => none

/-- What membership means, said without computing. -/
def Mem : Values → Int → Prop
  | only members, n => n ∈ members
  | progression step start, n => ∃ k : Int, n = start + step * k
  | union a b, n => a.Mem n ∨ b.Mem n
  | sum a b, n => ∃ i j, a.Mem i ∧ b.Mem j ∧ n = i + j
  | product a b, n => ∃ i j, a.Mem i ∧ b.Mem j ∧ n = i * j

/-- The integers tried as one side of a sum of two infinite sets. -/
def window : List Int := (List.range 129).map fun n => Int.ofNat n - 64

/-- Whether a number is a member. -/
def contains : Values → Int → Bool
  | only members, n => members.contains n
  | progression step start, n => (n - start) % (step : Int) = 0
  | union a b, n => a.contains n || b.contains n
  | sum a b, n =>
    match a.finite?, b.finite? with
    | some members, _ => members.any fun i => b.contains (n - i)
    | none, some members => members.any fun j => a.contains (n - j)
    | none, none => window.any fun i => a.contains i && b.contains (n - i)
  | product a b, n =>
    match a.finite?, b.finite? with
    | some members, _ =>
      members.any fun i => if i = 0 then n = 0 else n % i = 0 && b.contains (n / i)
    | none, some members =>
      members.any fun j => if j = 0 then n = 0 else n % j = 0 && a.contains (n / j)
    | none, none =>
      if n = 0 then a.contains 0 || b.contains 0
      else
        [1, -1, n, -n].any (fun i => a.contains i && b.contains (n / i)) ||
          (integerDivisors n).any fun i => a.contains i && b.contains (n / i)

/-- No sum in it has two infinite sides, and no set in it is empty. -/
def Tidy : Values → Prop
  | only members => members ≠ []
  | progression _ _ => True
  | union a b => a.Tidy ∧ b.Tidy
  | sum a b => (a.finite?.isSome = true ∨ b.finite?.isSome = true) ∧ a.Tidy ∧ b.Tidy
  | product a b => a.Tidy ∧ b.Tidy

instance decidableTidy : (v : Values) → Decidable v.Tidy
  | only members => inferInstanceAs (Decidable (members ≠ []))
  | progression _ _ => inferInstanceAs (Decidable True)
  | union a b => @instDecidableAnd _ _ (decidableTidy a) (decidableTidy b)
  | sum a b =>
    @instDecidableAnd _ _
      (inferInstanceAs (Decidable (a.finite?.isSome = true ∨ b.finite?.isSome = true)))
      (@instDecidableAnd _ _ (decidableTidy a) (decidableTidy b))
  | product a b => @instDecidableAnd _ _ (decidableTidy a) (decidableTidy b)

/-- Whether a number is certainly no member. In a set that is not tidy, one that has not been
found may still be there. -/
def excludes (v : Values) (n : Int) : Bool := v.Tidy && !v.contains n

/-- The set of members of either set. -/
def join : Values → Values → Values
  | only a, only b => only (a ++ b).eraseDups
  | progression 1 _, _ => every
  | _, progression 1 _ => every
  | a, b => union a b

/-- The set of sums. Progressions add up to a progression. -/
def add : Values → Values → Values
  | only a, only b => only (a.flatMap fun i => b.map (i + ·)).eraseDups
  | progression 1 _, _ => every
  | _, progression 1 _ => every
  | only [i], progression step start => progression step (i + start)
  | progression step start, only [i] => progression step (start + i)
  | progression m i, progression n j => progression (m.gcd n) (i + j)
  | a, b => sum a b

/-- The multiples of the members of a progression. What all members have in common is taken
out; if one or minus one is left among them, every multiple of the common factor arises. -/
def multiplesOf (step : Nat) (start : Int) : Values :=
  let common := step.gcd start.natAbs
  let reduced := progression (step / common) (start / common)
  if reduced.contains 1 || reduced.contains (-1) then progression common 0
  else product (progression step start) every

/-- The set of products. -/
def multiply : Values → Values → Values
  | only a, only b => only (a.flatMap fun i => b.map (i * ·)).eraseDups
  | only [i], progression step start =>
    if i = 0 then single 0 else progression (i.natAbs * step) (i * start)
  | progression step start, only [i] =>
    if i = 0 then single 0 else progression (step * i.natAbs) (start * i)
  | only [i], b => if i = 0 then single 0 else product (only [i]) b
  | a, only [i] => if i = 0 then single 0 else product a (only [i])
  | progression step start, progression 1 _ => multiplesOf step start
  | progression 1 _, progression step start => multiplesOf step start
  | a, b => product a b

end Values

/-- The truth values that a sketch can compute. -/
structure Outcomes where
  canHold : Bool
  canFail : Bool
  deriving DecidableEq, Repr

namespace Outcomes

/-- Both truth values. -/
def either : Outcomes := ⟨true, true⟩

def and (a b : Outcomes) : Outcomes := ⟨a.canHold && b.canHold, a.canFail || b.canFail⟩

def or (a b : Outcomes) : Outcomes := ⟨a.canHold || b.canHold, a.canFail && b.canFail⟩

def not (a : Outcomes) : Outcomes := ⟨a.canFail, a.canHold⟩

/-- Comparison of a member of one set with a member of another. A set that is not finite has
members on either side of any number. -/
def lt (a b : Values) : Outcomes :=
  match a.finite?, b.finite? with
  | some is, some js =>
    ⟨is.any fun i => js.any fun j => decide (i < j),
      is.any fun i => js.any fun j => decide (j ≤ i)⟩
  | _, _ => either

/-- Equality of a member of one set with a member of another. It can hold unless that is
certainly excluded. -/
def eq (a b : Values) : Outcomes :=
  match a.finite?, b.finite? with
  | some is, some js =>
    ⟨is.any fun i => js.any fun j => i == j, is.any fun i => js.any fun j => i != j⟩
  | some is, none => ⟨is.any (!b.excludes ·), true⟩
  | none, some js => ⟨js.any (!a.excludes ·), true⟩
  | none, none => ⟨!(a.add (b.multiply (.single (-1)))).excludes 0, true⟩

end Outcomes

end Sygus
