import Sygus.Feasibility.Solver
import Sygus.Feasibility.Values

/-!
# Deciding feasibility

The solver that the program runs. It computes the set of all integers that a sketch
can compute, and looks for the output there. A variable that the input does not bind
and that occurs only once is one more unknown.

If an unbound variable occurs several times, all occurrences have the same value, and
the set may hold more than the sketch can compute. What is not in it is ruled out all
the same. For what is in it, finitely many values of the variable are tried: those
near zero, near the numbers of the example and their differences, and near quotients
and roots of these. Failing that, the output is ruled out if the sketch never leaves
its remainder on division by some small number; else the solver gives up.
-/

namespace Sygus

/-- Fixes one more variable. -/
def Known.withVar (k : Known) (v : Variable) (n : Int) : Known :=
  { k with var := fun w => if w = v then some n else k.var w }

/-- One integer if it is known, else all of them. -/
def Values.ofKnown : Option Int → Values
  | some n => .single n
  | none => .every

mutual

/-- The integers that a sketch can compute. -/
def IntSketch.values (k : Known) : IntSketch → Values
  | .unknown i => .ofKnown (k.int i)
  | .var v => .ofKnown (k.var v)
  | .literal n => .single n
  | .ite c t e =>
    match c.outcomes k with
    | ⟨true, true⟩ => (t.values k).join (e.values k)
    | ⟨true, false⟩ => t.values k
    | ⟨false, _⟩ => e.values k
  | .add l r => (l.values k).add (r.values k)
  | .multiply l r => (l.values k).multiply (r.values k)

/-- The truth values that a sketch can compute. -/
def BoolSketch.outcomes (k : Known) : BoolSketch → Outcomes
  | .unknown _ => .either
  | .lt l r => .lt (l.values k) (r.values k)
  | .eq l r => .eq (l.values k) (r.values k)
  | .and l r => (l.outcomes k).and (r.outcomes k)
  | .or l r => (l.outcomes k).or (r.outcomes k)
  | .not b => (b.outcomes k).not

end

namespace IntSketch

/-- The variables that occur several times and are not known. -/
def shared (s : IntSketch) (k : Known) : List Variable :=
  [.x, .y, .z].filter fun v => (k.var v).isNone && 1 < s.occurrences v

/-- The integers at most `radius` away from `n`. -/
def near (n : Int) (radius : Nat) : List Int :=
  (List.range (2 * radius + 1)).map fun i => n - Int.ofNat radius + Int.ofNat i

/-- The greatest number below `2 ^ 33` whose square is at most `n`. -/
def root (n : Nat) : Nat :=
  ((List.range 33).reverse.map (Nat.pow 2)).foldl
    (fun r bit => if (r + bit) * (r + bit) ≤ n then r + bit else r) 0

/-- The divisors of `n` up to a thousand and their cofactors, with either sign. -/
def smallDivisors (n : Int) : List Int :=
  (((List.range 1000).map (Int.ofNat · + 1)).filter (n % · = 0)).flatMap fun d =>
    [d, -d, n / d, -(n / d)]

/-- The values tried for each of `count` shared variables. The more there are, the fewer values
are tried for each. -/
def candidates (output : Int) (inputs : List Int) (count : Nat) : List Int :=
  let seeds := output :: (inputs ++ inputs.map (output - ·))
  let quotients := seeds.flatMap fun n => [n, n / 2, n / 3, n / 4]
  let roots := seeds.flatMap fun n => [Int.ofNat (root n.natAbs), -Int.ofNat (root n.natAbs)]
  let derived := quotients ++ roots ++ if output = 0 then [] else smallDivisors output
  if count ≤ 1 then (near 0 256 ++ derived.flatMap (near · 3)).eraseDups
  else if count = 2 then (near 0 24 ++ derived.flatMap (near · 1)).eraseDups
  else (near 0 6 ++ output :: inputs).eraseDups

/-- Whether a sketch can compute `n` with some choice of the given values for the given
variables. -/
def canBe (s : IntSketch) (n : Int) (tried : List Int) : List Variable → Known → Bool
  | [], k => (s.values k).contains n
  | v :: vs, k => tried.any fun value => s.canBe n tried vs (k.withVar v value)

/-- The remainders that a sketch can leave on division by `m`, if those of the variables are
among the given ones. -/
def remainders (m : Nat) (k : Known) (left : Variable → List Int) : IntSketch → List Int
  | .unknown i => (k.int i).elim ((List.range m).map Int.ofNat) fun n => [n % m]
  | .var v => left v
  | .literal n => [(n : Int) % m]
  | .ite c t e =>
    match c.outcomes k with
    | ⟨true, true⟩ => (t.remainders m k left ++ e.remainders m k left).eraseDups
    | ⟨true, false⟩ => t.remainders m k left
    | ⟨false, _⟩ => e.remainders m k left
  | .add l r =>
    ((l.remainders m k left).flatMap fun i =>
      (r.remainders m k left).map fun j => (i + j) % (m : Int)).eraseDups
  | .multiply l r =>
    ((l.remainders m k left).flatMap fun i =>
      (r.remainders m k left).map fun j => i * j % (m : Int)).eraseDups

/-- Whether a sketch can leave the remainder of `n` on division by `m`, with some remainder for
each of the given variables. -/
def canLeave (s : IntSketch) (n : Int) (m : Nat) (k : Known) :
    List Variable → (Variable → List Int) → Bool
  | [], left => (s.remainders m k left).contains (n % m)
  | v :: vs, left =>
    (List.range m).any fun r => s.canLeave n m k vs fun w => if w = v then [Int.ofNat r] else left w

/-- The remainders of a variable, as far as it is known. -/
def varRemainders (m : Nat) (k : Known) (v : Variable) : List Int :=
  (k.var v).elim ((List.range m).map Int.ofNat) fun n => [n % m]

/-- The divisors by which remainders are taken. -/
def moduli : List Nat := [2, 3, 4, 5, 7, 8, 9]

end IntSketch

/-- The solver that the program runs. -/
def Solver.builtIn : Solver := fun s e =>
  let k := Known.ofInput e.input
  let output := e.output.toInt
  let inputs := e.input.entries.map (·.2.toInt)
  let shared := s.shared k
  if (s.values k).excludes output then .unsat
  else if s.canBe output (IntSketch.candidates output inputs shared.length) shared k then .sat
  else if !shared.isEmpty && IntSketch.moduli.any fun m =>
      !s.canLeave output m k shared (IntSketch.varRemainders m k) then .unsat
  else .unknown

/-- Whether the program keeps a partial term: its solver rules out the term for no example. -/
def Term.isFeasible (examples : List Example) (t : Term) : Except Fault Bool :=
  t.isFeasibleBy .builtIn examples

end Sygus
