import Sygus.Enumerator
import Sygus.Search.Problem

/-!
# Pools

A pool collects the programs of one role that are worth combining. Each entry is
labelled with the examples it satisfies. Of all programs with the same label only
the first one is kept, and programs that satisfy no example are dropped, so a pool
over `n` examples never has more than `2 ^ n - 1` entries.
-/

namespace Sygus

/-- What a tree may be made of, and the examples that it satisfies. In a pool this is a program. -/
structure Entry (α : Type) where
  piece : α
  label : ExampleSet
  deriving DecidableEq

/-- The entries of one role, in the order in which they were accepted, and the enumerator
that the next ones come from. -/
structure Pool where
  role : Role
  source : Enumerator
  entries : List (Entry Program)
  /-- The examples that are in some label. -/
  covered : ExampleSet
  deriving DecidableEq

/-- What an attempt to grow a pool gave: whether there is a new entry, or a fault. -/
structure Growth where
  grew : Except Fault Bool
  pool : Pool
  journal : Journal

namespace Pool

/-- A pool that has not begun to grow, over programs that keep to a bound on depth. -/
def fresh (role : Role) (bound : Option Nat) : Pool :=
  ⟨role, (Enumerator.ofRole role).withBound bound, [], []⟩

/-- Whether so many examples are in some label. -/
def covers (p : Pool) (count : Nat) : Bool := p.covered.length = count

/-- Whether some entry has this label. -/
def hasLabel (p : Pool) (label : ExampleSet) : Bool := p.entries.any (·.label = label)

/-- The pool with one more entry. -/
def take (p : Pool) (program : Program) (label : ExampleSet) : Pool :=
  { p with
    entries := p.entries ++ [⟨program, label⟩]
    covered := p.covered.union label }

/-- Draws programs until one has a label that is not empty and not in the pool yet, and takes
that one in. The pool does not grow if the enumerator has nothing more to give. -/
def grow (problem : Problem) (stop : Stop) : Nat → Pool → Journal → Option Growth
  | 0, _, _ => none
  | fuel + 1, p, j => do
    let pull ← p.source.next problem.grammar stop fuel j
    let p := { p with source := pull.rest }
    match pull.result with
    | .error fault => some ⟨.error fault, p, pull.journal⟩
    | .ok none => some ⟨.ok false, p, pull.journal⟩
    | .ok (some program) =>
      match p.role.label program problem.examples with
      | .error fault => some ⟨.error fault, p, pull.journal⟩
      | .ok label =>
        if label.isEmpty || p.hasLabel label then grow problem stop fuel p pull.journal
        else
          some ⟨.ok true, p.take program label,
            pull.journal.report (.pooled p.role program label)⟩

end Pool

end Sygus
