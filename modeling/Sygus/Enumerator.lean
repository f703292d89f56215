import Sygus.Frontier
import Sygus.Journal
import Sygus.Term.Expansion

/-!
# Enumerators

An enumerator hands out the programs of one category, one at a time, in the order
in which a breadth-first walk over leftmost derivations meets them: by number of
expansion steps, then by the choices made. With a bound on depth, a partial term
that is too deep is dropped as soon as it arises.

An enumerator lives on between calls. A call that finds the stop flag raised, or
fails, has taken one term out of the frontier, and later calls go on behind it.

Whether a call ends cannot be told in advance: an infinite category may hold no
program at all. The fuel of a call bounds the number of terms that it takes, and
`none` says that the fuel ran out.
-/

namespace Sygus

/-- A breadth-first walk that can be resumed. -/
structure Enumerator where
  frontier : Frontier
  /-- Terms deeper than this are dropped. -/
  bound : Option Nat
  deriving DecidableEq

/-- What one call gave: a program, or nothing more for now, or a fault. -/
structure Pull where
  result : Except Fault (Option Program)
  rest : Enumerator
  journal : Journal

namespace Enumerator

/-- An enumerator of all programs that derive from a symbol. -/
def ofSymbol (s : Symbol) : Enumerator := ⟨.singleton (.leaf s), none⟩

/-- An enumerator of the programs of a role. -/
def ofRole (role : Role) : Enumerator := ofSymbol (.nonTerminal role.category)

/-- Sets or lifts the bound, from the present state on. -/
def withBound (e : Enumerator) (bound : Option Nat) : Enumerator := { e with bound }

/-- Queues the terms that fit the bound. -/
def enqueue (e : Enumerator) (terms : List Term) : Enumerator :=
  { e with frontier := e.frontier.append (terms.filter (·.fits e.bound)) }

/-- The next program. Each turn takes one term out of the frontier, looks at the stop flag,
and then hands the term out or queues its expansion. -/
def next (g : Grammar) (stop : Stop) : Nat → Enumerator → Journal → Option Pull
  | 0, _, _ => none
  | fuel + 1, e, j =>
    match e.frontier.pop? with
    | none => some ⟨.ok none, e, j⟩
    | some (t, frontier) =>
      let rest := { e with frontier }
      if stop.isRaised j then some ⟨.ok none, rest, j.polled⟩
      else if h : t.isComplete then some ⟨.ok (some ⟨t, h⟩), rest, j.polled⟩
      else
        match t.expand g with
        | .error fault => some ⟨.error fault, rest, j.polled⟩
        | .ok terms => next g stop fuel (rest.enqueue terms) j.polled

end Enumerator

end Sygus
