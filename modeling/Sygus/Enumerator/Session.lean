import Sygus.Enumerator

/-!
# Sessions over enumerators

A session keeps enumerators over one grammar in numbered slots, and stop tokens
beside them. A token stands for a flag; copies of a token stand for the same flag.
A new enumerator has a flag of its own until it is given a token.
-/

namespace Sygus.Enumerator

/-- An enumerator of a session and the number of its stop flag. -/
structure Slot where
  enumerator : Enumerator
  flag : Nat
  deriving DecidableEq

/-- The slots, tokens and flags of a session. -/
structure Session where
  slots : List Slot := []
  /-- For each token the flag that it stands for. -/
  tokens : List Nat := []
  /-- How many flags there are. -/
  flags : Nat := 0
  /-- The flags that have been raised. -/
  raised : List Nat := []
  deriving DecidableEq

/-- What can be done in a session. -/
inductive Session.Step where
  | createToken
  | copyToken (token : Nat)
  | cancel (token : Nat)
  | create (start : Symbol)
  | setBound (slot : Nat) (bound : Option Nat)
  | setToken (slot token : Nat)
  /-- Asks a slot for up to `count` programs. -/
  | next (slot count : Nat)

/-- What a step of a session gives. -/
inductive Session.Reply where
  | token (number : Nat)
  | slot (number : Nat)
  | done
  /-- For each token, whether its flag is up. -/
  | flags (up : List Bool)
  | pulled (results : List (Except Fault (Option Program)))
  | noSuchNumber

/-- Asks for up to `count` programs. What is no program is the last result. -/
def pull (g : Grammar) (stop : Stop) (fuel : Nat) :
    Nat → Enumerator → Option (List (Except Fault (Option Program)) × Enumerator)
  | 0, e => some ([], e)
  | count + 1, e => do
    let pull ← e.next g stop fuel .empty
    match pull.result with
    | .ok (some p) =>
      let (results, e) ← Enumerator.pull g stop fuel count pull.rest
      some (.ok (some p) :: results, e)
    | result => some ([result], pull.rest)

namespace Session

/-- Whether a flag is up. -/
def isRaised (s : Session) (flag : Nat) : Bool := s.raised.contains flag

/-- One step of a session. -/
def step (g : Grammar) (fuel : Nat) (s : Session) : Step → Option (Reply × Session)
  | .createToken =>
    some (.token s.tokens.length,
      { s with tokens := s.tokens ++ [s.flags], flags := s.flags + 1 })
  | .copyToken number =>
    match s.tokens[number]? with
    | none => some (.noSuchNumber, s)
    | some flag => some (.token s.tokens.length, { s with tokens := s.tokens ++ [flag] })
  | .cancel number =>
    match s.tokens[number]? with
    | none => some (.noSuchNumber, s)
    | some flag =>
      let s := { s with raised := flag :: s.raised }
      some (.flags (s.tokens.map s.isRaised), s)
  | .create start =>
    some (.slot s.slots.length,
      { s with slots := s.slots ++ [⟨.ofSymbol start, s.flags⟩], flags := s.flags + 1 })
  | .setBound number bound =>
    some (.done, { s with slots := s.slots.modify number fun slot =>
      { slot with enumerator := slot.enumerator.withBound bound } })
  | .setToken number token =>
    match s.tokens[token]? with
    | none => some (.noSuchNumber, s)
    | some flag =>
      some (.done, { s with slots := s.slots.modify number fun slot => { slot with flag } })
  | .next number count =>
    match s.slots[number]? with
    | none => some (.noSuchNumber, s)
    | some slot => do
      let stop := if s.isRaised slot.flag then .atPoll 0 else .never
      let (results, e) ← slot.enumerator.pull g stop fuel count
      some (.pulled results, { s with slots := s.slots.set number { slot with enumerator := e } })

/-- All steps of a session in order, and what each of them gives. -/
def play (g : Grammar) (fuel : Nat) (s : Session) : List Step → Option (List Reply)
  | [] => some []
  | st :: rest => do
    let (reply, s) ← s.step g fuel st
    return reply :: (← s.play g fuel rest)

end Session

end Sygus.Enumerator
