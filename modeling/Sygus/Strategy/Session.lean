import Sygus.Strategy

/-!
# Sessions over strategies

A session keeps strategies in numbered slots and runs them, again and again. Each
new slot has a stop flag of its own; a copy of a slot shares the flag of the slot
that it was copied from. A flag that is raised stays up, so from then on every run
of a slot that shares it ends at once.
-/

namespace Sygus.Strategy

/-- A strategy of a session: its settings, and the number of its stop flag. -/
structure Slot where
  settings : Settings
  flag : Nat
  deriving DecidableEq, Repr

/-- The slots of a session and its flags. -/
structure Session where
  slots : List Slot := []
  /-- How many flags there are. -/
  flags : Nat := 0
  /-- The flags that have been raised. -/
  raised : List Nat := []
  deriving DecidableEq, Repr

/-- What can be done in a session. -/
inductive Session.Step where
  | create (settings : Settings)
  | copy (slot : Nat)
  | setBound (slot : Nat) (bound : Option Nat)
  | setRecalls (slot : Nat) (recalls : Bool)
  | cancel (slot : Nat)
  /-- Runs a slot, which raises its own flag after so many events. -/
  | run (slot : Nat) (problem : Problem) (stopAfter : Option Nat)

/-- What a step of a session gives. -/
inductive Session.Reply where
  | slot (number : Nat)
  | done
  /-- For each slot, whether its flag is up. -/
  | flags (up : List Bool)
  | ran (run : Run)
  | noSuchSlot

namespace Session

/-- Whether the flag of a slot is up. -/
def isRaised (s : Session) (slot : Slot) : Bool := s.raised.contains slot.flag

/-- Adds a slot at the end. -/
def addSlot (s : Session) (slot : Slot) : Session := { s with slots := s.slots ++ [slot] }

/-- Changes the settings of one slot. -/
def modify (s : Session) (number : Nat) (change : Settings → Settings) : Session :=
  { s with slots := s.slots.modify number fun slot =>
      { slot with settings := change slot.settings } }

/-- When a run of a slot is stopped. -/
def stopOf (s : Session) (slot : Slot) (stopAfter : Option Nat) : Stop :=
  if s.isRaised slot then .atPoll 0
  else
    match stopAfter with
    | none => .never
    | some n => .atEvent n

/-- One step of a session. -/
def step (fuel : Nat) (s : Session) : Step → Option (Reply × Session)
  | .create settings =>
    some (.slot s.slots.length, { s.addSlot ⟨settings, s.flags⟩ with flags := s.flags + 1 })
  | .copy number =>
    match s.slots[number]? with
    | none => some (.noSuchSlot, s)
    | some slot => some (.slot s.slots.length, s.addSlot slot)
  | .setBound number bound => some (.done, s.modify number fun c => { c with bound })
  | .setRecalls number recalls => some (.done, s.modify number fun c => { c with recalls })
  | .cancel number =>
    match s.slots[number]? with
    | none => some (.noSuchSlot, s)
    | some slot =>
      let s := { s with raised := slot.flag :: s.raised }
      some (.flags (s.slots.map s.isRaised), s)
  | .run number problem stopAfter =>
    match s.slots[number]? with
    | none => some (.noSuchSlot, s)
    | some slot => do
      let stop := s.stopOf slot stopAfter
      let run ← slot.settings.run problem stop fuel
      let s := if stop.isRaised run.journal then { s with raised := slot.flag :: s.raised } else s
      some (.ran run, s)

/-- All steps of a session in order, and what each of them gives. -/
def play (fuel : Nat) (s : Session) : List Step → Option (List Reply)
  | [] => some []
  | st :: rest => do
    let (reply, s) ← s.step fuel st
    return reply :: (← s.play fuel rest)

end Session

end Sygus.Strategy
