import Sygus.Role

/-!
# Journals

A run keeps a journal: what it has reported, and how often it has looked whether it
should stop. Somebody else raises the flag that stops a run, at any moment, and
never lowers it again. All that a run can see of that moment is where it lies among
the things the run does, so a **stop** names it by the journal: before a certain
look at the flag, or as soon as a certain number of events has been reported.
-/

namespace Sygus

/-- What a run reports. -/
inductive Event where
  /-- Top-down search accepted its candidate number `tried`. -/
  | candidateAccepted (program : Program) (tried : Nat)
  | candidatesExhausted (tried : Nat)
  | candidatesCancelled (tried : Nat)
  /-- Constraint-based search accepted a program after it had pruned so many terms. -/
  | prunedAccepted (program : Program) (pruned : Nat)
  | prunedExhausted (pruned : Nat)
  | prunedCancelled
  /-- The solver could not tell whether a term is feasible for an example, so the term is kept. -/
  | undecided (term : Term) (e : Example)
  /-- A pool took in a program that satisfies the examples of the label. -/
  | pooled (role : Role) (program : Program) (label : ExampleSet)
  /-- The enumerator of a role gave no more programs before its pool covered the examples. -/
  | fallsShort (role : Role)
  /-- An attempt to stitch a decision tree out of so many programs. -/
  | stitching (expressions predicates : Nat)
  | found (program : Program)
  /-- A stitched program failed the examples. -/
  | refuted (program : Program)
  | stitchingCancelled
  /-- Neither pool could grow. -/
  | bothDry
  deriving DecidableEq

/-- The severity of an event. -/
inductive Level where
  | error
  | warn
  | info
  | debug
  | trace
  deriving DecidableEq, Repr

namespace Level

/-- The name of a level in the journal. -/
def name : Level → String
  | error => "ERROR"
  | warn => "WARN"
  | info => "INFO"
  | debug => "DEBUG"
  | trace => "TRACE"

/-- The most severe level has rank one. -/
def rank : Level → Nat
  | error => 1
  | warn => 2
  | info => 3
  | debug => 4
  | trace => 5

end Level

namespace Event

/-- How severe an event is. -/
def level : Event → Level
  | candidateAccepted .. | prunedAccepted .. | undecided .. | pooled .. | stitching .. => .debug
  | refuted .. => .error
  | candidatesExhausted .. | candidatesCancelled .. | prunedExhausted .. | prunedCancelled
  | fallsShort .. | found .. | stitchingCancelled | bothDry => .info

/-- The wording of an event. -/
def message : Event → String
  | candidateAccepted p tried => s!"Accepted {p} after {tried} candidates"
  | candidatesExhausted tried => s!"Top-down search space exhausted after {tried} candidates"
  | candidatesCancelled tried => s!"Top-down search cancelled after {tried} candidates"
  | prunedAccepted p pruned => s!"Accepted {p}, pruned {pruned} partial terms"
  | prunedExhausted pruned =>
    s!"Constraint-based search space exhausted, pruned {pruned} partial terms"
  | prunedCancelled => "Constraint-based search cancelled"
  | undecided t e => s!"Z3 gave up on {t} for {e}, keeping it"
  | pooled role p label => s!"Accepted {role.name} {p} for examples {label.text}"
  | fallsShort .expression => "Expressions cannot cover all examples"
  | fallsShort .predicate => "Predicates cannot cover all examples"
  | stitching expressions predicates =>
    s!"Unifying {expressions} expressions and {predicates} predicates"
  | found p => s!"Found {p}"
  | refuted p => s!"Unified program {p} fails the examples"
  | stitchingCancelled => "Divide-and-conquer search cancelled"
  | bothDry => "Both enumerators ran dry"

/-- An event as a line of the journal. -/
def text (e : Event) : String := s!"{e.level.name} {e.message}"

end Event

/-- What a run has done that others can see. -/
structure Journal where
  /-- How often the run has looked at the stop flag. -/
  polls : Nat := 0
  /-- What it has reported, in order. -/
  events : List Event := []
  deriving DecidableEq

namespace Journal

/-- The journal of a run that has not begun. -/
def empty : Journal := {}

/-- One more look at the flag. -/
def polled (j : Journal) : Journal := { j with polls := j.polls + 1 }

/-- One more event. -/
def report (j : Journal) (e : Event) : Journal := { j with events := j.events ++ [e] }

/-- More events, in order. -/
def reportAll (j : Journal) (events : List Event) : Journal :=
  { j with events := j.events ++ events }

@[simp] theorem reportAll_events (j : Journal) (events : List Event) :
    (j.reportAll events).events = j.events ++ events := rfl

@[simp] theorem reportAll_nil (j : Journal) : j.reportAll [] = j := by
  simp [reportAll]

end Journal

/-- The moment at which the stop flag is raised. -/
inductive Stop where
  | never
  /-- Before look number `n` at the flag, counted from zero. -/
  | atPoll (n : Nat)
  /-- As soon as `n` events have been reported; at zero, before the start. -/
  | atEvent (n : Nat)
  deriving DecidableEq, Repr

/-- Whether the flag is up for a run with this journal. -/
def Stop.isRaised : Stop → Journal → Bool
  | never, _ => false
  | atPoll n, j => n ≤ j.polls
  | atEvent n, j => n ≤ j.events.length

end Sygus
