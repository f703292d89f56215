import Sygus.Example
import Sygus.Text.Blank
import Sygus.Text.Cut

/-!
# Reading examples

A line `x=1, y=2 -> 3` is an example. It is cut at its first arrow. The output is
read first, then the bindings from left to right: pieces between commas, blank
ones skipped, each cut at its first `=`. Names and values are trimmed, and the last
binding of a name wins. A text holds an example on each line that is not blank.
-/

namespace Sygus.Example

/-- What is wrong with a line. -/
inductive Flaw where
  | missingArrow
  | badOutput (reason : Text.IntegerFlaw)
  /-- This piece has no `=`. -/
  | notABinding (piece : String)
  | badValue (name : String) (reason : Text.IntegerFlaw)
  deriving DecidableEq, Repr

/-- The wording of a flaw. -/
def Flaw.message : Flaw → String
  | missingArrow => "missing `->`"
  | badOutput reason => s!"bad output: {reason.message}"
  | notABinding piece => s!"expected `var=value`, got `{piece}`"
  | badValue name reason => s!"bad value for `{name}`: {reason.message}"

/-- A line that is no example, and why. -/
structure ReadError where
  line : String
  flaw : Flaw
  deriving DecidableEq, Repr

/-- The wording of an error: the whole line, and what is wrong with it. -/
def ReadError.message (e : ReadError) : String :=
  s!"failed to parse example `{e.line}`: {e.flaw.message}"

/-- Reads a trimmed piece as a binding. -/
def readBinding (piece : List Char) : Except Flaw (String × Int64) :=
  match Text.cut? ['='] piece with
  | none => .error (.notABinding (String.ofList piece))
  | some (name, value) =>
    let name := String.ofList (Text.trim name)
    match Text.readInt64 (Text.trim value) with
    | .error reason => .error (.badValue name reason)
    | .ok value => .ok (name, value)

/-- Reads the bindings of an input, one from each piece that is not blank. -/
def readInput (s : List Char) : Except Flaw (List (String × Int64)) :=
  (((Text.pieces ',' s).map Text.trim).filter (!·.isEmpty)).mapM readBinding

/-- Reads a line, and says what its first flaw is. -/
def readParts (line : List Char) : Except Flaw Example :=
  match Text.cut? ['-', '>'] line with
  | none => .error .missingArrow
  | some (input, output) =>
    match Text.readInt64 (Text.trim output) with
    | .error reason => .error (.badOutput reason)
    | .ok output =>
      match readInput input with
      | .error flaw => .error flaw
      | .ok bindings => .ok ⟨.ofList bindings, output⟩

/-- Reads one example from a line. -/
def read (line : String) : Except ReadError Example :=
  (readParts line.toList).mapError (⟨line, ·⟩)

/-- Reads an example from each line that is not blank, up to the first bad line. -/
def readAll (text : String) : Except ReadError (List Example) :=
  ((Text.lines text.toList).filter fun line => !(Text.trim line).isEmpty).mapM fun line =>
    read (String.ofList line)

end Sygus.Example
