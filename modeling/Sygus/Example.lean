import Sygus.Assignment
import Sygus.Text.Integer

/-!
# Examples

An example asks for one output under one input. A list of examples is the whole
specification of a program.
-/

namespace Sygus

/-- The output a program has to give under an input. -/
structure Example where
  input : Assignment
  output : Int64
  deriving DecidableEq

namespace Example

/-- One binding of an input. -/
def bindingText (e : String × Int64) : String := e.1 ++ "=" ++ Text.writeInt64 e.2

/-- The bindings `x=1` of an input, separated by `, `. -/
def inputText : List (String × Int64) → String
  | [] => ""
  | [e] => bindingText e
  | e :: rest => bindingText e ++ ", " ++ inputText rest

/-- An example is written `x=1, y=2 -> 3`, its names in ascending order. -/
def text (e : Example) : String :=
  inputText e.input.entries ++ " -> " ++ Text.writeInt64 e.output

instance : ToString Example := ⟨text⟩

end Example

end Sygus
