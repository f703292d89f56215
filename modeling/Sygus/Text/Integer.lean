/-!
# Decimal integers

A signed 64-bit integer is read from ASCII digits with at most one sign before
them. Digits are read from the left and the first flaw is the one reported, so
a number that is too large is too large whatever follows the digit that made it so.
Integers are written without a leading zero, and with no sign but a minus.
-/

namespace Sygus.Text

/-- Why a text is no integer. -/
inductive IntegerFlaw where
  | empty
  | invalidDigit
  | tooLarge
  | tooSmall
  deriving DecidableEq, Repr

/-- The wording of a flaw. -/
def IntegerFlaw.message : IntegerFlaw → String
  | empty => "cannot parse integer from empty string"
  | invalidDigit => "invalid digit found in string"
  | tooLarge => "number too large to fit in target type"
  | tooSmall => "number too small to fit in target type"

/-- The value of an ASCII digit. -/
def digit? (c : Char) : Option Nat :=
  if '0' ≤ c ∧ c ≤ '9' then some (c.toNat - '0'.toNat) else none

/-- The integers that a reader accepts. -/
structure IntegerRange where
  least : Int
  greatest : Int
  /-- Whether a minus is a sign; if not, it is an invalid digit. -/
  signed : Bool

/-- The 64-bit integers with a sign. -/
def IntegerRange.signed64 : IntegerRange := ⟨Int64.minValue.toInt, Int64.maxValue.toInt, true⟩

/-- The 64-bit integers without a sign. -/
def IntegerRange.unsigned64 : IntegerRange := ⟨0, UInt64.size - 1, false⟩

/-- Reads the digits that follow those read as `soFar`. A minus before the digits makes each
of them count downwards, so the least integer is read without passing the greatest. -/
def readDigits (range : IntegerRange) (negative : Bool) (soFar : Int) :
    List Char → Except IntegerFlaw Int
  | [] => .ok soFar
  | c :: cs =>
    match digit? c with
    | none => .error .invalidDigit
    | some d =>
      let next := if negative then soFar * 10 - d else soFar * 10 + d
      if next < range.least then .error .tooSmall
      else if range.greatest < next then .error .tooLarge
      else readDigits range negative next cs

/-- Reads a whole text. A sign without digits is an invalid digit. -/
def readInteger (range : IntegerRange) : List Char → Except IntegerFlaw Int
  | [] => .error .empty
  | ['+'] => .error .invalidDigit
  | '+' :: digits => readDigits range false 0 digits
  | ['-'] => .error .invalidDigit
  | '-' :: digits =>
    if range.signed then readDigits range true 0 digits else .error .invalidDigit
  | digits => readDigits range false 0 digits

/-- Reads a signed 64-bit integer. -/
def readInt64 (s : List Char) : Except IntegerFlaw Int64 :=
  (readInteger .signed64 s).map Int64.ofInt

/-- The decimal digits of an integer, after a minus if it is negative. -/
def writeInteger (n : Int) : List Char :=
  if n < 0 then '-' :: Nat.toDigits 10 n.natAbs else Nat.toDigits 10 n.natAbs

/-- A 64-bit integer in decimal. -/
def writeInt64 (n : Int64) : String := String.ofList (writeInteger n.toInt)

end Sygus.Text
