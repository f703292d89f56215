/-!
# Cutting text

Text is cut at the first occurrence of a separator, at every occurrence of a
character, or into lines. A line ends at a line feed, and a carriage return just
before the line feed belongs to the line end; text after the last line feed is a
line of its own, which keeps its carriage return.
-/

namespace Sygus.Text

/-- What stands before and after the first occurrence of `mark`, if it occurs. -/
def cut? (mark : List Char) : List Char → Option (List Char × List Char)
  | [] => if mark.isEmpty then some ([], []) else none
  | c :: cs =>
    if mark.isPrefixOf (c :: cs) then some ([], (c :: cs).drop mark.length)
    else (cut? mark cs).map fun (before, after) => (c :: before, after)

/-- The pieces between the occurrences of `mark`; there is always one more than there are
occurrences. -/
def pieces (mark : Char) : List Char → List (List Char)
  | [] => [[]]
  | c :: cs =>
    if c = mark then [] :: pieces mark cs else (pieces mark cs).modifyHead (c :: ·)

/-- A line without the carriage return of its line end. -/
def dropReturn (line : List Char) : List Char :=
  if line.getLast? = some '\r' then line.dropLast else line

/-- The lines among the pieces between line feeds: all pieces but the last were ended by a
line feed, and an empty last one is no line. -/
def linesOfPieces : List (List Char) → List (List Char)
  | [] => []
  | [last] => if last.isEmpty then [] else [last]
  | p :: ps => dropReturn p :: linesOfPieces ps

/-- The lines of a text. -/
def lines (s : List Char) : List (List Char) := linesOfPieces (pieces '\n' s)

end Sygus.Text
