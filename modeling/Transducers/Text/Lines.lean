/-!
# Lines of a text

A line ends at a line feed, which does not belong to it, nor does one carriage
return before it.  After the last line feed there is only a line if there is text.
-/

namespace Transducers

/-- A finished line, given backwards, without the carriage return at its end. -/
def finishLine : List Char → List Char
  | '\r' :: reversed => reversed.reverse
  | reversed => reversed.reverse

/-- The lines of a text whose first characters were read and are given backwards. -/
def linesAfter (reversed : List Char) : List Char → List (List Char)
  | [] => if reversed.isEmpty then [] else [reversed.reverse]
  | c :: rest =>
    if c = '\n' then finishLine reversed :: linesAfter [] rest
    else linesAfter (c :: reversed) rest

def lines (s : String) : List String := (linesAfter [] s.toList).map .ofList

/-- The text on one line, bars in the place of line breaks. -/
def inlined (s : String) : String := " | ".intercalate (lines s)

end Transducers
