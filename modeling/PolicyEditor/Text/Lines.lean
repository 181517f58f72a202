/-!
Lines of a text, in two senses: lines that any line break ends, for texts read line by line, and
lines that only the newline ends, for positions.
-/

namespace PolicyEditor.Text

def isLineBreak (c : Char) : Bool :=
  c == '\n' || c == '\r' || c == '\x0B' || c == '\x0C' || c == '\x1C' || c == '\x1D' ||
    c == '\x1E' || c == '\x85' || c == '\u2028' || c == '\u2029'

/-- Lines of a text whose first line begins with the reversed `current`. A carriage return and a
newline after it are one line break; the last line may lack its own. -/
def splitLinesFrom (current : List Char) : List Char → List (List Char)
  | [] => if current.isEmpty then [] else [current.reverse]
  | '\r' :: '\n' :: rest => current.reverse :: splitLinesFrom [] rest
  | c :: rest =>
    if isLineBreak c then current.reverse :: splitLinesFrom [] rest
    else splitLinesFrom (c :: current) rest

def splitLines (s : List Char) : List (List Char) :=
  splitLinesFrom [] s

/-- The text with a newline in place of every carriage return, with or without a newline after it.
-/
def unifyNewlines : List Char → List Char
  | [] => []
  | '\r' :: '\n' :: rest => '\n' :: unifyNewlines rest
  | '\r' :: rest => '\n' :: unifyNewlines rest
  | c :: rest => c :: unifyNewlines rest

end PolicyEditor.Text
