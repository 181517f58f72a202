/-!
Offsets, lines and columns. A line index knows where the lines of a text start; lines and columns
count from one, and only the newline ends a line.
-/

namespace PolicyEditor.Text

/-- The length of a text and the offsets at which its lines start, in ascending order. -/
structure LineIndex where
  length : Nat
  starts : List Nat
  deriving DecidableEq, Repr

namespace LineIndex

def startsFrom (pos : Nat) : List Char → List Nat
  | [] => []
  | c :: rest =>
    if c = '\n' then (pos + 1) :: startsFrom (pos + 1) rest else startsFrom (pos + 1) rest

def ofChars (s : List Char) : LineIndex :=
  ⟨s.length, 0 :: startsFrom 0 s⟩

variable (x : LineIndex)

def lineCount : Nat :=
  x.starts.length

def clampLine (line : Int) : Nat :=
  min (max line 1).toNat x.lineCount

def lineStart (line : Nat) : Nat :=
  (x.starts[line - 1]?).getD 0

/-- The offset just past the last character of a line, without its newline. -/
def lineEnd (line : Nat) : Nat :=
  match x.starts[line]? with
  | some next => next - 1
  | none => x.length

/-- The offset of a line and column, which are brought into the text. -/
def offset (line column : Int) : Nat :=
  let line := x.clampLine line
  min (x.lineStart line + (column - 1).toNat) (x.lineEnd line)

/-- The line and column of an offset, which is brought into the text. -/
def position (offset : Int) : Nat × Nat :=
  let offset := min offset.toNat x.length
  let line := (x.starts.takeWhile (· ≤ offset)).length
  (line, offset - x.lineStart line + 1)

end LineIndex

end PolicyEditor.Text
