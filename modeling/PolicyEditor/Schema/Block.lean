import PolicyEditor.Text.Classes
import PolicyEditor.Text.Lines

/-!
Marker blocks. A comment line `// ---- name ----` opens a block and a comment line of ten or more
dashes closes it; what stands between belongs to the source of that name.
-/

namespace PolicyEditor.Schema

/-- A block of a document; its two lines count from one. -/
structure Block where
  name : String
  startLine : Nat
  endLine : Nat
  deriving DecidableEq, Repr

def commentText? (line : List Char) : Option (List Char) :=
  match Text.stripStart line with
  | '/' :: '/' :: rest => some (Text.stripStart rest)
  | _ => none

def nameDashes : List Char :=
  List.replicate 4 '-'

/-- The name that a line opens a block with: what stands between `---- ` and ` ----`, which is never
empty but may be blank. -/
def openingName? (line : List Char) : Option String :=
  match commentText? line with
  | some ('-' :: '-' :: '-' :: '-' :: ' ' :: rest) =>
    match (Text.stripEnd rest).reverse with
    | '-' :: '-' :: '-' :: '-' :: ' ' :: name =>
      if name.isEmpty then none else some (String.ofList (Text.strip name.reverse))
    | _ => none
  | _ => none

def isClosing (line : List Char) : Bool :=
  match commentText? line with
  | some text =>
    let dashes := text.takeWhile (· = '-')
    10 ≤ dashes.length && (text.drop dashes.length).all Text.isBlank
  | none => false

/-- The blocks of numbered lines, given the block that is open before them. Inside a block other
opening lines mean nothing, and a block that never closes is none. -/
def blocksFrom (opened : Option (String × Nat)) (number : Nat) : List (List Char) → List Block
  | [] => []
  | line :: rest =>
    match opened with
    | none => blocksFrom ((openingName? line).map fun name => (name, number)) (number + 1) rest
    | some (name, start) =>
      if isClosing line then ⟨name, start, number⟩ :: blocksFrom none (number + 1) rest
      else blocksFrom opened (number + 1) rest

def blocks (s : List Char) : List Block :=
  blocksFrom none 1 (Text.splitLines s)

end PolicyEditor.Schema
