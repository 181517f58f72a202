import PolicyEditor.Grammar.Item

/-!
What a bracket opens, decided by one look ahead to its closing bracket. Only tokens outside nested
brackets count, and all three kinds of bracket nest alike.
-/

namespace PolicyEditor.Grammar

structure BraceScan where
  /-- How many brackets are open. -/
  depth : Nat := 0
  colon : Bool := false
  statement : Bool := false
  content : Bool := false
  /-- The last token outside nested brackets. -/
  last : Option Token.Kind := none

def BraceScan.verdict (s : BraceScan) : NodeKind :=
  if s.colon || !s.content then .object else if s.statement then .body else .set

/-- The scan after an item outside nested brackets that neither closes the brace nor is a bar. -/
def BraceScan.note (s : BraceScan) (i : Item) : BraceScan :=
  { s with
    colon := s.colon || i.kind == .mark .colon
    statement := s.statement || marksStatement i.kind ||
      (i.newline && s.last.any endsOperand && startsOperand i.kind)
    content := true
    last := some i.kind }

/-- The scan after the brackets of an item: a closing bracket that returns to the top level is the
last token there. -/
def BraceScan.nest (s : BraceScan) (i : Item) : BraceScan :=
  if i.kind.isOpener then { s with depth := s.depth + 1 }
  else if i.kind.isCloser then
    if s.depth = 1 then { s with depth := 0, last := some i.kind }
    else { s with depth := s.depth - 1 }
  else s

/-- Scans on from a brace. A bar at the top level settles it: a comprehension, of objects when a
colon came first. -/
def BraceScan.run (s : BraceScan) : List Item → NodeKind
  | [] => s.verdict
  | i :: rest =>
    -- Inside nested brackets only the depth changes.
    if s.depth = 0 then
      if i.kind.isCloser then s.verdict
      else if i.kind = .operator .pipe then
        if s.colon then .objectComprehension else .setComprehension
      else ((s.note i).nest i).run rest
    else (s.nest i).run rest

/-- What a brace opens, given the items after it: a comprehension, an object, statements or a set.
Empty braces are an object. -/
def classifyBrace (rest : List Item) : NodeKind :=
  BraceScan.run {} rest

/-- Whether a bar stands outside nested brackets before the bracket closes. -/
def barBeforeClose : (depth : Nat) → List Item → Bool
  | _, [] => false
  | depth, i :: rest =>
    if i.kind.isOpener then barBeforeClose (depth + 1) rest
    else if i.kind.isCloser then
      match depth with
      | 0 => false
      | depth + 1 => barBeforeClose depth rest
    else if depth = 0 && i.kind == .operator .pipe then true
    else barBeforeClose depth rest

def classifyBracket (rest : List Item) : NodeKind :=
  if barBeforeClose 0 rest then .arrayComprehension else .array

def classifyAll : List Item → List (Item × NodeKind)
  | [] => []
  | i :: rest =>
    if i.kind = .mark .lbrace then (i, classifyBrace rest) :: classifyAll rest
    else if i.kind = .mark .lbracket then (i, classifyBracket rest) :: classifyAll rest
    else classifyAll rest

end PolicyEditor.Grammar
