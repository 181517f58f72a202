import PolicyEditor.Grammar.Bracket

/-!
Pieces that every grammar rule is built from: what ends an expression, single leaves, placeholders
for what is missing, lists of items between commas, and the tails of references and operators.

A rule reads a list of items and gives the nodes it made together with the items that remain. It
never fails: a token that fits nowhere is wrapped in an `error` node, and a missing piece becomes an
`error` node without children.
-/

namespace PolicyEditor.Grammar

/-- Where an expression stands: whether a line break ends it, whether a bar ends it, and the offset
of the end of the text, where pieces missing at the end are placed. -/
structure Scope where
  lines : Bool
  bars : Bool
  eof : Nat
  deriving DecidableEq, Repr

namespace Scope

/-- In a statement or at the top level: a line break ends an expression. -/
def statement (s : Scope) : Scope :=
  { s with lines := true, bars := false }

def bracketed (s : Scope) : Scope :=
  { s with lines := false, bars := false }

def head (s : Scope) : Scope :=
  { s with lines := false, bars := true }

def stops (s : Scope) (i : Item) : Bool :=
  s.lines && i.breaks

def here (s : Scope) : List Item → Nat
  | [] => s.eof
  | i :: _ => i.token.start

end Scope

/-- What an expression rule gives: one node and the items that remain. -/
abbrev Parsed := Tree × List Item

/-- What the other rules give: nodes in order and the items that remain. -/
abbrev ParsedList := List Tree × List Item

abbrev ExprParser := Scope → (level : Nat) → List Item → Parsed

def Item.leaf (i : Item) : Tree :=
  Tree.ofToken i.token

def Item.nameLeaf (i : Item) : Tree :=
  .leaf .identifier i.token

def missing (s : Scope) (ts : List Item) : Tree :=
  .enclose .error (s.here ts) []

def misplaced (s : Scope) (is : List Item) : Tree :=
  .enclose .error (s.here is) (is.map Item.leaf)

def expect (kind : Token.Kind) (s : Scope) : List Item → Parsed
  | [] => (missing s [], [])
  | i :: rest => if i.kind = kind then (i.leaf, rest) else (missing s (i :: rest), i :: rest)

/-- Reads what `one` reads, again and again with commas between, up to a closing bracket; a comma
may stand last. The first argument bounds the number of rounds: each takes a comma, so the number of
items is enough. -/
def separated (one : List Item → Parsed) (closer : Token.Kind) :
    (rounds : Nat) → List Item → ParsedList
  | 0, ts => ([], ts)
  | _, [] => ([], [])
  | rounds + 1, i :: rest =>
    -- The closing bracket is left to the caller.
    if i.kind = closer then ([], i :: rest)
    else
      let (node, after) := one (i :: rest)
      -- Whatever is no comma ends the list.
      match after with
      | [] => ([node], [])
      | j :: next =>
        if j.kind = .mark .comma then
          let (more, last) := separated one closer rounds next
          (node :: j.leaf :: more, last)
        else ([node], j :: next)

/-- Reads one term after another with commas between; a comma is always followed by a term. -/
def terms (one : List Item → Parsed) : (rounds : Nat) → List Item → ParsedList
  | 0, ts => ([], ts)
  | rounds + 1, ts =>
    let (node, after) := one ts
    match after with
    | [] => ([node], [])
    | j :: next =>
      if j.kind = .mark .comma then
        let (more, last) := terms one rounds next
        (node :: j.leaf :: more, last)
      else ([node], j :: next)

def arguments (expr : ExprParser) (s : Scope) (opener : Item) (rest : List Item) : Parsed :=
  let (args, after) := separated (expr s.bracketed assignLevel) (.mark .rparen) rest.length rest
  let (closer, last) := expect (.mark .rparen) s after
  (.enclose .argumentList (s.here last) (opener.leaf :: args ++ [closer]), last)

def index (expr : ExprParser) (s : Scope) (opener : Item) (rest : List Item) : ParsedList :=
  let (value, after) := expr s.bracketed assignLevel rest
  let (closer, last) := expect (.mark .rbracket) s after
  ([opener.leaf, value, closer], last)

/-- Reads what follows an operand: names after dots, indexes and arguments. The first argument
bounds the number of rounds. -/
def references (expr : ExprParser) (s : Scope) : (rounds : Nat) → Tree → List Item → Parsed
  | 0, base, ts => (base, ts)
  | _, base, [] => (base, [])
  | rounds + 1, base, i :: rest =>
    if s.stops i then (base, i :: rest)
    else
      match i.kind with
      | .mark .dot =>
        -- A name on the next line belongs to something else.
        let (name, after) :=
          match rest with
          | j :: next =>
            if j.kind.isName && !j.newline then (j.nameLeaf, next) else (missing s rest, rest)
          | [] => (missing s [], [])
        references expr s rounds
          (.enclose .refExpression (s.here after) [base, i.leaf, name]) after
      | .mark .lbracket =>
        let (parts, after) := index expr s i rest
        references expr s rounds
          (.enclose .refExpression (s.here after) (base :: parts)) after
      | .mark .lparen =>
        let (args, after) := arguments expr s i rest
        references expr s rounds (.enclose .callExpression (s.here after) [base, args]) after
      | _ => (base, i :: rest)

def unaryWith (operand : List Item → Parsed) (s : Scope) : List Item → Parsed
  | [] => operand []
  | i :: rest =>
    if (i.kind = .operator .minus || i.kind == .operator .bang) && !s.stops i then
      let (node, after) := unaryWith operand s rest
      (.enclose .unaryExpression (s.here after) [i.leaf, node], after)
    else operand (i :: rest)

/-- Reads operators with their right operands, each wrapping what came before it. The first argument
bounds the number of rounds. -/
def binaryTail (expr : ExprParser) (s : Scope) (level : Nat) :
    (rounds : Nat) → Tree → List Item → Parsed
  | 0, left, ts => (left, ts)
  | _, left, [] => (left, [])
  | rounds + 1, left, i :: rest =>
    match binding? i.kind with
    | none => (left, i :: rest)
    | some b =>
      if b.level < level || (i.kind == .operator .pipe && s.bars) || s.stops i then
        (left, i :: rest)
      else
        -- Operators of one level group to the left.
        let (right, after) := expr s (b.level + 1) rest
        binaryTail expr s level rounds (.enclose b.node (s.here after) [left, i.leaf, right]) after

end PolicyEditor.Grammar
