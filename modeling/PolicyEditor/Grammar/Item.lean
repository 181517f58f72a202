import PolicyEditor.Tree.Basic

/-!
What the grammar reads: the tokens that are neither blanks nor comments, each with what the line
breaks before it mean.
-/

namespace PolicyEditor.Grammar

/-- The level of a binary operator, loosest first, and the node it makes. -/
structure Binding where
  level : Nat
  node : NodeKind
  deriving DecidableEq, Repr

def assignLevel : Nat := 1

/-- Set operators bind tighter than assignment; terms that take no assignment start here. -/
def setOpLevel : Nat := 2

def binding? : Token.Kind → Option Binding
  | .operator .assign | .operator .unify => some ⟨assignLevel, .assignExpression⟩
  | .operator .amp | .operator .pipe => some ⟨setOpLevel, .setOpExpression⟩
  | .operator .eq | .operator .neq | .operator .lt | .operator .lte | .operator .gt
  | .operator .gte | .keyword .inKw => some ⟨3, .compareExpression⟩
  | .operator .plus | .operator .minus => some ⟨4, .arithExpression⟩
  | .operator .star | .operator .slash | .operator .percent => some ⟨5, .arithExpression⟩
  | _ => none

/-- Tokens after which a line break never ends a statement. -/
def continues (k : Token.Kind) : Bool :=
  (binding? k).isSome || k.isOpener ||
    match k with
    | .operator .bang | .mark .comma | .mark .dot | .mark .colon => true
    | .keyword .ifKw | .keyword .elseKw | .keyword .containsKw | .keyword .notKw => true
    | .keyword .someKw | .keyword .everyKw | .keyword .withKw | .keyword .asKw => true
    | _ => false

/-- Tokens that never begin an operand: an operand expected here is missing. -/
def neverOperand (k : Token.Kind) : Bool :=
  k.isCloser ||
    match k with
    | .mark .comma | .mark .semicolon | .mark .colon | .operator .pipe => true
    | _ => false

def marksStatement : Token.Kind → Bool
  | .keyword .someKw | .keyword .everyKw | .keyword .notKw | .keyword .withKw => true
  | .keyword .ifKw | .keyword .defaultKw | .mark .semicolon => true
  | .operator .assign | .operator .unify => true
  | _ => false

def endsOperand (k : Token.Kind) : Bool :=
  k.isLiteral || k.isCloser

def startsOperand (k : Token.Kind) : Bool :=
  k.isLiteral || k.isOpener || k == .operator .bang

/-- A token with its line breaks: `newline` says that a line break stands before it (or nothing
does), `breaks` that this line break can end a statement. -/
structure Item where
  token : Token
  newline : Bool
  breaks : Bool
  deriving DecidableEq, Repr

def Item.kind (i : Item) : Token.Kind :=
  i.token.kind

/-- Items of a list of tokens that follows a token of kind `last` and, if `newline`, a line break
after it. -/
def itemsAfter (last : Option Token.Kind) (newline : Bool) : List Token → List Item
  | [] => []
  | t :: ts =>
    if t.isTrivia then itemsAfter last (newline || t.chars.contains '\n') ts
    else ⟨t, newline, newline && !last.any continues⟩ :: itemsAfter (some t.kind) false ts

/-- The items of a whole text; its first token counts as the first of a line. -/
def items (tokens : List Token) : List Item :=
  itemsAfter none true tokens

end PolicyEditor.Grammar
