import PolicyEditor.Tree.Basic

/-!
Highlighting: each token but white space gets a style, and an identifier's style depends on where in
the tree it stands. It may name a rule, a package or import, a function that is called or the
namespace of one; anywhere else it is a variable.
-/

namespace PolicyEditor.Highlight

inductive Style where
  | keyword | controlKeyword | bool | null | number | string | specialString | variable
  | functionDefinition | functionCall | namespaceName | comment | operator | paren
  | squareBracket | brace | derefOperator | separator | invalid
  deriving DecidableEq, Repr

def Style.name : Style → String
  | .keyword => "keyword"
  | .controlKeyword => "controlKeyword"
  | .bool => "bool"
  | .null => "null"
  | .number => "number"
  | .string => "string"
  | .specialString => "string.special"
  | .variable => "variableName"
  | .functionDefinition => "function.definition"
  | .functionCall => "function.call"
  | .namespaceName => "namespace"
  | .comment => "comment"
  | .operator => "operator"
  | .paren => "paren"
  | .squareBracket => "squareBracket"
  | .brace => "brace"
  | .derefOperator => "derefOperator"
  | .separator => "separator"
  | .invalid => "invalid"

structure Span where
  start : Nat
  stop : Nat
  style : Style
  deriving DecidableEq, Repr

inductive Role where
  /-- In a rule's head, on its dotted name. -/
  | definition
  /-- What a call calls. -/
  | callee
  /-- On the dotted name of what a call calls, but not the name that is called. -/
  | qualifier
  /-- Anything else. -/
  | plain
  deriving DecidableEq, Repr

/-- What a leaf needs to know of the nodes above it. -/
structure Place where
  role : Role
  /-- Within a package or import. -/
  declared : Bool
  /-- Directly within a comprehension. -/
  comprehension : Bool
  deriving DecidableEq, Repr

def keywordStyle : Keyword → Style
  | .trueKw | .falseKw => .bool
  | .nullKw => .null
  | .packageKw | .importKw | .defaultKw => .keyword
  | _ => .controlKeyword

def markStyle : Mark → Style
  | .lparen | .rparen => .paren
  | .lbracket | .rbracket => .squareBracket
  | .lbrace | .rbrace => .brace
  | .dot => .derefOperator
  | .comma | .semicolon | .colon => .separator

def identifierStyle (place : Place) : Style :=
  match place.role with
  | .definition => .functionDefinition
  | role =>
    -- Within a package or import all names are parts of its path.
    if place.declared then .namespaceName
    else
      match role with
      | .callee => .functionCall
      | .qualifier => .namespaceName
      | _ => .variable

def leafStyle? (place : Place) (kind : NodeKind) (token : Token) : Option Style :=
  match kind with
  | .identifier => some (identifierStyle place)
  | .number => some .number
  | .string => some .string
  | .rawString => some .specialString
  | .comment => some .comment
  | .invalid => some .invalid
  | .keyword | .operator | .punctuation =>
    match token.kind with
    | .keyword word => some (keywordStyle word)
    | .operator .pipe => some (if place.comprehension then .separator else .operator)
    | .operator _ => some .operator
    | .mark sign => some (markStyle sign)
    | _ => none
  | _ => none

def isDot (t : Tree) : Bool :=
  match t.token? with
  | some token => token.kind == .mark .dot
  | none => false

/-- What is known of the children to the left of one, blanks and comments left out. -/
structure Left where
  first : Bool
  afterDot : Bool

/-- Whether a child is on the dotted name of its parent: the first one or right after a dot. -/
def Left.onName (l : Left) : Bool :=
  l.first || l.afterDot

def Left.pass (l : Left) (c : Tree) : Left :=
  if c.isTrivia then l else ⟨false, isDot c⟩

/-- The role of a child, from its parent's kind and role and where among the children it stands;
`last` says that nothing but blanks and comments follows. -/
def childRole (parent : NodeKind) (role : Role) (left : Left) (last leaf : Bool) : Role :=
  match parent with
  | .ruleHead => if left.onName && leaf then .definition else .plain
  | .callExpression => if left.first then .callee else .plain
  | .refExpression =>
    if left.onName then
      match role with
      -- Only the last part of a dotted name is called; the parts before it lead there.
      | .callee => if last && leaf then .callee else .qualifier
      | .qualifier => .qualifier
      | _ => .plain
    else .plain
  | _ => .plain

def childPlace (parent : NodeKind) (place : Place) (left : Left) (last leaf : Bool) : Place where
  role := childRole parent place.role left last leaf
  declared := place.declared || parent == .packageDeclaration || parent == .importStatement
  comprehension := parent.isComprehension

mutual

def spansAt (place : Place) : Tree → List Span
  | .leaf kind token =>
    match leafStyle? place kind token with
    | some style => [⟨token.start, token.stop, style⟩]
    | none => []
  | .node kind _ _ cs => spansOfList kind place ⟨true, false⟩ cs

def spansOfList (parent : NodeKind) (place : Place) (left : Left) : List Tree → List Span
  | [] => []
  | c :: cs =>
    spansAt (childPlace parent place left (cs.all Tree.isTrivia) c.isLeaf) c ++
      spansOfList parent place (left.pass c) cs

end

def spans (t : Tree) : List Span :=
  spansAt ⟨.plain, false, false⟩ t

end PolicyEditor.Highlight
