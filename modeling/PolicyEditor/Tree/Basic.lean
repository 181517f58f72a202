import PolicyEditor.Token.Basic

/-!
Syntax trees. A leaf is a token; every other node has a kind, the range it covers and its children
in order. A node without children is a placeholder for something that is missing from the text.
-/

namespace PolicyEditor

/-- What a node of the tree stands for; the last group are the kinds of leaves. -/
inductive NodeKind where
  | script | packageDeclaration | importStatement | rule | ruleHead | argumentList | elseClause
  | body | statement | someDeclaration | everyExpression | negation | withModifier
  | assignExpression | setOpExpression | compareExpression | arithExpression | unaryExpression
  | parenExpression | callExpression | refExpression
  | object | objectItem | array | set | arrayComprehension | setComprehension
  | objectComprehension | error
  | identifier | keyword | number | string | rawString | operator | punctuation | comment
  | whitespace | invalid
  deriving DecidableEq, Repr

namespace NodeKind

def all : List NodeKind :=
  [.script, .packageDeclaration, .importStatement, .rule, .ruleHead, .argumentList, .elseClause,
   .body, .statement, .someDeclaration, .everyExpression, .negation, .withModifier,
   .assignExpression, .setOpExpression, .compareExpression, .arithExpression, .unaryExpression,
   .parenExpression, .callExpression, .refExpression, .object, .objectItem, .array, .set,
   .arrayComprehension, .setComprehension, .objectComprehension, .error, .identifier, .keyword,
   .number, .string, .rawString, .operator, .punctuation, .comment, .whitespace, .invalid]

theorem mem_all (k : NodeKind) : k ∈ all := by
  cases k <;> decide

def name : NodeKind → String
  | .script => "Script"
  | .packageDeclaration => "PackageDeclaration"
  | .importStatement => "ImportStatement"
  | .rule => "Rule"
  | .ruleHead => "RuleHead"
  | .argumentList => "ArgumentList"
  | .elseClause => "ElseClause"
  | .body => "Body"
  | .statement => "Statement"
  | .someDeclaration => "SomeDeclaration"
  | .everyExpression => "EveryExpression"
  | .negation => "Negation"
  | .withModifier => "WithModifier"
  | .assignExpression => "AssignExpression"
  | .setOpExpression => "SetOpExpression"
  | .compareExpression => "CompareExpression"
  | .arithExpression => "ArithExpression"
  | .unaryExpression => "UnaryExpression"
  | .parenExpression => "ParenExpression"
  | .callExpression => "CallExpression"
  | .refExpression => "RefExpression"
  | .object => "Object"
  | .objectItem => "ObjectItem"
  | .array => "Array"
  | .set => "Set"
  | .arrayComprehension => "ArrayComprehension"
  | .setComprehension => "SetComprehension"
  | .objectComprehension => "ObjectComprehension"
  | .error => "Error"
  | .identifier => "Identifier"
  | .keyword => "Keyword"
  | .number => "Number"
  | .string => "String"
  | .rawString => "RawString"
  | .operator => "Operator"
  | .punctuation => "Punctuation"
  | .comment => "LineComment"
  | .whitespace => "Whitespace"
  | .invalid => "Invalid"

def ofName? (s : String) : Option NodeKind :=
  all.find? fun k => k.name == s

def isTrivia : NodeKind → Bool
  | .whitespace | .comment => true
  | _ => false

def isComprehension : NodeKind → Bool
  | .arrayComprehension | .setComprehension | .objectComprehension => true
  | _ => false

def ofToken : Token.Kind → NodeKind
  | .keyword _ => .keyword
  | .operator _ => .operator
  | .mark _ => .punctuation
  | .identifier => .identifier
  | .number => .number
  | .string => .string
  | .rawString => .rawString
  | .whitespace => .whitespace
  | .comment => .comment
  | .invalid => .invalid

end NodeKind

inductive Tree where
  | leaf (kind : NodeKind) (token : Token)
  | node (kind : NodeKind) (start stop : Nat) (children : List Tree)

namespace Tree

def kind : Tree → NodeKind
  | .leaf k _ => k
  | .node k _ _ _ => k

def start : Tree → Nat
  | .leaf _ t => t.start
  | .node _ a _ _ => a

def stop : Tree → Nat
  | .leaf _ t => t.stop
  | .node _ _ b _ => b

def children : Tree → List Tree
  | .leaf _ _ => []
  | .node _ _ _ cs => cs

def token? : Tree → Option Token
  | .leaf _ t => some t
  | .node _ _ _ _ => none

def isLeaf (t : Tree) : Bool :=
  t.token?.isSome

def isTrivia (t : Tree) : Bool :=
  t.kind.isTrivia

def ofToken (t : Token) : Tree :=
  .leaf (NodeKind.ofToken t.kind) t

/-- The node over these children; one without children stands at the offset `here`. -/
def enclose (kind : NodeKind) (here : Nat) (children : List Tree) : Tree :=
  .node kind ((children.head?.map start).getD here) ((children.getLast?.map stop).getD here)
    children

/-- Children that grammar rules speak of: all but blanks and comments. -/
def significant (t : Tree) : List Tree :=
  t.children.filter fun c => !c.isTrivia

def childOfKind? (t : Tree) (kind : NodeKind) : Option Tree :=
  t.children.find? fun c => c.kind == kind

mutual

def leaves : Tree → List Tree
  | .leaf k t => [.leaf k t]
  | .node _ _ _ cs => leavesOfList cs

def leavesOfList : List Tree → List Tree
  | [] => []
  | c :: cs => leaves c ++ leavesOfList cs

end

mutual

def walk (above : List Tree) : Tree → List (Tree × List Tree)
  | .leaf k t => [(.leaf k t, above)]
  | .node k a b cs => (.node k a b cs, above) :: walkList (above ++ [.node k a b cs]) cs

def walkList (above : List Tree) : List Tree → List (Tree × List Tree)
  | [] => []
  | c :: cs => walk above c ++ walkList above cs

end

def ofKind (t : Tree) (kind : NodeKind) : List Tree :=
  ((t.walk []).map (·.1)).filter fun n => n.kind == kind

/-- The leaf that ends at or covers an offset, with its ancestors. A cursor right after a token
belongs to that token; at the very start of the text it belongs to the first one. -/
def leafAt (t : Tree) (offset : Int) : Option (Tree × List Tree) :=
  (t.walk []).foldl (fun best (n, above) =>
    if n.isLeaf && ((n.start < offset && offset ≤ n.stop) ||
        (n.start == offset && best.isNone)) then some (n, above) else best) none

end Tree

end PolicyEditor
