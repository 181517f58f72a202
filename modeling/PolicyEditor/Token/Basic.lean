/-!
Tokens of a policy: their kinds, and the slice of the text that each one covers.

A token keeps its characters and the offset of the first one, so its end is never stored and cannot
disagree with its text.
-/

namespace PolicyEditor

inductive Keyword where
  | packageKw | importKw | defaultKw | someKw | everyKw | ifKw | elseKw | containsKw | withKw
  | asKw | inKw | notKw | trueKw | falseKw | nullKw
  deriving DecidableEq, Repr

namespace Keyword

def all : List Keyword :=
  [.packageKw, .importKw, .defaultKw, .someKw, .everyKw, .ifKw, .elseKw, .containsKw, .withKw,
   .asKw, .inKw, .notKw, .trueKw, .falseKw, .nullKw]

theorem mem_all (w : Keyword) : w ∈ all := by
  cases w <;> decide

def text : Keyword → String
  | .packageKw => "package"
  | .importKw => "import"
  | .defaultKw => "default"
  | .someKw => "some"
  | .everyKw => "every"
  | .ifKw => "if"
  | .elseKw => "else"
  | .containsKw => "contains"
  | .withKw => "with"
  | .asKw => "as"
  | .inKw => "in"
  | .notKw => "not"
  | .trueKw => "true"
  | .falseKw => "false"
  | .nullKw => "null"

def ofChars? (name : List Char) : Option Keyword :=
  all.find? fun w => w.text.toList == name

end Keyword

inductive Operator where
  | assign | unify | eq | neq | lt | lte | gt | gte | plus | minus | star | slash | percent
  | amp | pipe | bang
  deriving DecidableEq, Repr

inductive Mark where
  | lparen | rparen | lbracket | rbracket | lbrace | rbrace | comma | dot | colon | semicolon
  deriving DecidableEq, Repr

/-- What a token is. Text that begins no token is `invalid`. -/
inductive Token.Kind where
  | keyword (word : Keyword)
  | operator (sign : Operator)
  | mark (sign : Mark)
  | identifier
  | number
  | string
  | rawString
  | whitespace
  | comment
  | invalid
  deriving DecidableEq, Repr

/-- A slice of the text with its kind; `start` is the offset of its first character. -/
structure Token where
  kind : Token.Kind
  chars : List Char
  start : Nat
  deriving DecidableEq, Repr

namespace Token

def stop (t : Token) : Nat :=
  t.start + t.chars.length

def text (t : Token) : String :=
  String.ofList t.chars

def Kind.isTrivia : Kind → Bool
  | .whitespace | .comment => true
  | _ => false

def isTrivia (t : Token) : Bool :=
  t.kind.isTrivia

def shift (n : Nat) (t : Token) : Token :=
  { t with start := n + t.start }

def Kind.isOpener : Kind → Bool
  | .mark .lparen | .mark .lbracket | .mark .lbrace => true
  | _ => false

def Kind.isCloser : Kind → Bool
  | .mark .rparen | .mark .rbracket | .mark .rbrace => true
  | _ => false

def Kind.isLiteral : Kind → Bool
  | .identifier | .number | .string | .rawString => true
  | .keyword .trueKw | .keyword .falseKw | .keyword .nullKw => true
  | _ => false

/-- Tokens that can stand where a name is expected: identifiers and reserved words. -/
def Kind.isName : Kind → Bool
  | .identifier | .keyword _ => true
  | _ => false

end Token

end PolicyEditor
