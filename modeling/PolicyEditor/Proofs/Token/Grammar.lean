import Mathlib.Data.List.Chain
import PolicyEditor.Text.Classes
import PolicyEditor.Text.Word
import PolicyEditor.Token.Basic

/-!
The tokens of the language, told without a scanner. Every class of tokens is a set of texts, and the
token that a text begins with is the longest one of its class. `Tokenizes` says what it means that
tokens are those of a text.
-/

namespace PolicyEditor

def Operator.text : Operator → String
  | .assign => ":="
  | .unify => "="
  | .eq => "=="
  | .neq => "!="
  | .lt => "<"
  | .lte => "<="
  | .gt => ">"
  | .gte => ">="
  | .plus => "+"
  | .minus => "-"
  | .star => "*"
  | .slash => "/"
  | .percent => "%"
  | .amp => "&"
  | .pipe => "|"
  | .bang => "!"

def Mark.text : Mark → String
  | .lparen => "("
  | .rparen => ")"
  | .lbracket => "["
  | .rbracket => "]"
  | .lbrace => "\x7b"
  | .rbrace => "\x7d"
  | .comma => ","
  | .dot => "."
  | .colon => ":"
  | .semicolon => ";"

namespace Token

open PolicyEditor.Text (isBlank isDigit isNameStart)

def Run (p : Char → Bool) (s : List Char) : Prop :=
  s ≠ [] ∧ ∀ c ∈ s, p c = true

def Name (s : List Char) : Prop :=
  ∃ c rest, s = c :: rest ∧ isNameStart c = true ∧
    ∀ d ∈ rest, isNameStart d = true ∨ isDigit d = true

def Comment (s : List Char) : Prop :=
  ∃ body, s = '#' :: body ∧ '\n' ∉ body

/-- The inside of a quoted string: characters other than quotes, backslashes and line breaks, and
pairs of a backslash and any character but a line break. -/
inductive StringBody : List Char → Prop where
  | nil : StringBody []
  | plain {c : Char} {s : List Char} :
      c ≠ '"' → c ≠ '\\' → c ≠ '\n' → StringBody s → StringBody (c :: s)
  | escape {c : Char} {s : List Char} : c ≠ '\n' → StringBody s → StringBody ('\\' :: c :: s)

def Quoted (s : List Char) : Prop :=
  ∃ body, StringBody body ∧ s = '"' :: (body ++ ['"'])

def OpenQuoted (s : List Char) : Prop :=
  ∃ body, s = '"' :: body ∧ '\n' ∉ body

def RawQuoted (s : List Char) : Prop :=
  ∃ body, '`' ∉ body ∧ s = '`' :: (body ++ ['`'])

inductive Fraction : List Char → Prop where
  | none : Fraction []
  | some {ds : List Char} : Run isDigit ds → Fraction ('.' :: ds)

inductive Exponent : List Char → Prop where
  | none : Exponent []
  | unsigned {e : Char} {ds : List Char} : e = 'e' ∨ e = 'E' → Run isDigit ds → Exponent (e :: ds)
  | signed {e sign : Char} {ds : List Char} :
      e = 'e' ∨ e = 'E' → sign = '+' ∨ sign = '-' → Run isDigit ds → Exponent (e :: sign :: ds)

def Numeral (s : List Char) : Prop :=
  ∃ whole part power, Run isDigit whole ∧ Fraction part ∧ Exponent power ∧
    s = whole ++ (part ++ power)

/-- The kinds of tokens that are signs, and how they are written. -/
inductive Spells : Kind → List Char → Prop where
  | operator (sign : Operator) : Spells (.operator sign) sign.text.toList
  | mark (sign : Mark) : Spells (.mark sign) sign.text.toList

def Sign (s : List Char) : Prop :=
  ∃ k, Spells k s

/-- Of the texts with property `P` that `chars ++ rest` begins with, `chars` is the longest. -/
def Longest (P : List Char → Prop) (chars rest : List Char) : Prop :=
  P chars ∧ ∀ s, s <+: chars ++ rest → P s → s.length ≤ chars.length

/-- Characters with which no token but an invalid one begins. -/
structure Alien (c : Char) : Prop where
  blank : isBlank c = false
  digit : isDigit c = false
  name : isNameStart c = false
  comment : c ≠ '#'
  quote : c ≠ '"'
  backquote : c ≠ '`'
  sign : ∀ s, ¬ Sign (c :: s)

/-- The text `chars ++ rest` begins with the token `chars` of this kind. -/
inductive Begins : Kind → List Char → List Char → Prop where
  | whitespace {chars rest : List Char} :
      Longest (Run isBlank) chars rest → Begins .whitespace chars rest
  | comment {chars rest : List Char} : Longest Comment chars rest → Begins .comment chars rest
  | string {chars rest : List Char} : Longest Quoted chars rest → Begins .string chars rest
  /-- A quote that no other one closes on its line. -/
  | openString {chars rest : List Char} :
      Longest OpenQuoted chars rest → (∀ s, s <+: chars ++ rest → ¬ Quoted s) →
      Begins .invalid chars rest
  | rawString {chars rest : List Char} : Longest RawQuoted chars rest → Begins .rawString chars rest
  /-- A backquote that no other one closes. -/
  | openRawString {body : List Char} : '`' ∉ body → Begins .invalid ('`' :: body) []
  | number {chars rest : List Char} : Longest Numeral chars rest → Begins .number chars rest
  | keyword (word : Keyword) {rest : List Char} :
      Longest Name word.text.toList rest → Begins (.keyword word) word.text.toList rest
  | identifier {chars rest : List Char} :
      Longest Name chars rest → (∀ word : Keyword, chars ≠ word.text.toList) →
      Begins .identifier chars rest
  | sign {k : Kind} {chars rest : List Char} :
      Longest Sign chars rest → Spells k chars → Begins k chars rest
  | alien {c : Char} {rest : List Char} : Alien c → Begins .invalid [c] rest

/-- The tokens are those of the text: they stand one right after another from its beginning to its
end, none is empty, each covers its slice of the text, and each is the token with which the text
from its first character on begins. -/
structure Tokenizes (source : List Char) (ts : List Token) : Prop where
  first : ∀ t ∈ ts.head?, t.start = 0
  abut : ts.IsChain fun t u => t.stop = u.start
  last : (ts.getLast?.map stop).getD 0 = source.length
  nonempty : ∀ t ∈ ts, t.chars ≠ []
  slice : ∀ t ∈ ts, t.chars = (source.drop t.start).take t.chars.length
  begins : ∀ t ∈ ts, Begins t.kind t.chars (source.drop t.stop)

end Token

end PolicyEditor
