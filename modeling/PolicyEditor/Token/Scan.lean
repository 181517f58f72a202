import PolicyEditor.Text.Classes
import PolicyEditor.Text.Word
import PolicyEditor.Token.Basic

/-!
Splitting a text into tokens. Scanning is total: every character ends up in exactly one token, and
text that begins no token of the language becomes an `invalid` one.

`reach c rest` says what the token beginning with `c` is and how many characters of `rest` belong to
it. The scan then walks the text once.
-/

namespace PolicyEditor.Token

open PolicyEditor.Text (isBlank isDigit isNameStart)

def runLength (p : Char → Bool) (s : List Char) : Nat :=
  (s.takeWhile p).length

def isIdentifierChar (c : Char) : Bool :=
  isNameStart c || isDigit c

/-- How far a quoted string goes after its opening quote, and whether a closing quote ends it. A
backslash takes the next character with it; a line break or the end of the text ends the string, and
a backslash before either still belongs to it. -/
def stringReach : List Char → Nat × Bool
  | [] => (0, false)
  | '"' :: _ => (1, true)
  | '\n' :: _ => (0, false)
  | ['\\'] => (1, false)
  | '\\' :: '\n' :: _ => (1, false)
  | '\\' :: _ :: rest => ((stringReach rest).1 + 2, (stringReach rest).2)
  | _ :: rest => ((stringReach rest).1 + 1, (stringReach rest).2)

def fractionLength : List Char → Nat
  | '.' :: d :: rest => if isDigit d then 2 + runLength isDigit rest else 0
  | _ => 0

def exponentLength : List Char → Nat
  | e :: c :: rest =>
    if e = 'e' ∨ e = 'E' then
      if isDigit c then 2 + runLength isDigit rest
      else if c = '+' ∨ c = '-' then
        -- A sign counts only if a digit follows it.
        match rest with
        | d :: rest => if isDigit d then 3 + runLength isDigit rest else 0
        | [] => 0
      else 0
    else 0
  | _ => 0

def numberLength (s : List Char) : Nat :=
  let whole := runLength isDigit s
  let fraction := fractionLength (s.drop whole)
  whole + fraction + exponentLength (s.drop (whole + fraction))

/-- Operators of two characters; they win over those of one. -/
def pairOperator? : Char → Char → Option Operator
  | ':', '=' => some .assign
  | '=', '=' => some .eq
  | '!', '=' => some .neq
  | '<', '=' => some .lte
  | '>', '=' => some .gte
  | _, _ => none

def singleKind? : Char → Option Kind
  | '=' => some (.operator .unify)
  | '<' => some (.operator .lt)
  | '>' => some (.operator .gt)
  | '+' => some (.operator .plus)
  | '-' => some (.operator .minus)
  | '*' => some (.operator .star)
  | '/' => some (.operator .slash)
  | '%' => some (.operator .percent)
  | '&' => some (.operator .amp)
  | '|' => some (.operator .pipe)
  | '!' => some (.operator .bang)
  | '(' => some (.mark .lparen)
  | ')' => some (.mark .rparen)
  | '[' => some (.mark .lbracket)
  | ']' => some (.mark .rbracket)
  | '{' => some (.mark .lbrace)
  | '}' => some (.mark .rbrace)
  | ',' => some (.mark .comma)
  | '.' => some (.mark .dot)
  | ':' => some (.mark .colon)
  | ';' => some (.mark .semicolon)
  | _ => none

/-- Kind of a token made of signs, and how many characters after `c` it takes. -/
def signReach (c : Char) (rest : List Char) : Kind × Nat :=
  match rest.head?.bind (pairOperator? c) with
  | some sign => (.operator sign, 1)
  | none =>
    match singleKind? c with
    | some kind => (kind, 0)
    | none => (.invalid, 0)

/-- A name is a reserved word only as a whole. -/
def nameKind (name : List Char) : Kind :=
  match Keyword.ofChars? name with
  | some word => .keyword word
  | none => .identifier

/-- The kind of the token that begins with `c`, and how many characters of `rest` it takes. -/
def reach (c : Char) (rest : List Char) : Kind × Nat :=
  if isBlank c then (.whitespace, runLength isBlank rest)
  else if c = '#' then (.comment, runLength (· ≠ '\n') rest)
  else if c = '"' then
    -- A string that nothing closes is invalid, but keeps its characters together.
    let (n, closed) := stringReach rest
    (if closed then .string else .invalid, n)
  else if c = '`' then
    let n := runLength (· ≠ '`') rest
    -- The closing quote, if there is one, is the first character after the run.
    if n < rest.length then (.rawString, n + 1) else (.invalid, n)
  else if isDigit c then (.number, numberLength (c :: rest) - 1)
  else if isNameStart c then
    let n := runLength isIdentifierChar rest
    (nameKind (c :: rest.take n), n)
  else signReach c rest

/-- Scans a text whose first character stands at `pos` and whose first `skip` characters belong to
a token already taken. -/
def scanFrom : (skip pos : Nat) → List Char → List Token
  | _, _, [] => []
  | skip + 1, pos, _ :: rest => scanFrom skip (pos + 1) rest
  | 0, pos, c :: rest =>
    let (kind, n) := reach c rest
    ⟨kind, c :: rest.take n, pos⟩ :: scanFrom n (pos + 1) rest

def scan (source : List Char) : List Token :=
  scanFrom 0 0 source

/-- The tokens that remain when the first `n` characters are already taken are those of the text
without them. -/
theorem scanFrom_drop (n pos : Nat) (s : List Char) (h : n ≤ s.length) :
    scanFrom n pos s = scanFrom 0 (pos + n) (s.drop n) := by
  induction s generalizing n pos with
  | nil => cases n <;> simp_all [scanFrom]
  | cons c rest ih =>
    cases n with
    | zero => rfl
    | succ n =>
      have h' : n ≤ rest.length := by simpa using h
      rw [scanFrom, ih n (pos + 1) h', List.drop_succ_cons]
      congr 1
      omega

end PolicyEditor.Token
