import PolicyEditor.Grammar.Expression
import PolicyEditor.Token.Scan
import PolicyEditor.Tree.Trivia

/-!
Whole texts. `parse` reads a policy: package, imports and rules, one after another on lines of their
own. `parseExpression` reads a single expression. Both give a `Script` over every token of the text
and never fail.
-/

namespace PolicyEditor.Grammar

namespace Rules

variable (r : Rules)

/-- Names after dots and indexes, as long as the line goes on. The first argument bounds the number
of rounds. -/
def pathTail (s : Scope) : (rounds : Nat) → List Item → ParsedList
  | 0, ts => ([], ts)
  | _, [] => ([], [])
  | rounds + 1, i :: rest =>
    if i.newline then ([], i :: rest)
    else if i.kind = .mark .dot then
      match rest with
      | j :: next =>
        if j.kind.isName then
          let (more, last) := pathTail s rounds next
          (i.leaf :: j.nameLeaf :: more, last)
        else ([], i :: rest)
      | [] => ([], i :: rest)
    else if i.kind = .mark .lbracket then
      let (parts, after) := index r.expr s i rest
      let (more, last) := pathTail s rounds after
      (parts ++ more, last)
    else ([], i :: rest)

def declaredPath (s : Scope) : List Item → Parsed
  | [] => (missing s [], [])
  | i :: rest =>
    if i.newline || !i.kind.isName then (missing s (i :: rest), i :: rest)
    else
      let (tail, after) := r.pathTail s rest.length rest
      (.enclose .refExpression (s.here after) (i.nameLeaf :: tail), after)

def package (s : Scope) (word : Item) (rest : List Item) : Parsed :=
  let (path, after) := r.declaredPath s rest
  (.enclose .packageDeclaration (s.here after) [word.leaf, path], after)

def alias? (s : Scope) : List Item → ParsedList
  | [] => ([], [])
  | i :: rest =>
    if i.kind = .keyword .asKw && !i.newline then
      let (name, after) := expect .identifier s rest
      ([i.leaf, name], after)
    else ([], i :: rest)

def importOf (s : Scope) (word : Item) (rest : List Item) : Parsed :=
  let (path, afterPath) := r.declaredPath s rest
  let (name, after) := alias? s afterPath
  (.enclose .importStatement (s.here after) (word.leaf :: path :: name), after)

def ifBody (s : Scope) : List Item → Parsed
  | [] =>
    let (node, after) := r.statement s.statement []
    (.enclose .body (s.here after) [node], after)
  | i :: rest =>
    if i.kind = .mark .lbrace then r.bracedBody s i rest
    else
      let (node, after) := r.statement s.statement (i :: rest)
      (.enclose .body (s.here after) [node], after)

def body? (s : Scope) : List Item → ParsedList
  | [] => ([], [])
  | i :: rest =>
    if i.kind = .keyword .ifKw then
      let (body, after) := r.ifBody s rest
      ([i.leaf, body], after)
    else if i.kind = .mark .lbrace then
      let (body, after) := r.bracedBody s i rest
      ([body], after)
    else ([], i :: rest)

def bodyOnLine? (s : Scope) : List Item → ParsedList
  | [] => ([], [])
  | i :: rest => if i.newline then ([], i :: rest) else r.body? s (i :: rest)

def givesValue (k : Token.Kind) : Bool :=
  k == .operator .assign || k == .operator .unify

def head (s : Scope) (ts : List Item) : Parsed :=
  let (name, afterName) := expect .identifier s ts
  let (path, afterPath) := r.pathTail s afterName.length afterName
  let (args, after) :=
    match afterPath with
    | i :: rest =>
      if i.kind = .mark .lparen && !i.newline then
        let (node, last) := arguments r.expr s i rest
        ([node], last)
      else ([], afterPath)
    | [] => ([], [])
  (.enclose .ruleHead (s.here after) (name :: path ++ args), after)

/-- What follows the head of a rule on its line: a member or a value with an optional body, or a
body. -/
def tail (s : Scope) : List Item → ParsedList
  | [] => ([], [])
  | i :: rest =>
    if i.newline then ([], i :: rest)
    else if i.kind = .keyword .containsKw || givesValue i.kind then
      -- No assignment within a value: its operators start one level tighter.
      let (value, afterValue) := r.expr s setOpLevel rest
      let (body, after) := r.bodyOnLine? s afterValue
      (i.leaf :: value :: body, after)
    else r.body? s (i :: rest)

def value? (s : Scope) : List Item → ParsedList
  | [] => ([], [])
  | i :: rest =>
    if givesValue i.kind then
      let (value, after) := r.expr s setOpLevel rest
      ([i.leaf, value], after)
    else ([], i :: rest)

def alternative (s : Scope) (word : Item) (rest : List Item) : Parsed :=
  let (value, afterValue) := r.value? s rest
  let (body, after) := r.body? s afterValue
  (.enclose .elseClause (s.here after) (word.leaf :: value ++ body), after)

/-- The alternatives of a rule. The first argument bounds their number. -/
def alternatives (s : Scope) : (rounds : Nat) → List Item → ParsedList
  | 0, ts => ([], ts)
  | _, [] => ([], [])
  | rounds + 1, i :: rest =>
    if i.kind = .keyword .elseKw then
      let (node, after) := r.alternative s i rest
      let (more, last) := alternatives s rounds after
      (node :: more, last)
    else ([], i :: rest)

def ruleAfter (s : Scope) (before : List Tree) (ts : List Item) : Parsed :=
  let (head, afterHead) := r.head s ts
  let (tail, afterTail) := r.tail s afterHead
  -- Unlike the tail, alternatives may begin on lines of their own.
  let (others, after) := r.alternatives s afterTail.length afterTail
  (.enclose .rule (s.here after) (before ++ head :: tail ++ others), after)

def declaration (s : Scope) (i : Item) (rest : List Item) : Parsed :=
  match i.kind with
  | .keyword .packageKw => r.package s i rest
  | .keyword .importKw => r.importOf s i rest
  | .keyword .defaultKw => r.ruleAfter s [i.leaf] rest
  | .identifier => r.ruleAfter s [] (i :: rest)
  | _ => restOfLine s [] i rest

/-- All declarations of a text; what follows one on its line is an error. The first argument bounds
their number. -/
def declarations (s : Scope) : (rounds : Nat) → List Item → List Tree
  | 0, _ => []
  | _, [] => []
  | rounds + 1, i :: rest =>
    let (node, after) := r.declaration s i rest
    match after with
    | [] => [node]
    | j :: next =>
      -- Declarations end with their line; the rest of it is one error.
      if j.newline then node :: declarations s rounds after
      else
        let (wrong, afterWrong) := restOfLine s [] j next
        node :: wrong :: declarations s rounds afterWrong

end Rules

def split (tokens : List Token) : List Item × List Token :=
  (items tokens, tokens.filter Token.isTrivia)

def parseChars (source : List Char) : Tree :=
  let (ts, trivia) := split (Token.scan source)
  let s : Scope := { lines := true, bars := false, eof := source.length }
  Tree.dressScript source.length trivia
    ((Rules.upTo (ts.length + 1)).declarations s ts.length ts)

def parseExpressionChars (source : List Char) : Tree :=
  let (ts, trivia) := split (Token.scan source)
  let s : Scope := { lines := false, bars := false, eof := source.length }
  let (node, after) := (Rules.upTo (ts.length + 1)).expr s assignLevel ts
  Tree.dressScript source.length trivia (node :: after.map fun i => misplaced s [i])

def parse (source : String) : Tree :=
  parseChars source.toList

/-- The tree of a single expression; tokens after it are errors. -/
def parseExpression (source : String) : Tree :=
  parseExpressionChars source.toList

end PolicyEditor.Grammar
