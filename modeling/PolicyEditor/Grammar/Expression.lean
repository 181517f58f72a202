import PolicyEditor.Grammar.Operand

/-!
Expressions and statements.

The rules call each other in circles, but every circle reads an item. So they are written against
`Rules`, the expression and statement parsers for shorter lists: `Rules.step` turns rules for
shorter lists into rules for a list of items, and `Rules.upTo n` serves every list of fewer than `n`
items.
-/

namespace PolicyEditor.Grammar

structure Rules where
  expr : ExprParser
  /-- Statements up to a closing bracket, which is left to the caller. -/
  statements : Scope → (closer : Token.Kind) → List Item → ParsedList

/-- A level tighter than every binary operator: a sign with its operand, or an operand with what
follows it. -/
def unaryLevel : Nat := 6

theorem level_lt_unaryLevel {k : Token.Kind} {b : Binding} (h : binding? k = some b) :
    b.level < unaryLevel := by
  unfold binding? at h
  split at h <;> simp only [Option.some.injEq, reduceCtorEq] at h <;> subst h <;> decide

/-- The items of a statement: no line break before the first one can end it. -/
def settle : List Item → List Item
  | [] => []
  | i :: rest => { i with breaks := false } :: rest

/-- An error node that takes an item and those after it on its line, up to one of the `stops`. -/
def restOfLine (s : Scope) (stops : List Token.Kind) (i : Item) (rest : List Item) : Parsed :=
  let fits (j : Item) : Bool := !j.newline && !stops.contains j.kind
  (misplaced s (i :: rest.takeWhile fits), rest.dropWhile fits)

namespace Rules

variable (r : Rules)

def objectItem (s : Scope) (ts : List Item) : Parsed :=
  let (key, afterKey) := r.expr s setOpLevel ts
  let (colon, afterColon) := expect (.mark .colon) s afterKey
  let (value, after) := r.expr s setOpLevel afterColon
  (.enclose .objectItem (s.here after) [key, colon, value], after)

def comprehension (kind : NodeKind) (head : List Item → Parsed) (closer : Token.Kind) (s : Scope)
    (opener : Item) (rest : List Item) : Parsed :=
  let (value, afterHead) := head rest
  let (bar, afterBar) := expect (.operator .pipe) s afterHead
  let (body, afterBody) := r.statements s.statement closer afterBar
  let (close, after) := expect closer s afterBody
  (.enclose kind (s.here after)
    [opener.leaf, value, bar, .enclose .body (s.here afterBody) body, close], after)

def collection (kind : NodeKind) (one : List Item → Parsed) (closer : Token.Kind) (s : Scope)
    (opener : Item) (rest : List Item) : Parsed :=
  let (parts, afterParts) := separated one closer rest.length rest
  let (close, after) := expect closer s afterParts
  (.enclose kind (s.here after) (opener.leaf :: parts ++ [close]), after)

def bracedBody (s : Scope) (opener : Item) (rest : List Item) : Parsed :=
  let (body, afterBody) := r.statements s.statement (.mark .rbrace) rest
  let (close, after) := expect (.mark .rbrace) s afterBody
  (.enclose .body (s.here after) (opener.leaf :: body ++ [close]), after)

def brackets (s : Scope) (opener : Item) (rest : List Item) : Parsed :=
  match classifyBracket rest with
  | .arrayComprehension =>
    r.comprehension .arrayComprehension (r.expr s.head assignLevel) (.mark .rbracket) s opener rest
  | _ => collection .array (r.expr s.bracketed assignLevel) (.mark .rbracket) s opener rest

def braces (s : Scope) (opener : Item) (rest : List Item) : Parsed :=
  match classifyBrace rest with
  | .objectComprehension =>
    r.comprehension .objectComprehension (r.objectItem s.head) (.mark .rbrace) s opener rest
  | .setComprehension =>
    r.comprehension .setComprehension (r.expr s.head assignLevel) (.mark .rbrace) s opener rest
  | .object => collection .object (r.objectItem s.bracketed) (.mark .rbrace) s opener rest
  | .set => collection .set (r.expr s.bracketed assignLevel) (.mark .rbrace) s opener rest
  | _ => r.bracedBody s opener rest

def parens (s : Scope) (opener : Item) (rest : List Item) : Parsed :=
  let (value, afterValue) := r.expr s.bracketed assignLevel rest
  let (close, after) := expect (.mark .rparen) s afterValue
  (.enclose .parenExpression (s.here after) [opener.leaf, value, close], after)

/-- An operand and what follows it. Nothing follows a placeholder or a misplaced token. -/
def operand (s : Scope) : List Item → Parsed
  | [] => (missing s [], [])
  | i :: rest =>
    let continued (p : Parsed) : Parsed := references r.expr s p.2.length p.1 p.2
    -- Such a token stays: a caller may be waiting for it.
    if neverOperand i.kind || s.stops i then (missing s (i :: rest), i :: rest)
    else if i.kind.isLiteral then continued (i.leaf, rest)
    else if i.kind = .mark .lparen then continued (r.parens s i rest)
    else if i.kind = .mark .lbracket then continued (r.brackets s i rest)
    else if i.kind = .mark .lbrace then continued (r.braces s i rest)
    -- Any other token is taken, so that reading always gets on.
    else (misplaced s [i], rest)

/-- An expression whose operators bind at least as tightly as `level`. -/
def expression (s : Scope) (level : Nat) (ts : List Item) : Parsed :=
  let (left, after) := unaryWith (r.operand s) s ts
  binaryTail r.expr s level after.length left after

def termList (s : Scope) (ts : List Item) : ParsedList :=
  terms (r.expr s setOpLevel) (ts.length + 1) ts

def clause (s : Scope) : List Item → Parsed
  | [] => r.expression s assignLevel []
  | i :: rest =>
    match i.kind with
    | .keyword .someKw =>
      let (parts, after) := r.termList s rest
      (.enclose .someDeclaration (s.here after) (i.leaf :: parts), after)
    | .keyword .everyKw =>
      let (parts, afterTerms) := r.termList s rest
      let (body, after) :=
        match afterTerms with
        | j :: next =>
          if j.kind = .mark .lbrace then r.bracedBody s j next
          else (missing s afterTerms, afterTerms)
        | [] => (missing s [], [])
      (.enclose .everyExpression (s.here after) (i.leaf :: parts ++ [body]), after)
    | .keyword .notKw =>
      let (value, after) := r.expr s assignLevel rest
      (.enclose .negation (s.here after) [i.leaf, value], after)
    | _ => r.expression s assignLevel (i :: rest)

/-- The modifiers after a clause. The first argument bounds their number. -/
def modifiers (s : Scope) : (rounds : Nat) → List Item → ParsedList
  | 0, ts => ([], ts)
  | _, [] => ([], [])
  | rounds + 1, i :: rest =>
    if i.kind = .keyword .withKw && !s.stops i then
      -- The target is an operand alone, the value anything but an assignment.
      let (target, afterTarget) := r.expr s unaryLevel rest
      let (as, afterAs) := expect (.keyword .asKw) s afterTarget
      let (value, after) := r.expr s setOpLevel afterAs
      let (more, last) := modifiers s rounds after
      (.enclose .withModifier (s.here after) [i.leaf, target, as, value] :: more, last)
    else ([], i :: rest)

def statement (s : Scope) (ts : List Item) : Parsed :=
  let (node, afterClause) := r.clause s (settle ts)
  let (parts, after) := r.modifiers s afterClause.length afterClause
  (.enclose .statement (s.here after) (node :: parts), after)

/-- Separators that make no statement, and are an error where one is expected. -/
def strayAmongStatements (closer k : Token.Kind) : Bool :=
  neverOperand k && k != closer && k != .mark .semicolon

/-- Statements up to a closing bracket. They stand on lines of their own or have semicolons between;
what else follows a statement on its line is an error. The first argument bounds the number of
rounds: each takes an item. -/
def statementList (s : Scope) (closer : Token.Kind) : (rounds : Nat) → List Item → ParsedList
  | 0, ts => ([], ts)
  | _, [] => ([], [])
  | rounds + 1, i :: rest =>
    if i.kind = closer then ([], i :: rest)
    else if i.kind = .mark .semicolon then
      let (more, last) := statementList s closer rounds rest
      (i.leaf :: more, last)
    else if strayAmongStatements closer i.kind then
      let (more, last) := statementList s closer rounds rest
      (misplaced s [i] :: more, last)
    else
      let (node, after) := r.statement s (i :: rest)
      match after with
      | [] => ([node], [])
      | j :: next =>
        -- The statement ended well; otherwise the rest of its line is wrong.
        if j.kind = closer || j.kind == .mark .semicolon || j.newline then
          let (more, last) := statementList s closer rounds after
          (node :: more, last)
        else
          let (wrong, afterWrong) := restOfLine s [closer, .mark .semicolon] j next
          let (more, last) := statementList s closer rounds afterWrong
          (node :: wrong :: more, last)

def step : Rules where
  expr := r.expression
  statements s closer ts := r.statementList s closer ts.length ts

/-- Rules that serve every list of fewer than `n` items. -/
def upTo : (n : Nat) → Rules
  | 0 => { expr := fun s _ ts => (missing s ts, ts), statements := fun _ _ ts => ([], ts) }
  | n + 1 => (upTo n).step

end Rules

end PolicyEditor.Grammar
