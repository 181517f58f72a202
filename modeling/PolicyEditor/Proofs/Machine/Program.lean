import PolicyEditor.Grammar.Script

/-!
The grammar as a machine. A cursor goes through the items of a text; nodes are built on a stack of
child lists, the innermost of which is being filled; a stack of scopes tells what ends an
expression. The procedures of the grammar are programs over these: they act on the machine, look at
it and call each other, and a loop is a procedure that calls itself for the next round.

Nothing bounds the number of steps here. That the machine comes to an end, and that it builds the
trees that the rules give, is proved of it.
-/

namespace PolicyEditor.Grammar.Machine

structure State where
  /-- The items from the cursor on. -/
  rest : List Item
  /-- The innermost of the open child lists. -/
  nodes : List Tree
  /-- The other open child lists, from the inside out. -/
  outer : List (List Tree)
  scope : Scope
  /-- The scopes around the present one, from the inside out. -/
  scopes : List Scope

inductive Action where
  /-- Takes an item, if there is one, as a leaf. -/
  | bump
  /-- Takes an item, if there is one, as a name. -/
  | bumpName
  | begin
  /-- Begins a node that takes over the children from a mark on. -/
  | beginAt (mark : Nat)
  | finish (kind : NodeKind)
  | push (change : Scope → Scope)
  | pop
  /-- From here on no line break before the next item ends an expression. -/
  | settle

namespace State

def emit (σ : State) (cs : List Tree) (ts : List Item) : State :=
  { σ with rest := ts, nodes := σ.nodes ++ cs }

def opened (σ : State) : State :=
  { σ with nodes := [], outer := σ.nodes :: σ.outer }

def entered (σ : State) (change : Scope → Scope) : State :=
  { σ with scope := change σ.scope, scopes := σ.scope :: σ.scopes }

def settled (σ : State) : State :=
  { σ with rest := settle σ.rest }

def taken (σ : State) (leaf : Item → Tree) : State :=
  match σ.rest with
  | [] => σ
  | i :: ts => σ.emit [leaf i] ts

/-- The state whose innermost child list has become a node. The last one stays open. -/
def closed? (σ : State) (kind : NodeKind) : Option State :=
  match σ.outer with
  | [] => none
  | around :: more =>
    let node : Tree := .enclose kind (σ.scope.here σ.rest) σ.nodes
    some { σ with nodes := around ++ [node], outer := more }

/-- The state back in the scope around the present one. The last one is never left. -/
def left? (σ : State) : Option State :=
  match σ.scopes with
  | [] => none
  | s :: more => some { σ with scope := s, scopes := more }

def after? (σ : State) : Action → Option State
  | .bump => some (σ.taken Item.leaf)
  | .bumpName => some (σ.taken Item.nameLeaf)
  | .begin => some σ.opened
  | .beginAt mark =>
    some { σ with nodes := σ.nodes.drop mark, outer := σ.nodes.take mark :: σ.outer }
  | .finish kind => σ.closed? kind
  | .push change => some (σ.entered change)
  | .pop => σ.left?
  | .settle => some σ.settled

def at? (σ : State) (kind : Token.Kind) : Bool :=
  σ.rest.head?.any fun i => i.kind == kind

def sees (σ : State) (p : Token.Kind → Bool) : Bool :=
  σ.rest.head?.any fun i => p i.kind

/-- Whether a line break stands before the next item; the end of the text counts as one. -/
def newline (σ : State) : Bool :=
  σ.rest.head?.all Item.newline

def stops (σ : State) : Bool :=
  σ.rest.head?.any σ.scope.stops

section

variable {σ : State}

theorem at?_nil (h : σ.rest = []) (kind : Token.Kind) : σ.at? kind = false := by
  rw [at?, h]
  rfl

theorem ne_nil_of_at? {kind : Token.Kind} (h : σ.at? kind = true) : σ.rest ≠ [] := by
  intro hrest
  rw [at?_nil hrest] at h
  cases h

theorem sees_nil (h : σ.rest = []) (p : Token.Kind → Bool) : σ.sees p = false := by
  rw [sees, h]
  rfl

theorem newline_nil (h : σ.rest = []) : σ.newline = true := by
  rw [newline, h]
  rfl

variable {i : Item} {ts : List Item} (h : σ.rest = i :: ts)
include h

theorem at?_cons (kind : Token.Kind) : σ.at? kind = (i.kind == kind) := by
  simp only [at?, h, List.head?_cons, Option.any_some]

theorem at?_eq_true_iff (kind : Token.Kind) : σ.at? kind = true ↔ i.kind = kind := by
  rw [at?_cons h, beq_iff_eq]

theorem sees_cons (p : Token.Kind → Bool) : σ.sees p = p i.kind := by
  simp only [sees, h, List.head?_cons, Option.any_some]

theorem newline_cons : σ.newline = i.newline := by
  simp only [newline, h, List.head?_cons, Option.all_some]

theorem stops_cons : σ.stops = σ.scope.stops i := by
  simp only [stops, h, List.head?_cons, Option.any_some]

end

end State

/-- The procedures of the grammar. Each calls only later ones before it has taken an item; only an
operand may call the three for brackets, which stand last. -/
inductive Procedure where
  | script | standalone | strays
  | package | importOf | declaredPath
  | rule | head | tail | bodyOnLine | alternatives | alternative | pathTail
  | ifBody | bracedBody | comprehensionBody (closer : Token.Kind)
  | statements (closer : Token.Kind) | statement | modifiers | modifier
  | some | every | termList | moreTerms
  | separated (objects : Bool) (closer : Token.Kind) | objectItem
  | expression (level : Nat) | operators (level mark : Nat) | unary | operand
  | suffixes (mark : Nat) | primary
  | restOfLine (stops : List Token.Kind) | skip (stops : List Token.Kind)
  | arguments | bracket | brace

/-- What a procedure does. An operand tells by its value whether something may follow it. -/
inductive Program where
  | ret (value : Bool)
  | act (a : Action)
  | look (next : State → Program)
  | call (p : Procedure)
  | bind (first : Program) (next : Bool → Program)

namespace Program

instance : AndThen Program where
  andThen c d := .bind c fun _ => d ()

def done : Program := .ret true

def bump : Program := .act .bump

def name : Program := .act .bumpName

def node (kind : NodeKind) (inside : Program) : Program :=
  .act .begin >> inside >> .act (.finish kind)

def wrap (kind : NodeKind) (mark : Nat) (inside : Program) : Program :=
  .act (.beginAt mark) >> inside >> .act (.finish kind)

def within (change : Scope → Scope) (inside : Program) : Program :=
  .act (.push change) >> inside >> .act .pop

def missing : Program := node .error done

def misplaced : Program := node .error bump

def expect (kind : Token.Kind) : Program :=
  .look fun σ => if σ.at? kind then bump else missing

def expression : Program := .call (.expression assignLevel)

def term : Program := .call (.expression setOpLevel)

def element (objects : Bool) : Program :=
  if objects then .call .objectItem else expression

def index : Program :=
  bump >> within Scope.bracketed expression >> expect (.mark .rbracket)

def afterComma (next : Program) : Program :=
  .look fun σ => if σ.at? (.mark .comma) then bump >> next else done

def collection (kind : NodeKind) (objects : Bool) (closer : Token.Kind) : Program :=
  node kind (bump >> within Scope.bracketed (.call (.separated objects closer)) >> expect closer)

def comprehension (kind : NodeKind) (head : Program) (closer : Token.Kind) : Program :=
  node kind (bump >> within Scope.head head >> expect (.operator .pipe) >>
    .call (.comprehensionBody closer) >> expect closer)

def braced : Program :=
  node .body
    (bump >> within Scope.statement (.call (.statements (.mark .rbrace))) >> expect (.mark .rbrace))

def clause : Program :=
  .look fun σ =>
    if σ.at? (.keyword .someKw) then .call .some
    else if σ.at? (.keyword .everyKw) then .call .every
    else if σ.at? (.keyword .notKw) then node .negation (bump >> expression)
    else expression

/-- What else follows on the line, up to one of the `stops`, is an error. -/
def endOfLine (stops : List Token.Kind) : Program :=
  .look fun σ =>
    if σ.newline || σ.sees stops.contains then done else .call (.restOfLine stops)

def body? : Program :=
  .look fun σ =>
    if σ.at? (.keyword .ifKw) then .call .ifBody
    else if σ.at? (.mark .lbrace) then .call .bracedBody
    else done

/-- The operand that begins with an item, without what follows it. Nothing may follow a placeholder
or a misplaced item. -/
def primaryAt (s : Scope) (i : Item) : Program :=
  if neverOperand i.kind || s.stops i then missing >> .ret false
  else if i.kind.isLiteral then bump
  else if i.kind = .mark .lparen then
    node .parenExpression (bump >> within Scope.bracketed expression >> expect (.mark .rparen))
  else if i.kind = .mark .lbracket then .call .bracket
  else if i.kind = .mark .lbrace then .call .brace
  else misplaced >> .ret false

def memberName : Program :=
  .look fun σ => if σ.sees Token.Kind.isName && !σ.newline then name else missing

/-- What goes on with an operand, if an item begins such a thing, and the node that it makes. -/
def partAt? (s : Scope) (i : Item) : Option (NodeKind × Program) :=
  if s.stops i then none
  else if i.kind = .mark .dot then some (.refExpression, bump >> memberName)
  else if i.kind = .mark .lbracket then some (.refExpression, index)
  else if i.kind = .mark .lparen then some (.callExpression, .call .arguments)
  else none

/-- What goes on with an operand, if an item begins such a thing, and what follows that. It takes
over the operand before it. -/
def suffixAt (s : Scope) (mark : Nat) (i : Item) : Program :=
  match partAt? s i with
  | none => done
  | some (kind, inside) => wrap kind mark inside >> .call (.suffixes mark)

/-- An operator with its right operand, if an item is one that binds tightly enough, and those after
it. The operator takes over the operand before it. -/
def operatorAt (s : Scope) (level mark : Nat) (i : Item) : Program :=
  match binding? i.kind with
  | none => done
  | some b =>
    if b.level < level || (i.kind == .operator .pipe && s.bars) || s.stops i then done
    else
      wrap b.node mark (bump >> .call (.expression (b.level + 1))) >>
        .call (.operators level mark)

def declaration : Token.Kind → Program
  | .keyword .packageKw => .call .package
  | .keyword .importKw => .call .importOf
  | .keyword .defaultKw | .identifier => .call .rule
  | _ => .call (.restOfLine [])

def defaultWord? : Program :=
  .look fun σ => if σ.at? (.keyword .defaultKw) then bump else done

def alias? : Program :=
  .look fun σ =>
    if σ.at? (.keyword .asKw) && !σ.newline then bump >> expect .identifier else done

def parameters? : Program :=
  .look fun σ => if σ.at? (.mark .lparen) && !σ.newline then .call .arguments else done

def value? : Program :=
  .look fun σ => if σ.sees Rules.givesValue then bump >> term else done

def of : Procedure → Program
  | .script =>
    .look fun σ =>
      match σ.rest with
      | [] => done
      | i :: _ => declaration i.kind >> endOfLine [] >> .call .script
  | .standalone => expression >> .call .strays
  | .strays =>
    .look fun σ =>
      match σ.rest with
      | [] => done
      | _ :: _ => misplaced >> .call .strays
  | .package => node .packageDeclaration (bump >> .call .declaredPath)
  | .importOf => node .importStatement (bump >> .call .declaredPath >> alias?)
  | .declaredPath =>
    .look fun σ =>
      if σ.newline || !σ.sees Token.Kind.isName then missing
      else node .refExpression (name >> .call .pathTail)
  | .rule => node .rule (defaultWord? >> .call .head >> .call .tail >> .call .alternatives)
  | .head => node .ruleHead (expect .identifier >> .call .pathTail >> parameters?)
  | .tail =>
    .look fun σ =>
      if σ.newline then done
      else if σ.at? (.keyword .containsKw) || σ.sees Rules.givesValue then
        bump >> term >> .call .bodyOnLine
      else body?
  | .bodyOnLine => .look fun σ => if σ.newline then done else body?
  | .alternatives =>
    .look fun σ =>
      if σ.at? (.keyword .elseKw) then .call .alternative >> .call .alternatives else done
  | .alternative => node .elseClause (bump >> value? >> body?)
  | .pathTail =>
    .look fun σ =>
      match σ.rest with
      | [] => done
      | i :: ts =>
        if i.newline then done
        else if i.kind = .mark .dot then
          -- A dot that no name follows is left to the caller.
          if ts.head?.any fun j => j.kind.isName then bump >> name >> .call .pathTail else done
        else if i.kind = .mark .lbracket then index >> .call .pathTail
        else done
  | .ifBody =>
    bump >> .look fun σ =>
      if σ.at? (.mark .lbrace) then .call .bracedBody
      else node .body (within Scope.statement (.call .statement))
  | .bracedBody => braced
  | .comprehensionBody closer => node .body (within Scope.statement (.call (.statements closer)))
  | .statements closer =>
    .look fun σ =>
      match σ.rest with
      | [] => done
      | i :: _ =>
        if i.kind = closer then done
        else if i.kind = .mark .semicolon then bump >> .call (.statements closer)
        else if Rules.strayAmongStatements closer i.kind then
          misplaced >> .call (.statements closer)
        else
          .call .statement >> endOfLine [closer, .mark .semicolon] >> .call (.statements closer)
  | .statement => node .statement (.act .settle >> clause >> .call .modifiers)
  | .modifiers =>
    .look fun σ =>
      if σ.at? (.keyword .withKw) && !σ.stops then .call .modifier >> .call .modifiers else done
  | .modifier => node .withModifier (bump >> .call .unary >> expect (.keyword .asKw) >> term)
  | .some => node .someDeclaration (bump >> .call .termList)
  | .every =>
    node .everyExpression
      (bump >> .call .termList >>
        .look fun σ => if σ.at? (.mark .lbrace) then .call .bracedBody else missing)
  | .termList => term >> .call .moreTerms
  | .moreTerms => afterComma (term >> .call .moreTerms)
  | .separated objects closer =>
    .look fun σ =>
      match σ.rest with
      | [] => done
      | i :: _ =>
        if i.kind = closer then done
        else element objects >> afterComma (.call (.separated objects closer))
  | .objectItem => node .objectItem (term >> expect (.mark .colon) >> term)
  | .expression level =>
    .look fun σ => .call .unary >> .call (.operators level σ.nodes.length)
  | .operators level mark =>
    .look fun σ =>
      match σ.rest with
      | [] => done
      | i :: _ => operatorAt σ.scope level mark i
  | .unary =>
    .look fun σ =>
      if (σ.at? (.operator .minus) || σ.at? (.operator .bang)) && !σ.stops then
        node .unaryExpression (bump >> .call .unary)
      else .call .operand
  | .operand =>
    .look fun σ => .bind (.call .primary) fun value =>
      if value then .call (.suffixes σ.nodes.length) else done
  | .suffixes mark =>
    .look fun σ =>
      match σ.rest with
      | [] => done
      | i :: _ => suffixAt σ.scope mark i
  | .primary =>
    .look fun σ =>
      match σ.rest with
      | [] => missing >> .ret false
      | i :: _ => primaryAt σ.scope i
  | .restOfLine stops => node .error (bump >> .call (.skip stops))
  | .skip stops =>
    .look fun σ =>
      if σ.rest.head?.any fun j => !j.newline && !stops.contains j.kind then
        bump >> .call (.skip stops)
      else done
  | .arguments => collection .argumentList false (.mark .rparen)
  | .bracket =>
    .look fun σ =>
      match classifyBracket σ.rest.tail with
      | .arrayComprehension => comprehension .arrayComprehension expression (.mark .rbracket)
      | _ => collection .array false (.mark .rbracket)
  | .brace =>
    .look fun σ =>
      match classifyBrace σ.rest.tail with
      | .objectComprehension =>
        comprehension .objectComprehension (.call .objectItem) (.mark .rbrace)
      | .setComprehension => comprehension .setComprehension expression (.mark .rbrace)
      | .object => collection .object true (.mark .rbrace)
      | .set => collection .set false (.mark .rbrace)
      | _ => braced

end Program

/-! ### Runs -/

/-- A program, from a state, comes to its end with a value and in another state. -/
inductive Runs : Program → State → Bool → State → Prop where
  | ret (value : Bool) (σ : State) : Runs (.ret value) σ value σ
  | act {a : Action} {σ τ : State} : σ.after? a = some τ → Runs (.act a) σ true τ
  | look {next : State → Program} {σ τ : State} {value : Bool} :
      Runs (next σ) σ value τ → Runs (.look next) σ value τ
  | call {p : Procedure} {σ τ : State} {value : Bool} :
      Runs (.of p) σ value τ → Runs (.call p) σ value τ
  | bind {first : Program} {next : Bool → Program} {σ τ υ : State} {value last : Bool} :
      Runs first σ value τ → Runs (next value) τ last υ → Runs (.bind first next) σ last υ

/-- A run of the program from a state, to its end or not, calls a procedure in a state. -/
inductive Calls : Program → State → Procedure × State → Prop where
  | call (p : Procedure) (σ : State) : Calls (.call p) σ (p, σ)
  | look {next : State → Program} {σ : State} {x : Procedure × State} :
      Calls (next σ) σ x → Calls (.look next) σ x
  | first {first : Program} {next : Bool → Program} {σ : State} {x : Procedure × State} :
      Calls first σ x → Calls (.bind first next) σ x
  | next {first : Program} {next : Bool → Program} {σ τ : State} {value : Bool}
      {x : Procedure × State} :
      Runs first σ value τ → Calls (next value) τ x → Calls (.bind first next) σ x

/-- A procedure, entered in a state, enters another one directly. -/
def Enters (x y : Procedure × State) : Prop :=
  Calls (.of x.1) x.2 y

/-- What happens does not depend on choice. -/
theorem Runs.unique {c : Program} {σ τ τ' : State} {value value' : Bool} (h : Runs c σ value τ)
    (h' : Runs c σ value' τ') : value' = value ∧ τ' = τ := by
  induction h generalizing value' τ' with
  | ret =>
    cases h'
    exact ⟨rfl, rfl⟩
  | act hafter =>
    cases h' with
    | act hafter' =>
      rw [hafter, Option.some.injEq] at hafter'
      exact ⟨rfl, hafter'.symm⟩
  | look _ ih =>
    cases h' with
    | look h' => exact ih h'
  | call _ ih =>
    cases h' with
    | call h' => exact ih h'
  | bind _ _ ihFirst ihNext =>
    cases h' with
    | bind hfirst hnext =>
      obtain ⟨rfl, rfl⟩ := ihFirst hfirst
      exact ihNext hnext

end PolicyEditor.Grammar.Machine
