import PolicyEditor.Grammar.Expression
import PolicyEditor.Proofs.Token.Grammar

/-!
Expressions apart from any text: what they are made of, which of them need no further parentheses,
the tree that each stands for, and how it is printed.
-/

namespace PolicyEditor

open PolicyEditor.Grammar (Binding binding? setOpLevel unaryLevel)

inductive Token.Stands : Token.Kind → List Char → Prop where
  | sign {k : Token.Kind} {s : List Char} : Token.Spells k s → Stands k s
  | keyword (word : Keyword) : Stands (.keyword word) word.text.toList
  | identifier {s : List Char} : Token.Name s → (∀ word : Keyword, s ≠ word.text.toList) →
      Stands .identifier s
  | number {s : List Char} : Token.Numeral s → Stands .number s
  | string {s : List Char} : Token.Quoted s → Stands .string s
  | rawString {s : List Char} : Token.RawQuoted s → Stands .rawString s

structure Lexeme where
  kind : Token.Kind
  chars : List Char
  stands : Token.Stands kind chars

namespace Lexeme

def mark (m : Mark) : Lexeme :=
  ⟨.mark m, m.text.toList, .sign (.mark m)⟩

def place (pos : Nat) (l : Lexeme) : Token :=
  ⟨l.kind, l.chars, pos⟩

/-- How many characters lexemes take with a space behind each. -/
def span : List Lexeme → Nat
  | [] => 0
  | l :: rest => l.chars.length + 1 + span rest

def layOut (pos : Nat) : List Lexeme → List Token
  | [] => []
  | l :: rest => l.place pos :: layOut (pos + (l.chars.length + 1)) rest

def print (ls : List Lexeme) : List Char :=
  [' '].intercalate (ls.map chars)

end Lexeme

inductive Sketch where
  | leaf (l : Lexeme)
  | node (kind : NodeKind) (children : List Sketch)

namespace Sketch

mutual

def lexemes : Sketch → List Lexeme
  | .leaf l => [l]
  | .node _ cs => lexemesOf cs

def lexemesOf : List Sketch → List Lexeme
  | [] => []
  | c :: cs => lexemes c ++ lexemesOf cs

end

mutual

def place (pos : Nat) : Sketch → Tree
  | .leaf l => .ofToken (l.place pos)
  | .node k cs => .enclose k pos (placeAll pos cs)

def placeAll (pos : Nat) : List Sketch → List Tree
  | [] => []
  | c :: cs => place pos c :: placeAll (pos + Lexeme.span c.lexemes) cs

end

def mark (m : Mark) : Sketch :=
  .leaf (.mark m)

def commas (cs : List Sketch) : List Sketch :=
  cs.intersperse (mark .comma)

def listing (kind : NodeKind) (opener closer : Mark) (cs : List Sketch) : Sketch :=
  .node kind (mark opener :: (commas cs ++ [mark closer]))

end Sketch

structure Literal where
  lexeme : Lexeme
  literal : lexeme.kind.isLiteral = true

structure Identifier where
  lexeme : Lexeme
  identifier : lexeme.kind = .identifier

structure UnaryOperator where
  lexeme : Lexeme
  sign : lexeme.kind = .operator .minus ∨ lexeme.kind = .operator .bang

structure BinaryOperator where
  lexeme : Lexeme
  binding : Binding
  binds : binding? lexeme.kind = some binding

/-- Expressions without comprehensions. Parentheses are part of an expression. -/
inductive Expr where
  | literal (value : Literal)
  | unary (sign : UnaryOperator) (operand : Expr)
  | binary (left : Expr) (operator : BinaryOperator) (right : Expr)
  | paren (inner : Expr)
  | member (base : Expr) (name : Identifier)
  | index (base key : Expr)
  | call (base : Expr) (arguments : List Expr)
  | array (elements : List Expr)
  /-- A set holds an element at least. -/
  | set (first : Expr) (others : List Expr)
  | object (members : List (Expr × Expr))

namespace Expr

/-- Induction on an expression: what holds of the parts, those in lists too, holds of the whole. -/
@[elab_as_elim]
theorem induction {motive : Expr → Prop}
    (literal : ∀ value, motive (.literal value))
    (unary : ∀ sign e, motive e → motive (.unary sign e))
    (binary : ∀ l operator r, motive l → motive r → motive (.binary l operator r))
    (paren : ∀ e, motive e → motive (.paren e))
    (member : ∀ base name, motive base → motive (.member base name))
    (index : ∀ base key, motive base → motive key → motive (.index base key))
    (call : ∀ base arguments, motive base → (∀ e ∈ arguments, motive e) →
      motive (.call base arguments))
    (array : ∀ elements, (∀ e ∈ elements, motive e) → motive (.array elements))
    (set : ∀ first others, (∀ e ∈ first :: others, motive e) → motive (.set first others))
    (object : ∀ members, (∀ m ∈ members, motive m.1 ∧ motive m.2) → motive (.object members))
    (e : Expr) : motive e :=
  @Expr.rec motive (fun es => ∀ e ∈ es, motive e) (fun ms => ∀ m ∈ ms, motive m.1 ∧ motive m.2)
    (fun m => motive m.1 ∧ motive m.2) literal unary binary paren member index call array
    (fun first others h hs => set first others (List.forall_mem_cons.mpr ⟨h, hs⟩)) object
    nofun (fun _ _ h hs => List.forall_mem_cons.mpr ⟨h, hs⟩)
    nofun (fun _ _ h hs => List.forall_mem_cons.mpr ⟨h, hs⟩)
    (fun _ _ hkey hvalue => ⟨hkey, hvalue⟩) e

/-- How tightly operands bind that are neither signed nor joined by operators. -/
def operandLevel : Nat := unaryLevel + 1

/-- Terms of a collection bind at least so tightly: neither set operators nor assignments. -/
def elementLevel : Nat := setOpLevel + 1

def level : Expr → Nat
  | .binary _ operator _ => operator.binding.level
  | .unary _ _ => unaryLevel
  | _ => operandLevel

mutual

def sketch : Expr → Sketch
  | .literal value => .leaf value.lexeme
  | .unary sign e => .node .unaryExpression [.leaf sign.lexeme, sketch e]
  | .binary l operator r =>
    .node operator.binding.node [sketch l, .leaf operator.lexeme, sketch r]
  | .paren e => .node .parenExpression [.mark .lparen, sketch e, .mark .rparen]
  | .member base name => .node .refExpression [sketch base, .mark .dot, .leaf name.lexeme]
  | .index base key =>
    .node .refExpression [sketch base, .mark .lbracket, sketch key, .mark .rbracket]
  | .call base arguments =>
    .node .callExpression
      [sketch base, .listing .argumentList .lparen .rparen (sketches arguments)]
  | .array elements => .listing .array .lbracket .rbracket (sketches elements)
  | .set first others => .listing .set .lbrace .rbrace (sketch first :: sketches others)
  | .object members => .listing .object .lbrace .rbrace (memberSketches members)

def sketches : List Expr → List Sketch
  | [] => []
  | e :: es => sketch e :: sketches es

def memberSketches : List (Expr × Expr) → List Sketch
  | [] => []
  | (key, value) :: ms =>
    .node .objectItem [sketch key, .mark .colon, sketch value] :: memberSketches ms

end

mutual

/-- Whether the expression is what its print means, without more parentheses: what it is made of
binds tightly enough in its place. -/
def wellBound : Expr → Bool
  | .literal _ => true
  | .unary _ e => unaryLevel ≤ e.level && wellBound e
  | .binary l operator r =>
    operator.binding.level ≤ l.level && operator.binding.level < r.level &&
      wellBound l && wellBound r
  | .paren e => wellBound e
  | .member base _ => operandLevel ≤ base.level && wellBound base
  | .index base key => operandLevel ≤ base.level && wellBound base && wellBound key
  | .call base arguments =>
    operandLevel ≤ base.level && wellBound base && allWellBound 0 arguments
  | .array elements => allWellBound elementLevel elements
  | .set first others =>
    elementLevel ≤ first.level && wellBound first && allWellBound elementLevel others
  | .object members => membersWellBound members

def allWellBound (least : Nat) : List Expr → Bool
  | [] => true
  | e :: es => least ≤ e.level && wellBound e && allWellBound least es

def membersWellBound : List (Expr × Expr) → Bool
  | [] => true
  | (key, value) :: ms =>
    elementLevel ≤ key.level && wellBound key && elementLevel ≤ value.level && wellBound value &&
      membersWellBound ms

end

theorem sketches_eq (es : List Expr) : sketches es = es.map sketch := by
  induction es with
  | nil => rfl
  | cons e es ih => rw [sketches, List.map_cons, ih]

def memberSketch (m : Expr × Expr) : Sketch :=
  .node .objectItem [m.1.sketch, .mark .colon, m.2.sketch]

theorem memberSketches_eq (ms : List (Expr × Expr)) : memberSketches ms = ms.map memberSketch := by
  induction ms with
  | nil => rfl
  | cons m ms ih => rw [memberSketches, List.map_cons, ih, memberSketch]

theorem allWellBound_iff {least : Nat} {es : List Expr} : allWellBound least es = true ↔
    ∀ e ∈ es, least ≤ e.level ∧ e.wellBound = true := by
  induction es with
  | nil => exact ⟨nofun, fun _ => rfl⟩
  | cons e es ih =>
    simp only [allWellBound, Bool.and_eq_true, decide_eq_true_eq, ih, List.forall_mem_cons]

theorem membersWellBound_iff {ms : List (Expr × Expr)} : membersWellBound ms = true ↔
    ∀ m ∈ ms, (elementLevel ≤ m.1.level ∧ m.1.wellBound = true) ∧
      elementLevel ≤ m.2.level ∧ m.2.wellBound = true := by
  induction ms with
  | nil => exact ⟨nofun, fun _ => rfl⟩
  | cons m ms ih =>
    simp only [membersWellBound, Bool.and_eq_true, decide_eq_true_eq, ih, List.forall_mem_cons,
      and_assoc]

def text (e : Expr) : String :=
  String.ofList (Lexeme.print e.sketch.lexemes)

def tree (e : Expr) : Tree :=
  e.sketch.place 0

end Expr

end PolicyEditor
