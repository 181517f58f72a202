import PolicyEditor.Grammar.Script
import PolicyEditor.Proofs.Grammar.ExpressionCoverage

/-!
Declarations cover what they read. Each takes its first item, so as many rounds as there are items
are enough, and the declarations of a text cover all of it. The pieces of declarations are put
together like expressions; only over those with a heading of their own does covering go further.
-/

namespace PolicyEditor.Grammar.Rules

open Composes (nil leaf nameLeaf append enclose)

variable {C : Account} [Composes C] {r : Rules}

theorem pathTail_composes (h : r.Composed C) (s : Scope) (rounds : Nat) (ts : List Item) :
    C s.eof ts (r.pathTail s rounds ts).1 (r.pathTail s rounds ts).2 := by
  induction rounds generalizing ts with
  | zero => exact nil ts
  | succ rounds ih =>
    cases ts with
    | nil => exact nil []
    | cons i rest =>
      simp only [pathTail]
      split
      · exact nil (i :: rest)
      split
      · cases rest with
        | nil => exact nil [i]
        | cons j next =>
          simp only
          split
          · exact leaf i (nameLeaf j (ih next))
          · exact nil (i :: j :: next)
      split
      · exact append (index_composes h.expr s i rest) (ih _)
      · exact nil (i :: rest)

theorem declaredPath_composes (h : r.Composed C) (s : Scope) :
    ComposesOne C s.eof (r.declaredPath s) := by
  intro ts
  cases ts with
  | nil => exact missing_composes s []
  | cons i rest =>
    rw [declaredPath]
    split
    · exact missing_composes s (i :: rest)
    · exact enclose .refExpression rfl (nameLeaf i (pathTail_composes h s rest.length rest))

theorem alias?_composes (s : Scope) (ts : List Item) :
    C s.eof ts (alias? s ts).1 (alias? s ts).2 := by
  cases ts with
  | nil => exact nil []
  | cons i rest =>
    rw [alias?]
    split
    · exact leaf i (expect_composes .identifier s rest)
    · exact nil (i :: rest)

theorem ifBody_composes (h : r.Composed C) (s : Scope) : ComposesOne C s.eof (r.ifBody s) := by
  intro ts
  cases ts with
  | nil => exact enclose (s := s) .body rfl (statement_composes h s.statement [])
  | cons i rest =>
    rw [ifBody]
    split
    · exact bracedBody_composes h s i rest
    · exact enclose (s := s) .body rfl (statement_composes h s.statement (i :: rest))

theorem body?_composes (h : r.Composed C) (s : Scope) (ts : List Item) :
    C s.eof ts (r.body? s ts).1 (r.body? s ts).2 := by
  cases ts with
  | nil => exact nil []
  | cons i rest =>
    rw [body?]
    split
    · exact leaf i (ifBody_composes h s rest)
    split
    · exact bracedBody_composes h s i rest
    · exact nil (i :: rest)

theorem bodyOnLine?_composes (h : r.Composed C) (s : Scope) (ts : List Item) :
    C s.eof ts (r.bodyOnLine? s ts).1 (r.bodyOnLine? s ts).2 := by
  cases ts with
  | nil => exact nil []
  | cons i rest =>
    rw [bodyOnLine?]
    split
    · exact nil (i :: rest)
    · exact body?_composes h s (i :: rest)

def parameters (r : Rules) (s : Scope) : List Item → ParsedList
  | [] => ([], [])
  | i :: rest =>
    if i.kind = .mark .lparen && !i.newline then
      ([(arguments r.expr s i rest).1], (arguments r.expr s i rest).2)
    else ([], i :: rest)

theorem head_eq (s : Scope) (ts : List Item) :
    let name := expect .identifier s ts
    let path := r.pathTail s name.2.length name.2
    let args := parameters r s path.2
    r.head s ts = (.enclose .ruleHead (s.here args.2) (name.1 :: path.1 ++ args.1), args.2) := by
  simp only [head]
  rcases (r.pathTail s (expect .identifier s ts).2.length (expect .identifier s ts).2).2 with
    _ | ⟨i, rest⟩
  · rfl
  · simp only [parameters]

theorem parameters_compose (h : r.Composed C) (s : Scope) (ts : List Item) :
    C s.eof ts (parameters r s ts).1 (parameters r s ts).2 := by
  cases ts with
  | nil => exact nil []
  | cons i rest =>
    rw [parameters]
    split
    · exact arguments_composes h.expr s i rest
    · exact nil (i :: rest)

theorem tail_composes (h : r.Composed C) (s : Scope) (ts : List Item) :
    C s.eof ts (r.tail s ts).1 (r.tail s ts).2 := by
  cases ts with
  | nil => exact nil []
  | cons i rest =>
    rw [tail]
    split
    · exact nil (i :: rest)
    split
    · have hvalue := h.expr s setOpLevel rest
      have hbody := bodyOnLine?_composes h s (r.expr s setOpLevel rest).2
      exact leaf i (append hvalue hbody)
    · exact body?_composes h s (i :: rest)

theorem value?_composes (h : r.Composed C) (s : Scope) (ts : List Item) :
    C s.eof ts (r.value? s ts).1 (r.value? s ts).2 := by
  cases ts with
  | nil => exact nil []
  | cons i rest =>
    rw [value?]
    split
    · exact leaf i (h.expr s setOpLevel rest)
    · exact nil (i :: rest)

theorem alternative_composes (h : r.Composed C) (s : Scope) (word : Item) (rest : List Item) :
    C s.eof (word :: rest) [(r.alternative s word rest).1] (r.alternative s word rest).2 := by
  have hvalue := value?_composes h s rest
  have hbody := body?_composes h s (r.value? s rest).2
  exact enclose .elseClause rfl (append (leaf word hvalue) hbody)

theorem alternatives_compose (h : r.Composed C) (s : Scope) (rounds : Nat) (ts : List Item) :
    C s.eof ts (r.alternatives s rounds ts).1 (r.alternatives s rounds ts).2 := by
  induction rounds generalizing ts with
  | zero => exact nil ts
  | succ rounds ih =>
    cases ts with
    | nil => exact nil []
    | cons i rest =>
      rw [alternatives]
      split
      · exact append (alternative_composes h s i rest) (ih _)
      · exact nil (i :: rest)

theorem head_covers (h : r.Composed Covers) (s : Scope) : ComposesOne Covers s.eof (r.head s) := by
  intro ts
  have hname := expect_composes (C := Covers) .identifier s ts
  have hpath := pathTail_composes h s (expect .identifier s ts).2.length (expect .identifier s ts).2
  have hargs := parameters_compose h s
    (r.pathTail s (expect .identifier s ts).2.length (expect .identifier s ts).2).2
  rw [head_eq]
  exact ((hname.append hpath).append hargs).enclose .ruleHead

/-- A rule covers what stands before its head and what it reads. -/
theorem ruleAfter_covers (h : r.Composed Covers) (s : Scope) {front ts : List Item}
    {before : List Tree} (hbefore : Covers s.eof front before ts) :
    Covers s.eof front [(r.ruleAfter s before ts).1] (r.ruleAfter s before ts).2 := by
  have hhead := head_covers h s ts
  have htail := tail_composes h s (r.head s ts).2
  have hothers := alternatives_compose h s (r.tail s (r.head s ts).2).2.length
    (r.tail s (r.head s ts).2).2
  have hrule := hbefore.append (hhead.append htail)
  rw [List.singleton_append] at hrule
  exact (hrule.append hothers).enclose .rule

theorem declaration_covers (h : r.Composed Covers) (s : Scope) (i : Item) (rest : List Item) :
    Covers s.eof (i :: rest) [(r.declaration s i rest).1] (r.declaration s i rest).2 := by
  rw [declaration]
  split
  · exact ((declaredPath_composes h s rest).leaf i).enclose .packageDeclaration
  · have hpath := declaredPath_composes h s rest
    have hname := alias?_composes (C := Covers) s (r.declaredPath s rest).2
    exact ((hpath.append hname).leaf i).enclose .importStatement
  · exact ruleAfter_covers h s ((Covers.nil rest).leaf i)
  · exact ruleAfter_covers h s (.nil (i :: rest))
  · exact restOfLine_composes s [] i rest

theorem ruleAfter_length (h : r.Composed Covers) (s : Scope) (before : List Tree) (ts : List Item) :
    (r.ruleAfter s before ts).2.length ≤ (r.head s ts).2.length := by
  have htail := (tail_composes h s (r.head s ts).2).length_le
  have hothers := (alternatives_compose h s (r.tail s (r.head s ts).2).2.length
    (r.tail s (r.head s ts).2).2).length_le
  exact Nat.le_trans hothers htail

theorem head_length_of_identifier (h : r.Composed Covers) (s : Scope) {i : Item}
    (hi : i.kind = .identifier) (rest : List Item) :
    (r.head s (i :: rest)).2.length ≤ rest.length := by
  have hname : (expect .identifier s (i :: rest)).2 = rest := by
    simp only [expect, hi, if_true]
  have hpath := (pathTail_composes h s (expect .identifier s (i :: rest)).2.length
    (expect .identifier s (i :: rest)).2).length_le
  have hargs := (parameters_compose h s (r.pathTail s (expect .identifier s (i :: rest)).2.length
    (expect .identifier s (i :: rest)).2).2).length_le
  have hall : (r.head s (i :: rest)).2.length ≤ (expect .identifier s (i :: rest)).2.length := by
    rw [head_eq]
    exact Nat.le_trans hargs hpath
  rwa [hname] at hall

theorem declaration_length (h : r.Composed Covers) (s : Scope) (i : Item) (rest : List Item) :
    (r.declaration s i rest).2.length ≤ rest.length := by
  rw [declaration]
  split
  · exact (declaredPath_composes h s rest).length_le
  · have hpath := (declaredPath_composes h s rest).length_le
    have hname := (alias?_composes (C := Covers) s (r.declaredPath s rest).2).length_le
    exact Nat.le_trans hname hpath
  · exact Nat.le_trans (ruleAfter_length h s _ rest) (head_covers h s rest).length_le
  -- Here the head begins with the item itself, which is its name.
  case h_4 hi =>
    exact Nat.le_trans (ruleAfter_length h s _ (i :: rest)) (head_length_of_identifier h s hi rest)
  · exact (List.dropWhile_suffix _).length_le

/-- With a round for every item, declarations leave nothing unread. -/
theorem declarations_cover (h : r.Composed Covers) (s : Scope) {rounds : Nat} {ts : List Item}
    (hrounds : ts.length ≤ rounds) : Covers s.eof ts (r.declarations s rounds ts) [] := by
  -- On the rounds: every declaration takes an item, so there is a round for each that is left.
  induction rounds generalizing ts with
  | zero =>
    have hts : ts = [] := List.eq_nil_of_length_eq_zero (Nat.le_zero.mp hrounds)
    subst hts
    exact .nil []
  | succ rounds ih =>
    cases ts with
    | nil => exact .nil []
    | cons i rest =>
      have hnode := declaration_covers h s i rest
      have hlength := declaration_length h s i rest
      rcases hp : r.declaration s i rest with ⟨node, after⟩
      rw [hp] at hnode hlength
      simp only [List.length_cons] at hrounds
      simp only [declarations, hp]
      cases after with
      | nil => exact hnode
      | cons j next =>
        simp only [List.length_cons] at hlength
        simp only
        split
        · exact hnode.append (ih (by simp only [List.length_cons]; omega))
        -- The rest of the line does not begin a declaration.
        · have hwrong := restOfLine_composes (C := Covers) s [] j next
          have hrest : (restOfLine s [] j next).2.length ≤ next.length :=
            (List.dropWhile_suffix _).length_le
          exact hnode.append (hwrong.append (ih (by omega)))

end PolicyEditor.Grammar.Rules
