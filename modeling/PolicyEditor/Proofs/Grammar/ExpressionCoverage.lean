import PolicyEditor.Proofs.Grammar.OperandCoverage

/-!
Expressions and statements are put together from the parts that they read. Rules for shorter lists
of which a property of such parts holds give rules for longer ones, so it holds of all of them; how
many items a list may have plays no part.
-/

namespace PolicyEditor.Grammar

open Composes (nil leaf append enclose settled)

variable {C : Account} [Composes C]

theorem restOfLine_composes (s : Scope) (stops : List Token.Kind) (i : Item) (rest : List Item) :
    C s.eof (i :: rest) [(restOfLine s stops i rest).1] (restOfLine s stops i rest).2 := by
  have h := misplaced_composes (C := C) s i
    (rest.takeWhile fun j => !j.newline && !stops.contains j.kind)
    (rest.dropWhile fun j => !j.newline && !stops.contains j.kind)
  rwa [List.cons_append, List.takeWhile_append_dropWhile] at h

namespace Rules

structure Composed (C : Account) (r : Rules) : Prop where
  expr : ComposesExpr C r.expr
  statements : ∀ s closer ts, C s.eof ts (r.statements s closer ts).1 (r.statements s closer ts).2

variable {r : Rules}

theorem objectItem_composes (h : r.Composed C) (s : Scope) :
    ComposesOne C s.eof (r.objectItem s) := by
  intro ts
  have hkey := h.expr s setOpLevel ts
  have hcolon := expect_composes (C := C) (.mark .colon) s (r.expr s setOpLevel ts).2
  have hvalue := h.expr s setOpLevel (expect (.mark .colon) s (r.expr s setOpLevel ts).2).2
  exact enclose .objectItem rfl (append hkey (append hcolon hvalue))

theorem comprehension_composes (h : r.Composed C) {kind : NodeKind} (hkind : kind.isHeading = false)
    {s : Scope} {head : List Item → Parsed} (hhead : ComposesOne C s.eof head)
    (closer : Token.Kind) (opener : Item) (rest : List Item) :
    C s.eof (opener :: rest) [(r.comprehension kind head closer s opener rest).1]
      (r.comprehension kind head closer s opener rest).2 := by
  have hvalue := hhead rest
  have hbar := expect_composes (C := C) (.operator .pipe) s (head rest).2
  have hbody := h.statements s.statement closer (expect (.operator .pipe) s (head rest).2).2
  have hclose := expect_composes (C := C) closer s
    (r.statements s.statement closer (expect (.operator .pipe) s (head rest).2).2).2
  have hparts := append hvalue (append hbar (append (enclose (s := s) .body rfl hbody) hclose))
  exact enclose kind hkind (leaf opener hparts)

theorem collection_composes {kind : NodeKind} (hkind : kind.isHeading = false) {s : Scope}
    {one : List Item → Parsed} (hone : ComposesOne C s.eof one) (closer : Token.Kind)
    (opener : Item) (rest : List Item) :
    C s.eof (opener :: rest) [(collection kind one closer s opener rest).1]
      (collection kind one closer s opener rest).2 := by
  have hparts := separated_composes hone closer rest.length rest
  have hclose := expect_composes (C := C) closer s (separated one closer rest.length rest).2
  exact enclose kind hkind (append (leaf opener hparts) hclose)

theorem bracedBody_composes (h : r.Composed C) (s : Scope) (opener : Item) (rest : List Item) :
    C s.eof (opener :: rest) [(r.bracedBody s opener rest).1]
      (r.bracedBody s opener rest).2 := by
  have hbody := h.statements s.statement (.mark .rbrace) rest
  have hclose := expect_composes (C := C) (.mark .rbrace) s
    (r.statements s.statement (.mark .rbrace) rest).2
  exact enclose .body rfl (append (leaf opener hbody) hclose)

theorem brackets_compose (h : r.Composed C) (s : Scope) (opener : Item) (rest : List Item) :
    C s.eof (opener :: rest) [(r.brackets s opener rest).1] (r.brackets s opener rest).2 := by
  rw [brackets]
  split
  · exact comprehension_composes h rfl (h.expr s.head assignLevel) _ opener rest
  · exact collection_composes rfl (h.expr s.bracketed assignLevel) _ opener rest

theorem braces_compose (h : r.Composed C) (s : Scope) (opener : Item) (rest : List Item) :
    C s.eof (opener :: rest) [(r.braces s opener rest).1] (r.braces s opener rest).2 := by
  rw [braces]
  split
  · exact comprehension_composes h rfl (objectItem_composes h s.head) _ opener rest
  · exact comprehension_composes h rfl (h.expr s.head assignLevel) _ opener rest
  · exact collection_composes rfl (objectItem_composes h s.bracketed) _ opener rest
  · exact collection_composes rfl (h.expr s.bracketed assignLevel) _ opener rest
  · exact bracedBody_composes h s opener rest

theorem parens_compose (h : r.Composed C) (s : Scope) (opener : Item) (rest : List Item) :
    C s.eof (opener :: rest) [(r.parens s opener rest).1] (r.parens s opener rest).2 := by
  have hvalue := h.expr s.bracketed assignLevel rest
  have hclose := expect_composes (C := C) (.mark .rparen) s (r.expr s.bracketed assignLevel rest).2
  exact enclose .parenExpression rfl (leaf opener (append hvalue hclose))

theorem operand_composes (h : r.Composed C) (s : Scope) : ComposesOne C s.eof (r.operand s) := by
  intro ts
  cases ts with
  | nil => exact missing_composes s []
  | cons i rest =>
    rw [operand]
    split
    · exact missing_composes s (i :: rest)
    split
    · exact references_compose h.expr s _ (leaf i (nil rest))
    split
    · exact references_compose h.expr s _ (parens_compose h s i rest)
    split
    · exact references_compose h.expr s _ (brackets_compose h s i rest)
    split
    · exact references_compose h.expr s _ (braces_compose h s i rest)
    · exact misplaced_composes s i [] rest

theorem expression_composes (h : r.Composed C) (s : Scope) (level : Nat) :
    ComposesOne C s.eof (r.expression s level) := by
  intro ts
  have hleft := unaryWith_composes (operand_composes h s) ts
  exact binaryTail_composes h.expr s level _ hleft

theorem termList_composes (h : r.Composed C) (s : Scope) (ts : List Item) :
    C s.eof ts (r.termList s ts).1 (r.termList s ts).2 :=
  terms_composes (h.expr s setOpLevel) (ts.length + 1) ts

def everyBody (r : Rules) (s : Scope) : List Item → Parsed
  | [] => (missing s [], [])
  | j :: next =>
    if j.kind = .mark .lbrace then r.bracedBody s j next else (missing s (j :: next), j :: next)

theorem clause_every {s : Scope} {i : Item} (hi : i.kind = .keyword .everyKw) (rest : List Item) :
    r.clause s (i :: rest) =
      (.enclose .everyExpression (s.here (everyBody r s (r.termList s rest).2).2)
        (i.leaf :: (r.termList s rest).1 ++ [(everyBody r s (r.termList s rest).2).1]),
        (everyBody r s (r.termList s rest).2).2) := by
  simp only [clause, hi]
  cases (r.termList s rest).2 <;> rfl

theorem everyBody_composes (h : r.Composed C) (s : Scope) (ts : List Item) :
    C s.eof ts [(everyBody r s ts).1] (everyBody r s ts).2 := by
  cases ts with
  | nil => exact missing_composes s []
  | cons j next =>
    rw [everyBody]
    split
    · exact bracedBody_composes h s j next
    · exact missing_composes s (j :: next)

theorem clause_composes (h : r.Composed C) (s : Scope) : ComposesOne C s.eof (r.clause s) := by
  intro ts
  cases ts with
  | nil => exact expression_composes h s assignLevel []
  | cons i rest =>
    by_cases hevery : i.kind = .keyword .everyKw
    · have hterms := termList_composes h s rest
      have hbody := everyBody_composes h s (r.termList s rest).2
      rw [clause_every hevery]
      exact enclose .everyExpression rfl (append (leaf i hterms) hbody)
    simp only [clause]
    split
    · exact enclose .someDeclaration rfl (leaf i (termList_composes h s rest))
    · contradiction
    · exact enclose .negation rfl (leaf i (h.expr s assignLevel rest))
    · exact expression_composes h s assignLevel (i :: rest)

theorem modifiers_compose (h : r.Composed C) (s : Scope) (rounds : Nat) (ts : List Item) :
    C s.eof ts (r.modifiers s rounds ts).1 (r.modifiers s rounds ts).2 := by
  induction rounds generalizing ts with
  | zero => exact nil ts
  | succ rounds ih =>
    cases ts with
    | nil => exact nil []
    | cons i rest =>
      rw [modifiers]
      split
      · have htarget := h.expr s unaryLevel rest
        have has := expect_composes (C := C) (.keyword .asKw) s (r.expr s unaryLevel rest).2
        have hvalue := h.expr s setOpLevel
          (expect (.keyword .asKw) s (r.expr s unaryLevel rest).2).2
        have hmodifier := enclose .withModifier rfl (leaf i (append htarget (append has hvalue)))
        exact append hmodifier (ih _)
      · exact nil (i :: rest)

theorem statement_composes (h : r.Composed C) (s : Scope) :
    ComposesOne C s.eof (r.statement s) := by
  intro ts
  have hclause := settled (clause_composes h s (settle ts))
  have hmodifiers := modifiers_compose h s (r.clause s (settle ts)).2.length
    (r.clause s (settle ts)).2
  exact enclose .statement rfl (append hclause hmodifiers)

theorem statementList_closer (s : Scope) {closer : Token.Kind} (rounds : Nat) (i : Item)
    (hi : i.kind = closer) (rest : List Item) :
    r.statementList s closer rounds (i :: rest) = ([], i :: rest) := by
  cases rounds with
  | zero => rfl
  | succ rounds => rw [statementList, if_pos hi]

theorem statementList_composes (h : r.Composed C) (s : Scope) (closer : Token.Kind) (rounds : Nat)
    (ts : List Item) :
    C s.eof ts (r.statementList s closer rounds ts).1
      (r.statementList s closer rounds ts).2 := by
  induction rounds generalizing ts with
  | zero => exact nil ts
  | succ rounds ih =>
    cases ts with
    | nil => exact nil []
    | cons i rest =>
      rw [statementList]
      split
      · exact nil (i :: rest)
      split
      · exact leaf i (ih rest)
      split
      · exact append (misplaced_composes s i [] rest) (ih rest)
      have hnode := statement_composes h s (i :: rest)
      rcases hp : r.statement s (i :: rest) with ⟨node, after⟩
      rw [hp] at hnode
      cases after with
      | nil => exact hnode
      | cons j next =>
        simp only
        split
        · exact append hnode (ih (j :: next))
        · have hwrong := restOfLine_composes (C := C) s [closer, .mark .semicolon] j next
          exact append hnode (append hwrong (ih _))

theorem step_compose (h : r.Composed C) : r.step.Composed C where
  expr s level := expression_composes h s level
  statements s closer ts := statementList_composes h s closer ts.length ts

theorem upTo_compose (n : Nat) : (upTo n).Composed C := by
  induction n with
  | zero => exact ⟨fun s _ ts => missing_composes s ts, fun _ _ ts => nil ts⟩
  | succ n ih => exact step_compose ih

end Rules

end PolicyEditor.Grammar
