import PolicyEditor.Proofs.Grammar.OperandShape

/-!
Expressions and statements are well formed. Rules for shorter lists that make well formed nodes give
rules for longer ones that do.
-/

namespace PolicyEditor.Grammar

open PolicyEditor.Tree (facesOf facesOf_append)

namespace Rules

/-- The rules make expressions of their level, and lists of statements hold neither brackets nor
invalid tokens of their own. -/
structure Shapes (r : Rules) : Prop where
  expr : YieldsExpr r.expr
  statements : ∀ s closer ts, YieldsAll AllLevel (r.statements s closer ts).1

variable {r : Rules}

theorem objectItem_yields (h : r.Shapes) (s : Scope) :
    YieldsOne (Face.isNode .objectItem) (r.objectItem s) := by
  intro ts
  have hkey := h.expr s setOpLevel ts
  have hcolon : Yields false _ (expect (.mark .colon) s (r.expr s setOpLevel ts).2).1 :=
    expect_yields rfl s _
  have hvalue := h.expr s setOpLevel (expect (.mark .colon) s (r.expr s setOpLevel ts).2).2
  refine .shaped ?_ rfl (hkey.cons (hcolon.cons hvalue.formed)) rfl _
  rw [hkey.faces_cons, hcolon.faces_cons, hvalue.faces_cons]
  exact .objectItem (Face.isExpr_of_isExprAt hkey.face) hcolon.face
    (Face.isExpr_of_isExprAt hvalue.face)

theorem comprehension_yields (h : r.Shapes) {k : NodeKind} {e : Enclosure}
    (he : k.comprehension? = some e) {head : List Item → Parsed} (hhead : YieldsOne e.item head)
    (s : Scope) {opener : Item} (hopener : opener.kind = .mark e.opener) (rest : List Item) :
    Yields false Face.isBase (r.comprehension k head (.mark e.closer) s opener rest).1 := by
  have hleaf : Yields false _ opener.leaf := Item.leaf_yields hopener rfl
  have hvalue := hhead rest
  have hbar : Yields false _ (expect (.operator .pipe) s (head rest).2).1 := expect_yields rfl s _
  have hstatements := h.statements s.statement (.mark e.closer)
    (expect (.operator .pipe) s (head rest).2).2
  have hbody : Yields false Face.isLevel (.enclose .body
      (s.here (r.statements s.statement (.mark e.closer)
        (expect (.operator .pipe) s (head rest).2).2).2)
      (r.statements s.statement (.mark e.closer)
        (expect (.operator .pipe) s (head rest).2).2).1) :=
    .free .body rfl (.of_level hstatements.faces) hstatements.formed rfl _
  have hcloser : Yields false _ (expect (.mark e.closer) s (r.statements s.statement
      (.mark e.closer) (expect (.operator .pipe) s (head rest).2).2).2).1 := expect_yields rfl s _
  have hkind : k.isFree = false ∧ k.isComposite = true := by
    unfold NodeKind.comprehension? at he
    split at he <;> first | exact ⟨rfl, rfl⟩ | cases he
  have hall := hleaf.cons (hvalue.cons (hbar.cons (hbody.cons hcloser.formed)))
  refine .shaped ?_ hkind.1 hall hkind.2 _
  rw [hleaf.faces_cons, hvalue.faces_cons, hbar.faces_cons, hbody.faces_cons, hcloser.faces_cons]
  exact .comprehension he hleaf.face hvalue.face hbar.face hcloser.face

theorem bracedBody_yields (h : r.Shapes) (s : Scope) {opener : Item}
    (hopener : opener.kind = .mark .lbrace) (rest : List Item) :
    Yields false (Face.isNode .body) (r.bracedBody s opener rest).1 := by
  have hleaf : Yields false _ opener.leaf := Item.leaf_yields hopener rfl
  have hbody := h.statements s.statement (.mark .rbrace) rest
  have hcloser : Yields false _ (expect (.mark .rbrace) s
      (r.statements s.statement (.mark .rbrace) rest).2).1 := expect_yields rfl s _
  have hall := (hleaf.cons hbody.formed).append hcloser.formed
  refine .free .body rfl ?_ hall rfl _
  rw [facesOf_append, hleaf.faces_cons, hcloser.faces_cons]
  exact .group _ rfl hleaf.face hbody.faces hcloser.face

theorem isBase_of_isNode {k : NodeKind} (hk : k.isComposite = true) {f : Face}
    (h : f.isNode k = true) : f.isBase = true := by
  cases f with
  | leaf => cases h
  | node l e =>
    rw [Face.isNode, Bool.and_eq_true, beq_iff_eq] at h
    rw [Face.isBase, h.1, hk]

theorem brackets_yields (h : r.Shapes) (s : Scope) {opener : Item}
    (hopener : opener.kind = .mark .lbracket) (rest : List Item) :
    Yields false Face.isBase (r.brackets s opener rest).1 := by
  rw [brackets]
  split
  · exact comprehension_yields h (e := ⟨.lbracket, .rbracket, Face.isExpr⟩) rfl
      (h.expr s.head assignLevel) s hopener rest
  · exact collection_yields (e := ⟨.lbracket, .rbracket, Face.isExpr⟩) rfl
      (h.expr s.bracketed assignLevel) s hopener rest rfl

theorem braces_yields (h : r.Shapes) (s : Scope) {opener : Item}
    (hopener : opener.kind = .mark .lbrace) (rest : List Item) :
    Yields false Face.isBase (r.braces s opener rest).1 := by
  rw [braces]
  split
  · exact comprehension_yields h (e := ⟨.lbrace, .rbrace, Face.isNode .objectItem⟩) rfl
      (objectItem_yields h s.head) s hopener rest
  · exact comprehension_yields h (e := ⟨.lbrace, .rbrace, Face.isExpr⟩) rfl
      (h.expr s.head assignLevel) s hopener rest
  · exact collection_yields (e := ⟨.lbrace, .rbrace, Face.isNode .objectItem⟩) rfl
      (objectItem_yields h s.bracketed) s hopener rest rfl
  · exact collection_yields (e := ⟨.lbrace, .rbrace, Face.isExpr⟩) rfl
      (h.expr s.bracketed assignLevel) s hopener rest rfl
  · exact (bracedBody_yields h s hopener rest).mono (isBase_of_isNode rfl)

theorem parens_yields (h : r.Shapes) (s : Scope) {opener : Item}
    (hopener : opener.kind = .mark .lparen) (rest : List Item) :
    Yields false Face.isBase (r.parens s opener rest).1 := by
  have hleaf : Yields false _ opener.leaf := Item.leaf_yields hopener rfl
  have hvalue := h.expr s.bracketed assignLevel rest
  have hcloser : Yields false _ (expect (.mark .rparen) s
      (r.expr s.bracketed assignLevel rest).2).1 := expect_yields rfl s _
  refine .shaped ?_ rfl (hleaf.cons (hvalue.cons hcloser.formed)) rfl _
  rw [hleaf.faces_cons, hvalue.faces_cons, hcloser.faces_cons]
  exact .paren hleaf.face hvalue.face hcloser.face

theorem isTrivia_of_isLiteral {k : Token.Kind} (h : k.isLiteral = true) :
    k.isTrivia = false := by
  unfold Token.Kind.isLiteral at h
  split at h <;> first | rfl | cases h

theorem literal_yields {i : Item} (hi : i.kind.isLiteral = true) :
    Yields false Face.isBase i.leaf := by
  refine (Item.leaf_yields rfl (isTrivia_of_isLiteral hi)).mono fun _ => ?_
  have hliteral : i.token.kind.isLiteral = true := hi
  show (NodeKind.ofToken i.token.kind == .ofToken i.token.kind && i.token.kind.isLiteral) = true
  rw [beq_self_eq_true, hliteral, Bool.and_self]

theorem operand_yields (h : r.Shapes) (s : Scope) : YieldsOne Face.isOperand (r.operand s) := by
  intro ts
  cases ts with
  | nil => exact missing_yields rfl s []
  | cons i rest =>
    -- What goes on with an operand keeps it one.
    have hcontinued : ∀ (rounds : Nat) (p : Parsed), Yields false Face.isBase p.1 →
        Yields false Face.isOperand (references r.expr s rounds p.1 p.2).1 := fun rounds p hp =>
      (references_yields h.expr s rounds hp p.2).mono Face.isOperand_of_isBase
    rw [operand]
    split
    · exact missing_yields rfl s (i :: rest)
    split
    case isTrue hi => exact hcontinued _ (i.leaf, rest) (literal_yields hi)
    split
    case isTrue hi => exact hcontinued _ _ (parens_yields h s hi rest)
    split
    case isTrue hi => exact hcontinued _ _ (brackets_yields h s hi rest)
    split
    case isTrue hi => exact hcontinued _ _ (braces_yields h s hi rest)
    · exact misplaced_yields rfl s i []

theorem expression_yields (h : r.Shapes) (s : Scope) (level : Nat) :
    YieldsOne (Face.isExprAt level) (r.expression s level) := by
  intro ts
  have hleft := unaryWith_yields (operand_yields h s) (s := s) ts
  exact binaryTail_yields h.expr s level _ (hleft.mono Face.isExprAt_of_isOperand) _

theorem termList_yields (h : r.Shapes) (s : Scope) (ts : List Item) :
    YieldsAll AllLevel (r.termList s ts).1 :=
  (terms_yields (h.expr s setOpLevel) (ts.length + 1) ts).mono fun _ hfs =>
    hfs.isLevel fun _ => Face.isLevel_of_isExprAt

theorem everyBody_yields (h : r.Shapes) (s : Scope) (ts : List Item) :
    Yields false Face.isLevel (everyBody r s ts).1 := by
  cases ts with
  | nil => exact missing_yields rfl s []
  | cons j next =>
    rw [everyBody]
    split
    case isTrue hj => exact (bracedBody_yields h s hj next).mono Face.isLevel_of_isNode
    case isFalse => exact missing_yields rfl s (j :: next)

theorem clause_yields (h : r.Shapes) (s : Scope) : YieldsOne Face.isClause (r.clause s) := by
  intro ts
  have hexpr : ∀ us, Yields false Face.isClause (r.expression s assignLevel us).1 := fun us =>
    (expression_yields h s assignLevel us).mono fun hface => by
      have hexpr : Face.isExpr _ = true := hface
      rw [Face.isClause, hexpr, Bool.true_or, Bool.true_or, Bool.true_or]
  cases ts with
  | nil => exact hexpr []
  | cons i rest =>
    by_cases hevery : i.kind = .keyword .everyKw
    · have hword : Yields false _ i.leaf := Item.leaf_yields hevery rfl
      have hterms := termList_yields h s rest
      have hbody := everyBody_yields h s (r.termList s rest).2
      have hall := (hword.cons hterms.formed).append hbody.formed
      rw [clause_every hevery]
      refine .free .everyExpression rfl ?_ hall rfl _
      rw [facesOf_append, hword.faces_cons, hbody.faces_cons]
      refine .append (.level (Face.isLevel_of_isToken rfl hword.face) (.of_level hterms.faces)) ?_
      exact .level hbody.face .nil
    simp only [clause]
    split
    case h_1 hi =>
      have hword : Yields false _ i.leaf := Item.leaf_yields hi rfl
      have hterms := termList_yields h s rest
      refine .free .someDeclaration rfl ?_ (hword.cons hterms.formed) rfl _
      rw [hword.faces_cons]
      exact .level (Face.isLevel_of_isToken rfl hword.face) (.of_level hterms.faces)
    case h_2 hi => exact absurd hi hevery
    case h_3 hi =>
      have hword : Yields false _ i.leaf := Item.leaf_yields hi rfl
      have hvalue := h.expr s assignLevel rest
      refine .shaped ?_ rfl (hword.cons hvalue.formed) rfl _
      rw [hword.faces_cons, hvalue.faces_cons]
      exact .negation hword.face hvalue.face
    case h_4 => exact hexpr (i :: rest)

theorem modifiers_yields (h : r.Shapes) (s : Scope) (rounds : Nat) (ts : List Item) :
    YieldsAll (fun fs => ∀ f ∈ fs, f.isNode .withModifier = true)
      (r.modifiers s rounds ts).1 := by
  induction rounds generalizing ts with
  | zero => exact .nil (List.forall_mem_nil _)
  | succ rounds ih =>
    cases ts with
    | nil => exact .nil (List.forall_mem_nil _)
    | cons i rest =>
      rw [modifiers]
      split
      case isTrue hi =>
        have hkind : i.kind = .keyword .withKw := by
          simp only [Bool.and_eq_true, decide_eq_true_eq] at hi
          exact hi.1
        have hword : Yields false _ i.leaf := Item.leaf_yields hkind rfl
        have htarget := h.expr s unaryLevel rest
        have has : Yields false _ (expect (.keyword .asKw) s (r.expr s unaryLevel rest).2).1 :=
          expect_yields rfl s _
        have hvalue := h.expr s setOpLevel
          (expect (.keyword .asKw) s (r.expr s unaryLevel rest).2).2
        have hmore := ih (r.expr s setOpLevel
          (expect (.keyword .asKw) s (r.expr s unaryLevel rest).2).2).2
        have hall := hword.cons (htarget.cons (has.cons hvalue.formed))
        have hnode : Yields false (Face.isNode .withModifier) (.enclose .withModifier
            (s.here (r.expr s setOpLevel
              (expect (.keyword .asKw) s (r.expr s unaryLevel rest).2).2).2)
            [i.leaf, (r.expr s unaryLevel rest).1,
              (expect (.keyword .asKw) s (r.expr s unaryLevel rest).2).1,
              (r.expr s setOpLevel (expect (.keyword .asKw) s (r.expr s unaryLevel rest).2).2).1]) := by
          refine .shaped ?_ rfl hall rfl _
          rw [hword.faces_cons, htarget.faces_cons, has.faces_cons, hvalue.faces_cons]
          exact .withModifier hword.face (Face.isOperand_of_isExprAt htarget.face) has.face
            (Face.isExpr_of_isExprAt hvalue.face)
        refine ⟨hnode.cons hmore.formed, ?_⟩
        rw [hnode.faces_cons]
        exact List.forall_mem_cons.mpr ⟨hnode.face, hmore.faces⟩
      case isFalse => exact .nil (List.forall_mem_nil _)

theorem statement_yields (h : r.Shapes) (s : Scope) :
    YieldsOne (Face.isNode .statement) (r.statement s) := by
  intro ts
  have hclause := clause_yields h s (settle ts)
  have hmodifiers := modifiers_yields h s (r.clause s (settle ts)).2.length
    (r.clause s (settle ts)).2
  refine .shaped ?_ rfl (hclause.cons hmodifiers.formed) rfl _
  rw [hclause.faces_cons]
  exact .statement hclause.face hmodifiers.faces

theorem restOfLine_yields (s : Scope) (stops : List Token.Kind) (i : Item) (rest : List Item) :
    Yields false Face.isLevel (restOfLine s stops i rest).1 :=
  misplaced_yields rfl s i _

theorem AllLevel.cons {f : Face} {fs : List Face} (hf : f.isLevel = true) (h : AllLevel fs) :
    AllLevel (f :: fs) :=
  List.forall_mem_cons.mpr ⟨hf, h⟩

/-- A node that brings neither brackets nor invalid tokens, and those after it. -/
theorem Yields.before {p : Face → Bool} {t : Tree} (ht : Yields false p t)
    (hp : p t.face = true → t.face.isLevel = true) {cs : List Tree} (h : YieldsAll AllLevel cs) :
    YieldsAll AllLevel (t :: cs) := by
  refine ⟨ht.cons h.formed, ?_⟩
  rw [ht.faces_cons]
  exact AllLevel.cons (hp ht.face) h.faces

theorem statementList_yields (h : r.Shapes) (s : Scope) (closer : Token.Kind) (rounds : Nat)
    (ts : List Item) : YieldsAll AllLevel (r.statementList s closer rounds ts).1 := by
  induction rounds generalizing ts with
  | zero => exact .nil (List.forall_mem_nil _)
  | succ rounds ih =>
    cases ts with
    | nil => exact .nil (List.forall_mem_nil _)
    | cons i rest =>
      rw [statementList]
      split
      · exact .nil (List.forall_mem_nil _)
      split
      case isTrue hi =>
        have hmark : Yields false _ i.leaf := Item.leaf_yields hi rfl
        exact Yields.before hmark (Face.isLevel_of_isToken rfl) (ih rest)
      split
      · have hwrong : Yields false Face.isLevel (misplaced s [i]) := misplaced_yields rfl s i []
        exact Yields.before hwrong id (ih rest)
      have hnode := statement_yields h s (i :: rest)
      rcases hp : r.statement s (i :: rest) with ⟨node, after⟩
      rw [hp] at hnode
      cases after with
      | nil => exact Yields.before hnode Face.isLevel_of_isNode (.nil (List.forall_mem_nil _))
      | cons j next =>
        simp only
        split
        · exact Yields.before hnode Face.isLevel_of_isNode (ih (j :: next))
        · have hwrong := restOfLine_yields s [closer, .mark .semicolon] j next
          exact Yields.before hnode Face.isLevel_of_isNode (Yields.before hwrong id (ih _))

theorem step_shapes (h : r.Shapes) : r.step.Shapes where
  expr s level := expression_yields h s level
  statements s closer ts := statementList_yields h s closer ts.length ts

theorem upTo_shapes (n : Nat) : (upTo n).Shapes := by
  induction n with
  | zero => exact ⟨fun s _ ts => missing_yields rfl s ts, fun _ _ _ => .nil (List.forall_mem_nil _)⟩
  | succ n ih => exact step_shapes ih

end Rules

end PolicyEditor.Grammar
