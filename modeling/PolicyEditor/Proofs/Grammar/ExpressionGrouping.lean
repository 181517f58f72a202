import PolicyEditor.Proofs.Grammar.ExpressionCoverage
import PolicyEditor.Proofs.Grammar.ExpressionShape
import PolicyEditor.Proofs.Grammar.OperandGrouping

/-!
Expressions and statements are grouped by the levels of their operators. Rules that keep to the
levels on lists of fewer than `n` items give rules that keep to them on lists of `n` items.
-/

namespace PolicyEditor.Grammar

open PolicyEditor.Tree (Every EveryOf Grouped Terms bare)

namespace Rules

structure Groups (n : Nat) (r : Rules) : Prop where
  covers : r.Composed Covers
  shapes : r.Shapes
  climbs : ∀ s level ts, ts.length < n → Climbs s level (r.expr s level ts)
  statements : ∀ s closer ts, ts.length < n → EveryOf Grouped (r.statements s closer ts).1

variable {n : Nat} {r : Rules}

theorem Groups.climbing (h : r.Groups n) : Climbing n r.expr :=
  ⟨h.covers.expr, h.shapes.expr, h.climbs⟩

theorem Groups.expr (h : r.Groups n) (s : Scope) (level : Nat) {ts : List Item}
    (hts : ts.length < n) : Every Grouped (r.expr s level ts).1 :=
  (h.climbs s level ts hts).grouped

theorem objectItem_grouped (h : r.Groups n) (s : Scope) {ts : List Item} (hts : ts.length < n) :
    Every Grouped (r.objectItem s ts).1 := by
  have hkey := h.climbing.length_le s setOpLevel ts
  have hcolon := expect_length_le (.mark .colon) s (r.expr s setOpLevel ts).2
  have hvalue : (expect (.mark .colon) s (r.expr s setOpLevel ts).2).2.length < n := by omega
  apply Every.terms rfl
  apply Terms.cons (h.expr s setOpLevel hts) (h.climbing.ne_assign s (Nat.le_refl _) hts)
  apply Terms.cons (expect_grouped _ s _) (expect_ne_assign _ s _)
  exact .cons (h.expr s setOpLevel hvalue) (h.climbing.ne_assign s (Nat.le_refl _) hvalue) .nil

/-- A comprehension of what is grouped. -/
theorem comprehension_grouped (h : r.Groups n) {kind : NodeKind} (hkind : kind.groups = false)
    {s : Scope} {head : List Item → Parsed} (hcovers : ComposesOne Covers s.eof head)
    (hhead : ∀ ts, ts.length < n → Every Grouped (head ts).1) (closer : Token.Kind) (opener : Item)
    {rest : List Item} (hrest : rest.length < n) :
    Every Grouped (r.comprehension kind head closer s opener rest).1 := by
  have hheadLe := Covers.length_le (hcovers rest)
  have hbar := expect_length_le (.operator .pipe) s (head rest).2
  have hbody := h.statements s.statement closer (expect (.operator .pipe) s (head rest).2).2
    (by omega)
  apply Every.plain hkind
  exact ⟨trivial, hhead rest hrest, expect_grouped _ s _, Every.plain rfl hbody _,
    expect_grouped closer s _, trivial⟩

theorem bracedBody_grouped (h : r.Groups n) (s : Scope) (opener : Item) {rest : List Item}
    (hrest : rest.length < n) : Every Grouped (r.bracedBody s opener rest).1 := by
  have hbody := h.statements s.statement (.mark .rbrace) rest hrest
  have hfront : EveryOf Grouped
      (opener.leaf :: (r.statements s.statement (.mark .rbrace) rest).1) := ⟨trivial, hbody⟩
  have hlast : EveryOf Grouped [(expect (.mark .rbrace) s
      (r.statements s.statement (.mark .rbrace) rest).2).1] := ⟨expect_grouped _ s _, trivial⟩
  exact Every.plain rfl (hfront.append hlast) _

theorem brackets_grouped (h : r.Groups n) (s : Scope) (opener : Item) {rest : List Item}
    (hrest : rest.length < n) : Every Grouped (r.brackets s opener rest).1 := by
  rw [brackets]
  split
  · exact comprehension_grouped h rfl (h.covers.expr s.head assignLevel)
      (fun ts hts => h.expr s.head assignLevel hts) _ opener hrest
  · exact collection_grouped rfl (h.covers.expr s.bracketed assignLevel)
      (fun ts hts => h.expr s.bracketed assignLevel hts) _ opener hrest

theorem braces_grouped (h : r.Groups n) (s : Scope) (opener : Item) {rest : List Item}
    (hrest : rest.length < n) : Every Grouped (r.braces s opener rest).1 := by
  rw [braces]
  split
  · exact comprehension_grouped h rfl (objectItem_composes h.covers s.head)
      (fun ts hts => objectItem_grouped h s.head hts) _ opener hrest
  · exact comprehension_grouped h rfl (h.covers.expr s.head assignLevel)
      (fun ts hts => h.expr s.head assignLevel hts) _ opener hrest
  · exact collection_grouped rfl (objectItem_composes h.covers s.bracketed)
      (fun ts hts => objectItem_grouped h s.bracketed hts) _ opener hrest
  · exact collection_grouped rfl (h.covers.expr s.bracketed assignLevel)
      (fun ts hts => h.expr s.bracketed assignLevel hts) _ opener hrest
  · exact bracedBody_grouped h s opener hrest

theorem parens_grouped (h : r.Groups n) (s : Scope) (opener : Item) {rest : List Item}
    (hrest : rest.length < n) : Every Grouped (r.parens s opener rest).1 := by
  apply Every.plain rfl
  exact ⟨trivial, h.expr s.bracketed assignLevel hrest, expect_grouped _ s _, trivial⟩

theorem operand_grouped (h : r.Groups n) (s : Scope) {ts : List Item} (hts : ts.length ≤ n) :
    Every Grouped (r.operand s ts).1 := by
  cases ts with
  | nil => exact missing_grouped s []
  | cons i rest =>
    have hrest : rest.length < n := hts
    -- What goes on with an operand stands over a base.
    have hcontinued : ∀ p : Parsed, Yields false Face.isBase p.1 → Every Grouped p.1 →
        p.2.length ≤ n → Every Grouped (references r.expr s p.2.length p.1 p.2).1 :=
      fun p hbase hp hlength => references_grouped h.climbing p.2.length hbase hp hlength
    rw [operand]
    split
    · exact missing_grouped s (i :: rest)
    split
    case isTrue hi =>
      exact hcontinued (i.leaf, rest) (literal_yields hi) trivial (Nat.le_of_lt hrest)
    split
    case isTrue hi =>
      have hle := Covers.length_le (parens_compose h.covers s i rest)
      exact hcontinued _ (parens_yields h.shapes s hi rest) (parens_grouped h s i hrest) (by omega)
    split
    case isTrue hi =>
      have hle := Covers.length_le (brackets_compose h.covers s i rest)
      exact hcontinued _ (brackets_yields h.shapes s hi rest) (brackets_grouped h s i hrest)
        (by omega)
    split
    case isTrue hi =>
      have hle := Covers.length_le (braces_compose h.covers s i rest)
      exact hcontinued _ (braces_yields h.shapes s hi rest) (braces_grouped h s i hrest) (by omega)
    · exact misplaced_grouped s [i]

theorem expression_climbs (h : r.Groups n) (s : Scope) (level : Nat) {ts : List Item}
    (hts : ts.length ≤ n) : Climbs s level (r.expression s level ts) := by
  have hshapes := operand_yields h.shapes s
  have hleft := unaryWith_yields (s := s) hshapes ts
  have hgrouped := unaryWith_grouped (s := s) hshapes (fun us hus => operand_grouped h s hus) hts
  have hle := Covers.length_le (unaryWith_composes (operand_composes h.covers s) ts)
  have hbare : (bare (unaryWith (r.operand s) s ts).1).kind.isBinary = false := by
    rw [Tree.kind_bare]
    exact not_binary_of_isOperand hleft.face
  apply binaryTail_climbs h.climbing level _ (Nat.le_refl _) (by omega) hleft.shown hgrouped
  · exact Tree.bindsFrom_of_not_binary hbare level
  · exact fun i _ b _ => .inr (.inr (Tree.bindsFrom_of_not_binary hbare b.level))

/-! ### Statements -/

theorem termList_grouped (h : r.Groups n) (s : Scope) {ts : List Item} (hts : ts.length < n) :
    Terms (r.termList s ts).1 :=
  terms_grouped h.climbing (Nat.le_refl _) (ts.length + 1) hts

theorem everyBody_grouped (h : r.Groups n) (s : Scope) {ts : List Item} (hts : ts.length < n) :
    Terms [(everyBody r s ts).1] := by
  cases ts with
  | nil => exact .cons (missing_grouped s []) (enclose_ne_assign (by decide) _ _) .nil
  | cons j next =>
    have hnext : next.length < n := Nat.lt_of_succ_lt hts
    rw [everyBody]
    split
    · exact .cons (bracedBody_grouped h s j hnext) (enclose_ne_assign (by decide) _ _) .nil
    · exact .cons (missing_grouped s (j :: next)) (enclose_ne_assign (by decide) _ _) .nil

theorem clause_grouped (h : r.Groups n) (s : Scope) {ts : List Item} (hts : ts.length ≤ n) :
    Every Grouped (r.clause s ts).1 := by
  cases ts with
  | nil => exact (expression_climbs h s assignLevel hts).grouped
  | cons i rest =>
    have hrest : rest.length < n := hts
    have hterms : Terms (i.leaf :: (r.termList s rest).1) :=
      .cons (leaf_grouped i) (leaf_ne_assign i) (termList_grouped h s hrest)
    by_cases hevery : i.kind = .keyword .everyKw
    · have hle := Covers.length_le (termList_composes h.covers s rest)
      have hafter : (r.termList s rest).2.length < n := by omega
      rw [clause_every hevery]
      exact Every.terms rfl (hterms.append (everyBody_grouped h s hafter)) _
    simp only [clause]
    split
    · exact Every.terms rfl hterms _
    · contradiction
    · have hall : EveryOf Grouped [i.leaf, (r.expr s assignLevel rest).1] :=
        ⟨trivial, h.expr s assignLevel hrest, trivial⟩
      exact Every.plain rfl hall _
    · exact (expression_climbs h s assignLevel hts).grouped

theorem modifiers_grouped (h : r.Groups n) (s : Scope) (rounds : Nat) {ts : List Item}
    (hts : ts.length ≤ n) : EveryOf Grouped (r.modifiers s rounds ts).1 := by
  induction rounds generalizing ts with
  | zero => trivial
  | succ rounds ih =>
    cases ts with
    | nil => trivial
    | cons i rest =>
      rw [List.length_cons] at hts
      rw [modifiers]
      split
      · have htarget := h.climbing.length_le s unaryLevel rest
        have has := expect_length_le (.keyword .asKw) s (r.expr s unaryLevel rest).2
        have hvalue : (expect (.keyword .asKw) s (r.expr s unaryLevel rest).2).2.length < n := by
          omega
        have hafter := h.climbing.length_le s setOpLevel
          (expect (.keyword .asKw) s (r.expr s unaryLevel rest).2).2
        have hlast : (r.expr s setOpLevel
            (expect (.keyword .asKw) s (r.expr s unaryLevel rest).2).2).2.length ≤ n := by omega
        refine ⟨?_, ih hlast⟩
        apply Every.terms rfl
        apply Terms.cons (leaf_grouped i) (leaf_ne_assign i)
        apply Terms.cons (h.expr s unaryLevel hts) (h.climbing.ne_assign s (by decide) hts)
        apply Terms.cons (expect_grouped _ s _) (expect_ne_assign _ s _)
        have hvalueNode := h.climbing.ne_assign s (Nat.le_refl _) hvalue
        exact .cons (h.expr s setOpLevel hvalue) hvalueNode .nil
      · trivial

theorem statement_grouped (h : r.Groups n) (s : Scope) {ts : List Item} (hts : ts.length ≤ n) :
    Every Grouped (r.statement s ts).1 := by
  have hsettled : (settle ts).length ≤ n := by rwa [length_settle]
  have hle := Covers.length_le (clause_composes h.covers s (settle ts))
  have hclause := clause_grouped h s hsettled
  have hafter : (r.clause s (settle ts)).2.length ≤ n := by omega
  apply Every.plain rfl
  exact ⟨hclause, modifiers_grouped h s _ hafter⟩

theorem statementList_grouped (h : r.Groups n) (s : Scope) (closer : Token.Kind) (rounds : Nat)
    {ts : List Item} (hts : ts.length ≤ n) :
    EveryOf Grouped (r.statementList s closer rounds ts).1 := by
  induction rounds generalizing ts with
  | zero => trivial
  | succ rounds ih =>
    cases ts with
    | nil => trivial
    | cons i rest =>
      have hrest : rest.length ≤ n := Nat.le_of_succ_le hts
      rw [statementList]
      split
      · trivial
      split
      · exact ⟨trivial, ih hrest⟩
      split
      · exact ⟨misplaced_grouped s [i], ih hrest⟩
      have hnode := statement_grouped h s hts
      have hle := Covers.length_le (statement_composes h.covers s (i :: rest))
      rcases hp : r.statement s (i :: rest) with ⟨node, after⟩
      rw [hp] at hnode hle
      cases after with
      | nil => exact ⟨hnode, trivial⟩
      | cons j next =>
        have hafter : (j :: next).length ≤ n := Nat.le_trans hle hts
        simp only
        split
        · exact ⟨hnode, ih hafter⟩
        · have hwrong := Covers.length_le
            (restOfLine_composes (C := Covers) s [closer, .mark .semicolon] j next)
          exact ⟨hnode, misplaced_grouped s _, ih (Nat.le_trans hwrong hafter)⟩

theorem step_groups (h : r.Groups n) : r.step.Groups (n + 1) where
  covers := step_compose h.covers
  shapes := step_shapes h.shapes
  climbs s level _ hts := expression_climbs h s level (Nat.le_of_lt_succ hts)
  statements s closer _ hts := statementList_grouped h s closer _ (Nat.le_of_lt_succ hts)

theorem upTo_groups (n : Nat) : (upTo n).Groups n := by
  induction n with
  | zero =>
    exact ⟨upTo_compose 0, upTo_shapes 0, fun _ _ _ hts => absurd hts (Nat.not_lt_zero _),
      fun _ _ _ hts => absurd hts (Nat.not_lt_zero _)⟩
  | succ n ih => exact step_groups ih

end Rules

end PolicyEditor.Grammar
