import PolicyEditor.Proofs.Grammar.ExpressionExtension
import PolicyEditor.Proofs.Grammar.OperandRecast

/-!
Expressions and statements on recast items. Rules for shorter lists that make recast trees of recast
items give rules for longer lists that do, so all of them do.
-/

namespace PolicyEditor.Grammar

namespace Recast

structure Respected (φ : Recast) (r : Rules) : Prop where
  expr : φ.CastsExpr r.expr
  statements : ∀ s closer ts, φ.Intact ts →
    φ.CarriesList (r.statements s closer ts) (r.statements (scope s) closer (ts.map φ.item))

end Recast

namespace Rules

open Recast

variable {φ : Recast} {r : Rules}

section

variable (h : φ.Respected r)
include h

theorem objectItem_recast (s : Scope) : φ.Casts (r.objectItem s) (r.objectItem (scope s)) := by
  intro ts hts hspares
  simp only [objectItem] at hspares
  obtain ⟨hkey, hothers⟩ := Spares.cons_iff.mp hspares.children
  obtain ⟨hkey', hafterKey⟩ := h.expr s setOpLevel ts hts hkey
  obtain ⟨hcolon, hafterColon⟩ := expect_recast (.mark .colon) s hafterKey (by decide)
  obtain ⟨hvalue, hafter⟩ := h.expr s setOpLevel _ hafterColon (Spares.cons_iff.mp hothers).2
  simp only [objectItem, hkey', hcolon, hvalue, parsed, here_scope, tree_enclose]
  exact ⟨rfl, hafter⟩

theorem comprehension_recast (kind : NodeKind) {s : Scope} {head head' : List Item → Parsed}
    (hhead : φ.Casts head head') {closer : Token.Kind} (hcloser : closer ≠ .mark .dot)
    {opener : Item} (hopener : (φ.item opener).kind = opener.kind) {rest : List Item}
    (hrest : φ.Intact rest) :
    φ.Carries (r.comprehension kind head closer s opener rest)
      (r.comprehension kind head' closer (scope s) (φ.item opener) (rest.map φ.item)) := by
  intro hspares
  simp only [comprehension] at hspares
  obtain ⟨hvalue, hothers⟩ := Spares.cons_iff.mp (Spares.cons_iff.mp hspares.children).2
  obtain ⟨hbody, -⟩ := Spares.cons_iff.mp (Spares.cons_iff.mp hothers).2
  obtain ⟨hvalue', hafterHead⟩ := hhead rest hrest hvalue
  obtain ⟨hbar, hafterBar⟩ := expect_recast (.operator .pipe) s hafterHead (by decide)
  obtain ⟨hbody', hafterBody⟩ := h.statements s.statement closer _ hafterBar hbody.children
  obtain ⟨hclose, hafter⟩ := expect_recast closer s hafterBody hcloser
  simp only [comprehension, hvalue', hbar, statement_scope, hbody', hclose, parsed, parsedList,
    here_scope, tree_enclose, List.map_cons, leaf_item hopener]
  exact ⟨rfl, hafter⟩

omit h in
theorem collection_recast (kind : NodeKind) {s : Scope} {one one' : List Item → Parsed}
    (hone : φ.Casts one one') {closer : Token.Kind} (hcloser : closer ≠ .mark .dot)
    {opener : Item} (hopener : (φ.item opener).kind = opener.kind) {rest : List Item}
    (hrest : φ.Intact rest) :
    φ.Carries (collection kind one closer s opener rest)
      (collection kind one' closer (scope s) (φ.item opener) (rest.map φ.item)) := by
  intro hspares
  simp only [collection] at hspares
  obtain ⟨hparts, -⟩ := Spares.append_iff.mp (Spares.cons_iff.mp hspares.children).2
  obtain ⟨hparts', hafterParts⟩ := separated_recast hone closer rest.length hrest hparts
  obtain ⟨hclose, hafter⟩ := expect_recast closer s hafterParts hcloser
  simp only [collection, List.length_map, hparts', hclose, parsed, parsedList, here_scope,
    tree_enclose, List.map_cons, List.map_append, leaf_item hopener]
  exact ⟨rfl, hafter⟩

theorem bracedBody_recast (s : Scope) {opener : Item}
    (hopener : (φ.item opener).kind = opener.kind) {rest : List Item} (hrest : φ.Intact rest) :
    φ.Carries (r.bracedBody s opener rest)
      (r.bracedBody (scope s) (φ.item opener) (rest.map φ.item)) := by
  intro hspares
  simp only [bracedBody] at hspares
  obtain ⟨hbody, -⟩ := Spares.append_iff.mp (Spares.cons_iff.mp hspares.children).2
  obtain ⟨hbody', hafterBody⟩ := h.statements s.statement (.mark .rbrace) rest hrest hbody
  obtain ⟨hclose, hafter⟩ := expect_recast (.mark .rbrace) s hafterBody (by decide)
  simp only [bracedBody, statement_scope, hbody', hclose, parsed, parsedList, here_scope,
    tree_enclose, List.map_cons, List.map_append, leaf_item hopener]
  exact ⟨rfl, hafter⟩

theorem brackets_recast (s : Scope) {opener : Item} {rest : List Item}
    (hts : φ.Intact (opener :: rest)) (hopener : opener.kind = .mark .lbracket) :
    φ.Carries (r.brackets s opener rest)
      (r.brackets (scope s) (φ.item opener) (rest.map φ.item)) := by
  have hrest := hts.tail_of_eq hopener (by decide)
  rw [brackets, brackets, hrest.classifyBracket]
  split
  · exact comprehension_recast h _ (h.expr s.head assignLevel) (by decide) hts.kind_item hrest
  · exact collection_recast _ (h.expr s.bracketed assignLevel) (by decide) hts.kind_item hrest

theorem braces_recast (s : Scope) {opener : Item} {rest : List Item}
    (hts : φ.Intact (opener :: rest)) (hopener : opener.kind = .mark .lbrace) :
    φ.Carries (r.braces s opener rest)
      (r.braces (scope s) (φ.item opener) (rest.map φ.item)) := by
  have hrest := hts.tail_of_eq hopener (by decide)
  rw [braces, braces, hts.classifyBrace hopener]
  split
  · exact comprehension_recast h _ (objectItem_recast h s.head) (by decide) hts.kind_item hrest
  · exact comprehension_recast h _ (h.expr s.head assignLevel) (by decide) hts.kind_item hrest
  · exact collection_recast _ (objectItem_recast h s.bracketed) (by decide) hts.kind_item hrest
  · exact collection_recast _ (h.expr s.bracketed assignLevel) (by decide) hts.kind_item hrest
  · exact bracedBody_recast h s hts.kind_item hrest

theorem parens_recast (s : Scope) {opener : Item} (hopener : (φ.item opener).kind = opener.kind)
    {rest : List Item} (hrest : φ.Intact rest) :
    φ.Carries (r.parens s opener rest)
      (r.parens (scope s) (φ.item opener) (rest.map φ.item)) := by
  intro hspares
  simp only [parens] at hspares
  obtain ⟨hvalue, -⟩ := Spares.cons_iff.mp (Spares.cons_iff.mp hspares.children).2
  obtain ⟨hvalue', hafterValue⟩ := h.expr s.bracketed assignLevel rest hrest hvalue
  obtain ⟨hclose, hafter⟩ := expect_recast (.mark .rparen) s hafterValue (by decide)
  simp only [parens, bracketed_scope, hvalue', hclose, parsed, here_scope, tree_enclose,
    leaf_item hopener]
  exact ⟨rfl, hafter⟩

/-- An operand with what goes on with it. -/
theorem continued_recast (s : Scope) {p p' : Parsed} (hp : φ.Carries p p') :
    φ.Carries (references r.expr s p.2.length p.1 p.2)
      (references r.expr (scope s) p'.2.length p'.1 p'.2) := by
  intro hspares
  obtain ⟨rfl, hafter⟩ := hp (references_spares hspares)
  simp only [parsed, List.length_map]
  exact references_recast h.expr s _ _ hafter hspares

theorem operand_recast (s : Scope) : φ.Casts (r.operand s) (r.operand (scope s)) := by
  intro ts hts
  cases ts with
  | nil => exact carries_missing s .nil
  | cons i rest =>
    simp only [operand, List.map_cons, hts.kind_item, stops_scope]
    split
    · exact carries_missing s hts
    split
    case isTrue hliteral =>
      have hdot : i.kind ≠ .mark .dot := by
        intro hdot
        rw [hdot] at hliteral
        cases hliteral
      have hleaf : φ.Carries (i.leaf, rest) ((φ.item i).leaf, rest.map φ.item) := fun _ =>
        ⟨Prod.ext (leaf_item hts.kind_item) rfl, hts.tail hdot⟩
      exact continued_recast h s hleaf
    split
    case isTrue hi =>
      exact continued_recast h s (parens_recast h s hts.kind_item (hts.tail_of_eq hi (by decide)))
    split
    case isTrue hi => exact continued_recast h s (brackets_recast h s hts hi)
    split
    case isTrue hi => exact continued_recast h s (braces_recast h s hts hi)
    · exact carries_misplaced s hts

theorem expression_recast : φ.CastsExpr r.expression := by
  intro s level ts hts hspares
  simp only [expression] at hspares ⊢
  obtain ⟨hleft, hafter⟩ := unaryWith_recast (operand_recast h s) s ts hts
    (binaryTail_spares hspares)
  rw [hleft]
  simp only [parsed, List.length_map]
  exact binaryTail_recast h.expr s level _ _ hafter hspares

theorem termList_recast (s : Scope) {ts : List Item} (hts : φ.Intact ts) :
    φ.CarriesList (r.termList s ts) (r.termList (scope s) (ts.map φ.item)) := by
  rw [termList, termList, List.length_map]
  exact terms_recast (h.expr s setOpLevel) (ts.length + 1) hts

theorem everyBody_recast (s : Scope) {ts : List Item} (hts : φ.Intact ts) :
    φ.Carries (everyBody r s ts) (everyBody r (scope s) (ts.map φ.item)) := by
  cases ts with
  | nil => exact carries_missing s .nil
  | cons j next =>
    simp only [everyBody, List.map_cons, hts.kind_item]
    split
    case isTrue hj => exact bracedBody_recast h s hts.kind_item (hts.tail_of_eq hj (by decide))
    case isFalse => exact carries_missing s hts

theorem clause_recast (s : Scope) : φ.Casts (r.clause s) (r.clause (scope s)) := by
  intro ts hts
  cases ts with
  | nil => exact expression_recast h s assignLevel [] .nil
  | cons i rest =>
    by_cases hevery : i.kind = .keyword .everyKw
    · rw [List.map_cons, clause_every hevery, clause_every (hts.kind_item.trans hevery)]
      intro hspares
      obtain ⟨hterms, hbody⟩ := Spares.append_iff.mp (Spares.cons_iff.mp hspares.children).2
      obtain ⟨hterms', hafterTerms⟩ :=
        termList_recast h s (hts.tail_of_eq hevery (by decide)) hterms
      rw [hterms']
      obtain ⟨hbody', hafter⟩ := everyBody_recast h s hafterTerms hbody
      simp only [parsedList, hbody', parsed, here_scope, tree_enclose, List.map_cons,
        List.map_append, leaf_item hts.kind_item]
      exact ⟨rfl, hafter⟩
    simp only [clause, List.map_cons, hts.kind_item]
    split
    case h_1 hi =>
      intro hspares
      have hterms := (Spares.cons_iff.mp hspares.children).2
      obtain ⟨hterms', hafter⟩ := termList_recast h s (hts.tail_of_eq hi (by decide)) hterms
      simp only [hterms', parsed, parsedList, here_scope, tree_enclose, List.map_cons,
        leaf_item hts.kind_item]
      exact ⟨trivial, hafter⟩
    case h_2 => contradiction
    case h_3 hi =>
      intro hspares
      have hvalue := (Spares.cons_iff.mp hspares.children).2
      obtain ⟨hvalue', hafter⟩ := h.expr s assignLevel rest (hts.tail_of_eq hi (by decide)) hvalue
      simp only [hvalue', parsed, here_scope, tree_enclose, List.map_cons,
        leaf_item hts.kind_item]
      exact ⟨rfl, hafter⟩
    case h_4 => exact expression_recast h s assignLevel (i :: rest) hts

theorem modifiers_recast (s : Scope) (rounds : Nat) {ts : List Item} (hts : φ.Intact ts) :
    φ.CarriesList (r.modifiers s rounds ts) (r.modifiers (scope s) rounds (ts.map φ.item)) := by
  induction rounds generalizing ts with
  | zero => exact fun _ => ⟨rfl, hts⟩
  | succ rounds ih =>
    cases ts with
    | nil => exact fun _ => ⟨rfl, .nil⟩
    | cons i rest =>
      simp only [modifiers, List.map_cons, hts.kind_item, stops_scope]
      split
      case isTrue hi =>
        rw [Bool.and_eq_true, decide_eq_true_eq] at hi
        intro hspares
        obtain ⟨hnode, hmore⟩ := Spares.cons_iff.mp hspares
        obtain ⟨htarget, hothers⟩ := Spares.cons_iff.mp (Spares.cons_iff.mp hnode.children).2
        obtain ⟨-, hvalue⟩ := Spares.cons_iff.mp hothers
        obtain ⟨htarget', hafterTarget⟩ :=
          h.expr s unaryLevel rest (hts.tail_of_eq hi.1 (by decide)) htarget
        obtain ⟨has, hafterAs⟩ := expect_recast (.keyword .asKw) s hafterTarget (by decide)
        obtain ⟨hvalue', hafterValue⟩ := h.expr s setOpLevel _ hafterAs hvalue
        obtain ⟨hmore', hafter⟩ := ih hafterValue hmore
        simp only [htarget', has, hvalue', parsed, hmore', parsedList, here_scope, tree_enclose,
          List.map_cons, leaf_item hts.kind_item]
        exact ⟨rfl, hafter⟩
      case isFalse => exact fun _ => ⟨rfl, hts⟩

theorem statement_recast (s : Scope) : φ.Casts (r.statement s) (r.statement (scope s)) := by
  intro ts hts hspares
  simp only [statement] at hspares
  obtain ⟨hnode, hparts⟩ := Spares.cons_iff.mp hspares.children
  obtain ⟨hnode', hafterClause⟩ := clause_recast h s (settle ts) hts.settle hnode
  obtain ⟨hparts', hafter⟩ := modifiers_recast h s _ hafterClause hparts
  simp only [statement, Intact.settle_map, hnode', parsed, List.length_map, hparts', parsedList,
    here_scope, tree_enclose, List.map_cons]
  exact ⟨trivial, hafter⟩

omit h in
theorem restOfLine_recast (s : Scope) (stops : List Token.Kind) {i : Item} {rest : List Item}
    (hts : φ.Intact (i :: rest)) :
    φ.Carries (restOfLine s stops i rest)
      (restOfLine (scope s) stops (φ.item i) (rest.map φ.item)) := by
  intro hspares
  simp only [restOfLine] at hspares
  have hunbound := hspares.misplaced
  obtain ⟨hi, hline⟩ := List.forall_mem_cons.mp hunbound
  have hfits : ∀ j : Item, (φ.item j).kind = j.kind →
      (!(φ.item j).newline && !stops.contains (φ.item j).kind) =
        (!j.newline && !stops.contains j.kind) := by
    intro j hj
    rw [hj, newline_item]
  obtain ⟨htake, hdrop, hafter⟩ := (hts.tail_of_unbound hi).span hfits hline
  have hwrong := misplaced_recast s hunbound
  rw [List.map_cons] at hwrong
  simp only [restOfLine, htake, hdrop, hwrong]
  exact ⟨rfl, hafter⟩

theorem statementList_recast (s : Scope) (closer : Token.Kind) (rounds : Nat)
    {ts : List Item} (hts : φ.Intact ts) :
    φ.CarriesList (r.statementList s closer rounds ts)
      (r.statementList (scope s) closer rounds (ts.map φ.item)) := by
  induction rounds generalizing ts with
  | zero => exact fun _ => ⟨rfl, hts⟩
  | succ rounds ih =>
    cases ts with
    | nil => exact fun _ => ⟨rfl, .nil⟩
    | cons i rest =>
      have hnode := statement_recast h s (i :: rest) hts
      rcases hp : r.statement s (i :: rest) with ⟨node, after⟩
      rw [hp, List.map_cons] at hnode
      simp only [statementList, List.map_cons, hts.kind_item, hp]
      split
      · exact fun _ => ⟨rfl, hts⟩
      split
      case isTrue hi =>
        intro hspares
        obtain ⟨hmore, hafter⟩ := ih (hts.tail_of_eq hi (by decide)) (Spares.cons_iff.mp hspares).2
        simp only [hmore, parsedList, leaf_item hts.kind_item]
        exact ⟨rfl, hafter⟩
      split
      · intro hspares
        obtain ⟨hstray, hothers⟩ := Spares.cons_iff.mp hspares
        obtain ⟨hwrong, hrest⟩ := carries_misplaced s hts hstray
        obtain ⟨hmore, hafter⟩ := ih hrest hothers
        rw [(Prod.mk.inj hwrong).1]
        simp only [hmore, parsedList]
        exact ⟨rfl, hafter⟩
      cases after with
      | nil =>
        intro hspares
        obtain ⟨hnode', -⟩ := hnode hspares
        rw [hnode']
        exact ⟨rfl, .nil⟩
      | cons j next =>
        simp only
        by_cases hends : (j.kind = closer || j.kind == .mark .semicolon || j.newline) = true
        · simp only [if_pos hends]
          intro hspares
          obtain ⟨hfirst, hothers⟩ := Spares.cons_iff.mp hspares
          obtain ⟨hnode', hafterNode⟩ := hnode hfirst
          obtain ⟨hmore, hafter⟩ := ih hafterNode hothers
          rw [List.map_cons] at hmore
          rw [hnode']
          simp only [parsed, List.map_cons, hafterNode.kind_item, newline_item, if_pos hends, hmore,
            parsedList]
          exact ⟨trivial, hafter⟩
        · simp only [if_neg hends]
          intro hspares
          obtain ⟨hfirst, hothers⟩ := Spares.cons_iff.mp hspares
          obtain ⟨hwrong, hmore⟩ := Spares.cons_iff.mp hothers
          obtain ⟨hnode', hafterNode⟩ := hnode hfirst
          obtain ⟨hwrong', hafterWrong⟩ := restOfLine_recast s _ hafterNode hwrong
          obtain ⟨hmore', hafter⟩ := ih hafterWrong hmore
          rw [hnode']
          simp only [parsed, List.map_cons, hafterNode.kind_item, newline_item, if_neg hends,
            hwrong', hmore', parsedList]
          exact ⟨trivial, hafter⟩

theorem step_respected : φ.Respected r.step where
  expr := expression_recast h
  statements s closer ts hts := by
    show φ.CarriesList (r.statementList s closer ts.length ts)
      (r.statementList (scope s) closer (ts.map φ.item).length (ts.map φ.item))
    rw [List.length_map]
    exact statementList_recast h s closer ts.length hts

end

theorem upTo_respected (φ : Recast) (n : Nat) : φ.Respected (upTo n) := by
  induction n with
  | zero => exact ⟨fun s _ _ hts => carries_missing s hts, fun _ _ _ hts _ => ⟨rfl, hts⟩⟩
  | succ n ih => exact step_respected ih

end Rules

end PolicyEditor.Grammar
