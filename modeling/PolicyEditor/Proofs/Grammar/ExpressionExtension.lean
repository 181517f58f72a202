import PolicyEditor.Proofs.Grammar.OperandExtension

/-!
Expressions and statements in a longer text. Rules for shorter lists that make the same of a text
and of the same text within a longer one give rules for longer lists that do, so all of them do.
-/

namespace PolicyEditor.Grammar

open PolicyEditor.Tree (cleanAll)

namespace Extension

/-- The second rules make of fewer than `n` items in the longer text what the first ones make of
them in the text. Statements end at the bracket that the caller waits for. -/
structure Agrees (x : Extension) (n : Nat) (r r' : Rules) : Prop where
  expr : x.ExtendsExpr n r.expr r'.expr
  statements : ∀ s closer ts, x.Fits n ts → x.Admits (r.statements s closer ts).1 →
    x.EndsAt closer (r.statements s closer ts).2 →
    r'.statements (x.scope s) closer (x.items ts) = x.parsedList (r.statements s closer ts)

end Extension

namespace Rules

open Extension

variable {x : Extension} {n : Nat} {r r' : Rules}

section

variable (h : x.Agrees n r r')
include h

theorem objectItem_extends (hr : r.Composed Covers) (s : Scope) :
    x.Extends n (r.objectItem s) (r'.objectItem (x.scope s)) := by
  intro ts hts hclean
  simp only [objectItem] at hclean
  obtain ⟨hkey, hrest⟩ := Admits.cons_iff.mp hclean.children
  obtain ⟨hcolon, hvalue⟩ := Admits.cons_iff.mp hrest
  have hafterKey := hts.of_covers (hr.expr s setOpLevel ts)
  have hafterColon := hafterKey.of_covers (expect_composes (.mark .colon) s _)
  simp only [objectItem, h.expr s _ _ hts hkey, expect_extends hcolon,
    h.expr s _ _ hafterColon hvalue, parsed, tree_enclose]
  rfl

theorem comprehension_extends (kind : NodeKind) {s : Scope} {head head' : List Item → Parsed}
    (hhead : x.Extends n head head') (hcovers : ComposesOne Covers s.eof head) (closer : Token.Kind)
    (opener : Item) {rest : List Item} (hrest : x.Fits n rest)
    (hclean : x.Admits [(r.comprehension kind head closer s opener rest).1]) :
    r'.comprehension kind head' closer (x.scope s) (opener.shift x.offset) (x.items rest) =
      x.parsed (r.comprehension kind head closer s opener rest) := by
  simp only [comprehension] at hclean
  obtain ⟨hvalue, hparts⟩ := Admits.cons_iff.mp (Admits.cons_iff.mp hclean.children).2
  obtain ⟨hbar, hparts⟩ := Admits.cons_iff.mp hparts
  obtain ⟨hbody, hclose⟩ := Admits.cons_iff.mp hparts
  have hafterHead := hrest.of_covers (hcovers rest)
  have hafterBar := hafterHead.of_covers (expect_composes (.operator .pipe) s _)
  have hend := endsAt_of_expect hclose
  -- The body stands where the closing bracket does if there is nothing in it.
  have hhere := here_scope s hend.ne_nil
  simp only [comprehension, hhead rest hrest hvalue, expect_extends hbar, statement_scope,
    h.statements _ closer _ hafterBar hbody.children hend, expect_extends hclose, parsed,
    parsedList, tree_enclose, List.map_cons, hhere]
  rfl

omit h in
theorem collection_extends (kind : NodeKind) {s : Scope} {one one' : List Item → Parsed}
    (hone : x.Extends n one one') (hcovers : ComposesOne Covers s.eof one) (closer : Token.Kind)
    (opener : Item) {rest : List Item} (hrest : x.Fits n rest)
    (hclean : x.Admits [(collection kind one closer s opener rest).1]) :
    collection kind one' closer (x.scope s) (opener.shift x.offset) (x.items rest) =
      x.parsed (collection kind one closer s opener rest) := by
  simp only [collection] at hclean
  obtain ⟨hparts, hclose⟩ := Admits.append_iff.mp (Admits.cons_iff.mp hclean.children).2
  have hseparated := separated_extends hone hcovers hrest hparts (endsAt_of_expect hclose)
  simp only [collection, length_items, hseparated, expect_extends hclose, parsed, parsedList,
    tree_enclose, List.map_append]
  rfl

theorem bracedBody_extends (s : Scope) (opener : Item) {rest : List Item} (hrest : x.Fits n rest)
    (hclean : x.Admits [(r.bracedBody s opener rest).1]) :
    r'.bracedBody (x.scope s) (opener.shift x.offset) (x.items rest) =
      x.parsed (r.bracedBody s opener rest) := by
  simp only [bracedBody] at hclean
  obtain ⟨hbody, hclose⟩ := Admits.append_iff.mp (Admits.cons_iff.mp hclean.children).2
  simp only [bracedBody, statement_scope,
    h.statements _ _ _ hrest hbody (endsAt_of_expect hclose), expect_extends hclose, parsed,
    parsedList, tree_enclose, List.map_append]
  rfl

theorem brackets_extends (hr : r.Composed Covers) (s : Scope) {opener : Item}
    (hopener : opener.kind.isOpener = true) {rest : List Item}
    (hts : x.Fits (n + 1) (opener :: rest)) (hclean : x.Admits [(r.brackets s opener rest).1]) :
    r'.brackets (x.scope s) (opener.shift x.offset) (x.items rest) =
      x.parsed (r.brackets s opener rest) := by
  revert hclean
  rw [brackets, brackets, classifyBracket_items hts hopener]
  split
  · exact comprehension_extends h _ (h.expr s.head assignLevel) (hr.expr s.head assignLevel) _
      opener hts.tail
  · exact collection_extends _ (h.expr s.bracketed assignLevel) (hr.expr s.bracketed assignLevel) _
      opener hts.tail

theorem braces_extends (hr : r.Composed Covers) (s : Scope) {opener : Item}
    (hopener : opener.kind.isOpener = true) {rest : List Item}
    (hts : x.Fits (n + 1) (opener :: rest)) (hclean : x.Admits [(r.braces s opener rest).1]) :
    r'.braces (x.scope s) (opener.shift x.offset) (x.items rest) =
      x.parsed (r.braces s opener rest) := by
  revert hclean
  rw [braces, braces, classifyBrace_items hts hopener]
  split
  · exact comprehension_extends h _ (objectItem_extends h hr s.head)
      (objectItem_composes hr s.head) _ opener hts.tail
  · exact comprehension_extends h _ (h.expr s.head assignLevel) (hr.expr s.head assignLevel) _
      opener hts.tail
  · exact collection_extends _ (objectItem_extends h hr s.bracketed)
      (objectItem_composes hr s.bracketed) _ opener hts.tail
  · exact collection_extends _ (h.expr s.bracketed assignLevel) (hr.expr s.bracketed assignLevel) _
      opener hts.tail
  · exact bracedBody_extends h s opener hts.tail

theorem parens_extends (s : Scope) (opener : Item) {rest : List Item} (hrest : x.Fits n rest)
    (hclean : x.Admits [(r.parens s opener rest).1]) :
    r'.parens (x.scope s) (opener.shift x.offset) (x.items rest) =
      x.parsed (r.parens s opener rest) := by
  simp only [parens] at hclean
  obtain ⟨hvalue, hclose⟩ := Admits.cons_iff.mp (Admits.cons_iff.mp hclean.children).2
  simp only [parens, bracketed_scope, h.expr _ _ _ hrest hvalue, expect_extends hclose, parsed,
    tree_enclose]
  rfl

/-- An operand that extends, with what goes on with it. -/
theorem continued_extends (hr : r.Composed Covers) (s : Scope) {ts : List Item} {p : Parsed}
    {p' : Parsed}
    (hp : x.Admits [p.1] → p' = x.parsed p) (hts : x.Fits (n + 1) ts)
    (hcovers : Covers s.eof ts [p.1] p.2)
    (hclean : x.Admits [(references r.expr s p.2.length p.1 p.2).1]) :
    references r'.expr (x.scope s) p'.2.length p'.1 p'.2 =
      x.parsed (references r.expr s p.2.length p.1 p.2) := by
  rw [hp (references_admits hclean)]
  simp only [parsed, length_items]
  exact references_extends h.expr hr.expr s (Nat.le_refl _) (hts.of_covers hcovers) hclean

theorem operand_extends (hr : r.Composed Covers) (s : Scope) :
    x.Extends (n + 1) (r.operand s) (r'.operand (x.scope s)) := by
  intro ts hts hclean
  cases ts with
  | nil => exact extends_nil _ rfl rfl hclean
  | cons i rest =>
    revert hclean
    simp only [operand, items_cons, Item.kind_shift, stops_scope]
    split
    · exact fun hclean => Prod.ext (missing_extends hclean) rfl
    split
    · exact continued_extends h hr s (p := (i.leaf, rest)) (fun _ => rfl) hts
        ((Covers.nil rest).leaf i)
    split
    · exact continued_extends h hr s (parens_extends h s i hts.tail) hts
        (parens_compose hr s i rest)
    split
    case isTrue hi =>
      exact continued_extends h hr s (brackets_extends h hr s (by rw [hi]; rfl) hts) hts
        (brackets_compose hr s i rest)
    split
    case isTrue hi =>
      exact continued_extends h hr s (braces_extends h hr s (by rw [hi]; rfl) hts) hts
        (braces_compose hr s i rest)
    · exact fun hclean => Prod.ext (misplaced_extends hclean) rfl

theorem expression_extends (hr : r.Composed Covers) :
    x.ExtendsExpr (n + 1) r.expression r'.expression := by
  intro s level ts hts hclean
  simp only [expression] at hclean ⊢
  have hleft := unaryWith_extends (operand_extends h hr s) s ts hts (binaryTail_admits hclean)
  have hafter := hts.of_covers (unaryWith_composes (operand_composes hr s) ts)
  rw [hleft]
  simp only [parsed, length_items]
  exact binaryTail_extends h.expr hr.expr s level (Nat.le_refl _) hafter hclean

theorem termList_extends (hr : r.Composed Covers) (s : Scope) {ts : List Item} (hts : x.Fits n ts)
    (hclean : x.Admits (r.termList s ts).1) :
    r'.termList (x.scope s) (x.items ts) = x.parsedList (r.termList s ts) := by
  have hterms := terms_extends (h.expr s setOpLevel) (hr.expr s setOpLevel)
    (Nat.lt_succ_self ts.length) hts hclean
  rw [Nat.succ_add, ← length_items] at hterms
  exact hterms

theorem everyBody_extends (s : Scope) {ts : List Item} (hts : x.Fits n ts)
    (hclean : x.Admits [(everyBody r s ts).1]) :
    everyBody r' (x.scope s) (x.items ts) = x.parsed (everyBody r s ts) := by
  cases ts with
  | nil => exact extends_nil _ rfl rfl hclean
  | cons j next =>
    revert hclean
    simp only [everyBody, items_cons, Item.kind_shift]
    split
    · exact bracedBody_extends h s j hts.rest
    · exact fun hclean => Prod.ext (missing_extends hclean) rfl

theorem clause_extends (hr : r.Composed Covers) (s : Scope) :
    x.Extends (n + 1) (r.clause s) (r'.clause (x.scope s)) := by
  intro ts hts hclean
  cases ts with
  | nil => exact extends_nil _ rfl rfl hclean
  | cons i rest =>
    by_cases hevery : i.kind = .keyword .everyKw
    · rw [clause_every hevery] at hclean ⊢
      rw [items_cons, clause_every (i := i.shift x.offset) hevery]
      obtain ⟨hterms, hbody⟩ := Admits.append_iff.mp (Admits.cons_iff.mp hclean.children).2
      have hafter := hts.tail.of_covers (termList_composes hr s rest)
      simp only [termList_extends h hr s hts.tail hterms, parsedList,
        everyBody_extends h s hafter hbody, parsed, tree_enclose, List.map_append]
      rfl
    · revert hclean
      simp only [clause, items_cons, Item.kind_shift]
      split
      · intro hclean
        have hterms := (Admits.cons_iff.mp hclean.children).2
        simp only [termList_extends h hr s hts.tail hterms, parsed, parsedList, tree_enclose]
        rfl
      · contradiction
      · intro hclean
        have hvalue := (Admits.cons_iff.mp hclean.children).2
        simp only [h.expr _ _ _ hts.tail hvalue, parsed, tree_enclose]
        rfl
      · exact expression_extends h hr s assignLevel (i :: rest) hts

omit h in
/-- What follows the text is no modifier. -/
theorem modifiers_more (s : Scope) (rounds : Nat) : r.modifiers s rounds x.more = ([], x.more) := by
  cases rounds with
  | zero => rfl
  | succ rounds =>
    rcases x.more_cases with hmore | ⟨i, rest, hmore, -, hi⟩
    · rw [hmore]
      rfl
    · rw [hmore, modifiers, if_neg]
      rw [Bool.and_eq_true, decide_eq_true_eq]
      rintro ⟨hkind, -⟩
      rw [hkind] at hi
      cases hi

theorem modifiers_extends (hr : r.Composed Covers) (s : Scope) {rounds : Nat} {ts : List Item}
    (hrounds : ts.length ≤ rounds) (hts : x.Fits (n + 1) ts)
    (hclean : x.Admits (r.modifiers s rounds ts).1) :
    r'.modifiers (x.scope s) (rounds + x.more.length) (x.items ts) =
      x.parsedList (r.modifiers s rounds ts) := by
  induction rounds generalizing ts with
  | zero =>
    obtain rfl := List.eq_nil_of_length_eq_zero (Nat.le_zero.mp hrounds)
    exact modifiers_more (x.scope s) _
  | succ rounds ih =>
    cases ts with
    | nil => exact modifiers_more (x.scope s) _
    | cons i rest =>
      revert hclean
      simp only [modifiers, items_cons, Nat.succ_add, Item.kind_shift, stops_scope]
      split
      · intro hclean
        obtain ⟨hnode, hmore⟩ := Admits.cons_iff.mp hclean
        obtain ⟨htarget, hparts⟩ := Admits.cons_iff.mp (Admits.cons_iff.mp hnode.children).2
        obtain ⟨has, hvalue⟩ := Admits.cons_iff.mp hparts
        have hcoveredTarget := hr.expr s unaryLevel rest
        have hcoveredAs := expect_composes (C := Covers) (.keyword .asKw) s
          (r.expr s unaryLevel rest).2
        have hcoveredValue := hr.expr s setOpLevel
          (expect (.keyword .asKw) s (r.expr s unaryLevel rest).2).2
        have hafterAs := hts.tail.of_covers (hcoveredTarget.append hcoveredAs)
        have hafter := (hafterAs.of_covers hcoveredValue).mono (Nat.le_succ n)
        have hlength := Nat.le_trans
          (hcoveredTarget.append (hcoveredAs.append hcoveredValue)).length_le
          (Nat.le_of_succ_le_succ hrounds)
        simp only [h.expr _ _ _ hts.tail htarget, expect_extends has,
          h.expr _ _ _ hafterAs hvalue, parsed, ih hlength hafter hmore, parsedList, tree_enclose,
          List.map_cons]
        rfl
      · exact fun _ => rfl

theorem statement_extends (hr : r.Composed Covers) (s : Scope) :
    x.Extends (n + 1) (r.statement s) (r'.statement (x.scope s)) := by
  intro ts hts hclean
  simp only [statement] at hclean
  obtain ⟨hnode, hparts⟩ := Admits.cons_iff.mp hclean.children
  have hsettled : settle (x.items ts) = x.items (settle ts) := by
    cases ts with
    -- The clause is missing at the end of the text.
    | nil =>
      have hmore : x.more = [] := hnode.nothing_follows rfl
      simp only [settle, items_nil, hmore]
    | cons i rest => rfl
  have hkinds : (settle ts).map Item.kind = ts.map Item.kind := by cases ts <;> rfl
  have hts' : x.Fits (n + 1) (settle ts) := hts.of_suffix (hkinds ▸ List.suffix_refl _)
  have hafter := hts'.of_covers (clause_composes hr s (settle ts))
  have hmodifiers := modifiers_extends h hr s (Nat.le_refl _) hafter hparts
  simp only [statement, hsettled, clause_extends h hr s _ hts' hnode, parsed, length_items,
    hmodifiers, parsedList, tree_enclose, List.map_cons]
  rfl

omit h in
theorem restOfLine_extends {s : Scope} {stops : List Token.Kind} {i : Item} {rest : List Item}
    (hclean : x.Admits [(restOfLine s stops i rest).1]) :
    restOfLine (x.scope s) stops (i.shift x.offset) (x.items rest) =
      x.parsed (restOfLine s stops i rest) := by
  have hmore : x.more = [] := hclean.nothing_follows rfl
  have hmisplaced := misplaced_extends hclean
  rw [List.map_cons] at hmisplaced
  simp only [restOfLine, x.items_of_nothing hmore, List.takeWhile_map, List.dropWhile_map, parsed]
  exact Prod.ext hmisplaced rfl

theorem statementList_extends (hr : r.Composed Covers) (s : Scope) (closer : Token.Kind)
    {rounds : Nat} {ts : List Item} (hts : x.Fits (n + 1) ts)
    (hclean : x.Admits (r.statementList s closer rounds ts).1)
    (hend : x.EndsAt closer (r.statementList s closer rounds ts).2) :
    r'.statementList (x.scope s) closer (rounds + x.more.length) (x.items ts) =
      x.parsedList (r.statementList s closer rounds ts) := by
  -- On the rounds: if something follows, the list ends at its bracket before they run out.
  induction rounds generalizing ts with
  | zero =>
    rcases hend with hmore | ⟨i, rest, hi, hkind⟩
    · rw [hmore]; rfl
    · obtain rfl : ts = i :: rest := hi
      exact statementList_closer _ _ (i.shift x.offset) hkind _
  | succ rounds ih =>
    rw [Nat.succ_add]
    cases ts with
    | nil =>
      rcases hend with hmore | ⟨i, rest, hi, -⟩
      · rw [items_nil, hmore]
        exact Prod.ext rfl hmore.symm
      · cases hi
    | cons i rest =>
      by_cases hcloser : i.kind = closer
      · rw [items_cons, statementList_closer _ _ (i.shift x.offset) hcloser,
          statementList_closer _ _ i hcloser]
        rfl
      have hrest := hts.rest
      have hnode := statement_extends h hr s (i :: rest) hts
      have hcovered := statement_composes hr s (i :: rest)
      rcases hp : r.statement s (i :: rest) with ⟨node, after⟩
      rw [hp] at hnode hcovered
      rw [items_cons] at hnode
      revert hclean hend
      simp only [statementList, items_cons, Item.kind_shift, if_neg hcloser, hp]
      split
      · intro hclean hend
        simp only [ih hrest (Admits.cons_iff.mp hclean).2 hend]
        rfl
      split
      · intro hclean hend
        obtain ⟨hstray, hmore⟩ := Admits.cons_iff.mp hclean
        have hmisplaced := misplaced_extends hstray
        rw [List.map_cons, List.map_nil] at hmisplaced
        simp only [ih hrest hmore hend, hmisplaced]
        rfl
      cases after with
      | nil =>
        intro hclean hend
        have hmore : x.more = [] := hend.ne_nil.resolve_right fun hne => hne rfl
        simp only [hnode hclean, parsed, items_nil, hmore, parsedList]
        rfl
      | cons j next =>
        have hafter := hts.of_covers hcovered
        simp only
        by_cases hends : (j.kind = closer || j.kind == .mark .semicolon || j.newline) = true
        · simp only [if_pos hends]
          intro hclean hend
          obtain ⟨hfirst, hmore⟩ := Admits.cons_iff.mp hclean
          have hlist := ih hafter hmore hend
          rw [items_cons] at hlist
          simp only [hnode hfirst, parsed, items_cons, Item.kind_shift, Item.newline_shift,
            if_pos hends, hlist]
          rfl
        · simp only [if_neg hends]
          intro hclean hend
          obtain ⟨hfirst, hothers⟩ := Admits.cons_iff.mp hclean
          obtain ⟨hwrong, hmore⟩ := Admits.cons_iff.mp hothers
          have hafterWrong :=
            hafter.of_covers (restOfLine_composes s [closer, .mark .semicolon] j next)
          simp only [hnode hfirst, parsed, items_cons, Item.kind_shift, Item.newline_shift,
            if_neg hends, restOfLine_extends hwrong, ih hafterWrong hmore hend]
          rfl

theorem step_agrees (hr : r.Composed Covers) : x.Agrees (n + 1) r.step r'.step where
  expr := expression_extends h hr
  statements s closer ts hts hclean hend := by
    have hlist := statementList_extends h hr s closer hts hclean hend
    rwa [← length_items] at hlist

end

theorem upTo_agrees (x : Extension) (n m : Nat) : x.Agrees n (upTo n) (upTo (n + m)) := by
  -- The rules for a longer text may be nested deeper; no item of this one reaches that far down.
  induction n with
  | zero =>
    exact ⟨fun _ _ _ hts => absurd hts.1 (Nat.not_lt_zero _), fun _ _ _ hts =>
      absurd hts.1 (Nat.not_lt_zero _)⟩
  | succ n ih =>
    rw [Nat.succ_add]
    exact step_agrees ih (upTo_compose n)

end Rules

end PolicyEditor.Grammar
