import PolicyEditor.Proofs.Grammar.ExpressionGrouping
import PolicyEditor.Proofs.Grammar.ScriptCoverage

/-!
Operators group by their levels in every tree, whatever the text: in a policy and in a single
expression, after every error and up to the last token.
-/

namespace PolicyEditor.Grammar

open PolicyEditor.Tree (Every EveryOf Grouped Terms)

namespace Rules

variable {n : Nat} {r : Rules}

theorem pathTail_grouped (h : r.Groups n) (s : Scope) (rounds : Nat) {ts : List Item}
    (hts : ts.length < n) : EveryOf Grouped (r.pathTail s rounds ts).1 := by
  induction rounds generalizing ts with
  | zero => trivial
  | succ rounds ih =>
    cases ts with
    | nil => trivial
    | cons i rest =>
      have hrest : rest.length < n := Nat.lt_of_succ_lt hts
      simp only [pathTail]
      split
      · trivial
      split
      · cases rest with
        | nil => trivial
        | cons j next =>
          have hnext : next.length < n := Nat.lt_of_succ_lt hrest
          simp only
          split
          · exact ⟨trivial, trivial, ih hnext⟩
          · trivial
      split
      · have hle := Covers.length_le (index_composes h.covers.expr s i rest)
        have hafter : (index r.expr s i rest).2.length < n := by omega
        exact (index_grouped h.climbing s i hrest).append (ih hafter)
      · trivial

/-- A declared path stands over a name. -/
theorem declaredPath_grouped (h : r.Groups n) (s : Scope) {ts : List Item} (hts : ts.length < n) :
    Every Grouped (r.declaredPath s ts).1 := by
  cases ts with
  | nil => exact missing_grouped s []
  | cons i rest =>
    have hrest : rest.length < n := Nat.lt_of_succ_lt hts
    rw [declaredPath]
    split
    · exact missing_grouped s (i :: rest)
    · have hall : EveryOf Grouped (i.nameLeaf :: (r.pathTail s rest.length rest).1) :=
        ⟨trivial, pathTail_grouped h s rest.length hrest⟩
      have hname : i.nameLeaf.kind ≠ .unaryExpression := by
        show NodeKind.identifier ≠ .unaryExpression
        decide
      exact Every.overBase (.inl rfl) rfl rfl hname hall _

theorem alias?_grouped (s : Scope) (ts : List Item) : EveryOf Grouped (alias? s ts).1 := by
  cases ts with
  | nil => trivial
  | cons i rest =>
    rw [alias?]
    split
    · exact ⟨trivial, expect_grouped .identifier s rest, trivial⟩
    · trivial

theorem ifBody_grouped (h : r.Groups n) (s : Scope) {ts : List Item} (hts : ts.length < n) :
    Every Grouped (r.ifBody s ts).1 ∧ (r.ifBody s ts).1.kind ≠ .assignExpression := by
  have hstatement := statement_grouped h s.statement (Nat.le_of_lt hts)
  cases ts with
  | nil =>
    refine ⟨?_, enclose_ne_assign (by decide) _ _⟩
    apply Every.plain rfl
    exact ⟨hstatement, trivial⟩
  | cons i rest =>
    have hrest : rest.length < n := Nat.lt_of_succ_lt hts
    rw [ifBody]
    split
    · exact ⟨bracedBody_grouped h s i hrest, enclose_ne_assign (by decide) _ _⟩
    · refine ⟨?_, enclose_ne_assign (by decide) _ _⟩
      apply Every.plain rfl
      exact ⟨hstatement, trivial⟩

theorem body?_grouped (h : r.Groups n) (s : Scope) {ts : List Item} (hts : ts.length < n) :
    Terms (r.body? s ts).1 := by
  cases ts with
  | nil => exact .nil
  | cons i rest =>
    have hrest : rest.length < n := Nat.lt_of_succ_lt hts
    rw [body?]
    split
    · obtain ⟨hbody, hne⟩ := ifBody_grouped h s hrest
      exact .cons (leaf_grouped i) (leaf_ne_assign i) (.cons hbody hne .nil)
    split
    · exact .cons (bracedBody_grouped h s i hrest) (enclose_ne_assign (by decide) _ _) .nil
    · exact .nil

theorem bodyOnLine?_grouped (h : r.Groups n) (s : Scope) {ts : List Item} (hts : ts.length < n) :
    Terms (r.bodyOnLine? s ts).1 := by
  cases ts with
  | nil => exact .nil
  | cons i rest =>
    rw [bodyOnLine?]
    split
    · exact .nil
    · exact body?_grouped h s hts

theorem parameters_grouped (h : r.Groups n) (s : Scope) {ts : List Item} (hts : ts.length < n) :
    EveryOf Grouped (parameters r s ts).1 := by
  cases ts with
  | nil => trivial
  | cons i rest =>
    have hrest : rest.length < n := Nat.lt_of_succ_lt hts
    rw [parameters]
    split
    · exact ⟨arguments_grouped h.climbing s i hrest, trivial⟩
    · trivial

theorem head_grouped (h : r.Groups n) (s : Scope) {ts : List Item} (hts : ts.length < n) :
    Every Grouped (r.head s ts).1 := by
  have hname := expect_length_le .identifier s ts
  have hnameLt : (expect .identifier s ts).2.length < n := by omega
  have hpath := Covers.length_le (pathTail_composes h.covers s (expect .identifier s ts).2.length
    (expect .identifier s ts).2)
  have hpathLt : (r.pathTail s (expect .identifier s ts).2.length
    (expect .identifier s ts).2).2.length < n := by omega
  have hfront : EveryOf Grouped ((expect .identifier s ts).1 ::
      (r.pathTail s (expect .identifier s ts).2.length (expect .identifier s ts).2).1) :=
    ⟨expect_grouped .identifier s ts, pathTail_grouped h s _ hnameLt⟩
  rw [head_eq]
  exact Every.plain rfl (hfront.append (parameters_grouped h s hpathLt)) _

theorem head_ne_assign (r : Rules) (s : Scope) (ts : List Item) :
    (r.head s ts).1.kind ≠ .assignExpression := by
  rw [head_eq]
  exact nofun

/-- What follows the head of a rule: its value is no assignment. -/
theorem tail_grouped (h : r.Groups n) (s : Scope) {ts : List Item} (hts : ts.length < n) :
    Terms (r.tail s ts).1 := by
  cases ts with
  | nil => exact .nil
  | cons i rest =>
    have hrest : rest.length < n := Nat.lt_of_succ_lt hts
    rw [tail]
    split
    · exact .nil
    split
    · have hle := h.climbing.length_le s setOpLevel rest
      have hafter : (r.expr s setOpLevel rest).2.length < n := by omega
      have hne := h.climbing.ne_assign s (Nat.le_refl setOpLevel) hrest
      exact .cons (leaf_grouped i) (leaf_ne_assign i)
        (.cons (h.expr s setOpLevel hrest) hne (bodyOnLine?_grouped h s hafter))
    · exact body?_grouped h s hts

theorem value?_grouped (h : r.Groups n) (s : Scope) {ts : List Item} (hts : ts.length < n) :
    Terms (r.value? s ts).1 := by
  cases ts with
  | nil => exact .nil
  | cons i rest =>
    have hrest : rest.length < n := Nat.lt_of_succ_lt hts
    rw [value?]
    split
    · have hne := h.climbing.ne_assign s (Nat.le_refl setOpLevel) hrest
      exact .cons (leaf_grouped i) (leaf_ne_assign i) (.cons (h.expr s setOpLevel hrest) hne .nil)
    · exact .nil

theorem alternative_grouped (h : r.Groups n) (s : Scope) (word : Item) {rest : List Item}
    (hrest : rest.length < n) : Every Grouped (r.alternative s word rest).1 := by
  have hle := Covers.length_le (value?_composes h.covers s rest)
  have hafter : (r.value? s rest).2.length < n := by omega
  have hvalue := (value?_grouped h s hrest).append (body?_grouped h s hafter)
  exact Every.terms rfl (.cons (leaf_grouped word) (leaf_ne_assign word) hvalue) _

theorem alternatives_grouped (h : r.Groups n) (s : Scope) (rounds : Nat) {ts : List Item}
    (hts : ts.length < n) : Terms (r.alternatives s rounds ts).1 := by
  induction rounds generalizing ts with
  | zero => exact .nil
  | succ rounds ih =>
    cases ts with
    | nil => exact .nil
    | cons i rest =>
      have hrest : rest.length < n := Nat.lt_of_succ_lt hts
      rw [alternatives]
      split
      · have hle := Covers.length_le (alternative_composes h.covers s i rest)
        have hafter : (r.alternative s i rest).2.length < n := Nat.lt_of_le_of_lt hle hts
        have hne : (r.alternative s i rest).1.kind ≠ .assignExpression :=
          enclose_ne_assign (by decide) _ _
        exact .cons (alternative_grouped h s i hrest) hne (ih hafter)
      · exact .nil

/-- A rule after what stands before its head. -/
theorem ruleAfter_grouped (h : r.Groups n) (s : Scope) {before : List Tree} (hbefore : Terms before)
    {ts : List Item} (hts : ts.length < n) : Every Grouped (r.ruleAfter s before ts).1 := by
  have hhead := Covers.length_le (head_covers h.covers s ts)
  have hheadLt : (r.head s ts).2.length < n := by omega
  have htail := Covers.length_le (tail_composes h.covers s (r.head s ts).2)
  have htailLt : (r.tail s (r.head s ts).2).2.length < n := by omega
  have hfront := hbefore.append
    (.cons (head_grouped h s hts) (head_ne_assign r s ts) (tail_grouped h s hheadLt))
  exact Every.terms rfl (hfront.append (alternatives_grouped h s _ htailLt)) _

theorem declaration_grouped (h : r.Groups n) (s : Scope) (i : Item) {rest : List Item}
    (hts : (i :: rest).length < n) : Every Grouped (r.declaration s i rest).1 := by
  have hrest : rest.length < n := Nat.lt_of_succ_lt hts
  rw [declaration]
  split
  · apply Every.plain rfl
    exact ⟨trivial, declaredPath_grouped h s hrest, trivial⟩
  · apply Every.plain rfl
    exact ⟨trivial, declaredPath_grouped h s hrest, alias?_grouped s _⟩
  · exact ruleAfter_grouped h s (.cons (leaf_grouped i) (leaf_ne_assign i) .nil) hrest
  · exact ruleAfter_grouped h s .nil hts
  · exact misplaced_grouped s _

theorem declarations_grouped (h : r.Groups n) (s : Scope) (rounds : Nat) {ts : List Item}
    (hts : ts.length < n) : EveryOf Grouped (r.declarations s rounds ts) := by
  induction rounds generalizing ts with
  | zero => trivial
  | succ rounds ih =>
    cases ts with
    | nil => trivial
    | cons i rest =>
      have hnode := declaration_grouped h s i hts
      have hlength := declaration_length h.covers s i rest
      rcases hp : r.declaration s i rest with ⟨node, after⟩
      rw [hp] at hnode hlength
      simp only [declarations, hp]
      cases after with
      | nil => exact ⟨hnode, trivial⟩
      | cons j next =>
        have hafter : (j :: next).length < n :=
          Nat.lt_of_le_of_lt hlength (Nat.lt_of_succ_lt hts)
        simp only
        split
        · exact ⟨hnode, ih hafter⟩
        · have hle := Covers.length_le (restOfLine_composes (C := Covers) s [] j next)
          exact ⟨hnode, misplaced_grouped s _, ih (Nat.lt_of_le_of_lt hle hafter)⟩

end Rules

/-! ### Whole texts -/

/-- The script over grouped declarations. -/
theorem every_dressScript {cs : List Tree} (h : EveryOf Grouped cs) {trivia : List Token}
    (htrivia : ∀ u ∈ trivia, u.isTrivia = true) (length : Nat) :
    Every Grouped (Tree.dressScript length trivia cs) :=
  ⟨Tree.grouped_of_plain rfl,
    (EveryOf.dressList htrivia h).append (Tree.everyOf_map_ofToken _)⟩

theorem every_parse_grouped (source : String) : Every Grouped (parse source) := by
  let ts := items (Token.scan source.toList)
  let s : Scope := { lines := true, bars := false, eof := source.toList.length }
  have hnodes := Rules.declarations_grouped (Rules.upTo_groups (ts.length + 1)) s ts.length
    (Nat.lt_succ_self ts.length)
  exact every_dressScript hnodes (fun _ hu => (List.mem_filter.mp hu).2) _

theorem lone_grouped (s : Scope) (ts : List Item) :
    EveryOf Grouped (ts.map fun i => misplaced s [i]) := by
  induction ts with
  | nil => trivial
  | cons i rest ih => exact ⟨misplaced_grouped s [i], ih⟩

theorem every_parseExpression_grouped (source : String) :
    Every Grouped (parseExpression source) := by
  let ts := items (Token.scan source.toList)
  let s : Scope := { lines := false, bars := false, eof := source.toList.length }
  have hnode := (Rules.upTo_groups (ts.length + 1)).expr s assignLevel (Nat.lt_succ_self ts.length)
  have hlone := lone_grouped s ((Rules.upTo (ts.length + 1)).expr s assignLevel ts).2
  have hall : EveryOf Grouped (_ :: _) := ⟨hnode, hlone⟩
  exact every_dressScript hall (fun _ hu => (List.mem_filter.mp hu).2) _

/-- Whatever the text, operators group by their levels in its tree. -/
theorem precedence_holds (source : String) :
    (∀ p ∈ (parse source).walk [], p.1.isLeaf = false → Grouped p.1.bare) ∧
      ∀ p ∈ (parseExpression source).walk [], p.1.isLeaf = false → Grouped p.1.bare :=
  ⟨(every_parse_grouped source).walk, (every_parseExpression_grouped source).walk⟩

end PolicyEditor.Grammar
