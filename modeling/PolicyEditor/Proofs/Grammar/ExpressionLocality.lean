import PolicyEditor.Proofs.Grammar.OperandLocality

/-!
Expressions and statements before other items. What a bracket opens is told from what it holds, and
this is read as a whole; all else is told from the items read and the first one behind them. So
rules for shorter lists that read the same before other items give such rules for longer lists.
-/

namespace PolicyEditor.Grammar

open PolicyEditor.Tree (cleanAll)

namespace Rules

/-- The second rules read what the first ones read without error before other items too, fewer than
`n` in all. Statements end at a bracket that both texts have. -/
structure KeptBy (n : Nat) (r r' : Rules) : Prop where
  expr : KeepsExpr n r.expr r'.expr
  statements : ∀ s eof closer ts, cleanAll (r.statements s closer ts).1 = true →
    ∀ j after, (r.statements s closer ts).2 = j :: after → j.kind = closer →
      ∃ read, ts = read ++ j :: after ∧ ∀ us, (read ++ j :: us).length < n →
        r'.statements (s.endingAt eof) closer (read ++ j :: us) =
          ((r.statements s closer ts).1, j :: us)

variable {n : Nat} {r r' : Rules}

/-! ### What brackets open -/

section

variable {eof : Nat} {opener : Item} {rest read left : List Item} {t : Tree}
  (hopener : opener.kind.isOpener = true) (hpaired : Paired [t])
  (hcovers : Covers eof (opener :: rest) [t] left) (hread : rest = read ++ left)
include hopener hpaired hcovers hread

/-- What is read from a bracket on goes beyond its counterpart. -/
theorem inside_of_paired : ∃ inside j others, read = inside ++ j :: others ∧ Balanced inside ∧
    j.kind.isCloser = true := by
  subst hread
  have htokens := Tree.Reads.tokens_append_rest hcovers
  rw [← List.cons_append, List.map_append] at htokens
  have hbalanced := hpaired.balanced (opener :: read) (List.append_cancel_right htokens).symm
  have hclosed : Closed (opener :: read) := ⟨_, hbalanced, List.suffix_refl _⟩
  exact hclosed.split hopener

theorem classifyBrace_kept (us : List Item) :
    classifyBrace (read ++ us) = classifyBrace rest := by
  obtain ⟨inside, j, others, rfl, hinside, hj⟩ := inside_of_paired hopener hpaired hcovers hread
  rw [hread, List.append_assoc, List.append_assoc]
  exact classifyBrace_local hinside hj _ _

theorem classifyBracket_kept (us : List Item) :
    classifyBracket (read ++ us) = classifyBracket rest := by
  obtain ⟨inside, j, others, rfl, hinside, hj⟩ := inside_of_paired hopener hpaired hcovers hread
  rw [hread, List.append_assoc, List.append_assoc]
  exact classifyBracket_local hinside hj _ _

end

/-! ### Brackets -/

def bracketsOf (r : Rules) (s : Scope) (opener : Item) (k : NodeKind) (rest : List Item) : Parsed :=
  match k with
  | .arrayComprehension =>
    r.comprehension .arrayComprehension (r.expr s.head assignLevel) (.mark .rbracket) s opener rest
  | _ => collection .array (r.expr s.bracketed assignLevel) (.mark .rbracket) s opener rest

def bracesOf (r : Rules) (s : Scope) (opener : Item) (k : NodeKind) (rest : List Item) : Parsed :=
  match k with
  | .objectComprehension =>
    r.comprehension .objectComprehension (r.objectItem s.head) (.mark .rbrace) s opener rest
  | .setComprehension =>
    r.comprehension .setComprehension (r.expr s.head assignLevel) (.mark .rbrace) s opener rest
  | .object => collection .object (r.objectItem s.bracketed) (.mark .rbrace) s opener rest
  | .set => collection .set (r.expr s.bracketed assignLevel) (.mark .rbrace) s opener rest
  | _ => r.bracedBody s opener rest

section

variable (h : KeptBy n r r')
include h

theorem objectItem_keeps (s : Scope) (eof : Nat) :
    Keeps s n (r.objectItem s) (r'.objectItem (s.endingAt eof)) := by
  intro ts hclean
  obtain ⟨hkey, hothers⟩ := Tree.cleanAll_cons.mp (Tree.cleanAll_of_clean_enclose hclean)
  obtain ⟨hcolon, hlast⟩ := Tree.cleanAll_cons.mp hothers
  obtain ⟨i, read, hts, hread⟩ := (h.expr s eof setOpLevel).expected hkey hcolon eof
  obtain ⟨j, later, hafter, hlater⟩ :=
    h.expr s eof setOpLevel _ (Tree.cleanAll_cons.mp hlast).1
  refine ⟨i, read ++ j :: later, ?_, fun us hlen hus => ?_⟩
  · rw [List.append_assoc, List.cons_append]
    exact hts.trans (congrArg (fun rest => i :: (read ++ rest)) hafter)
  rw [List.append_assoc, List.cons_append] at hlen ⊢
  obtain ⟨left, hthis, hfound⟩ := hread _ hlen
  simp only [List.length_cons, List.length_append] at hlen
  have hvalue := hlater us (by simp only [List.length_cons, List.length_append]; omega) hus
  simp only [objectItem, hthis, hfound, hvalue]
  rfl

theorem comprehension_keeps {kind : NodeKind} {s s' : Scope} {head head' : List Item → Parsed}
    (hhead : Keeps s' n head head') {closer : Token.Kind} {opener : Item} {rest : List Item}
    (hclean : (r.comprehension kind head closer s opener rest).1.clean = true) (eof : Nat) :
    EndsItself n rest (r.comprehension kind head closer s opener rest)
      (r'.comprehension kind head' closer (s.endingAt eof) opener) := by
  simp only [comprehension, Tree.clean_enclose, cleanAll, Bool.and_eq_true] at hclean
  obtain ⟨-, -, hvalue, hbar, ⟨-, hbody⟩, hclose, -⟩ := hclean
  obtain ⟨i, read, hrest, hread⟩ := hhead.expected hvalue hbar eof
  obtain ⟨j, after, hleft, hj, hexpect⟩ := expect_clean hclose
  obtain ⟨inner, hinner, hkeeps⟩ := h.statements s.statement eof closer _ hbody j after hleft hj
  have hhere : s.here (j :: after) = j.token.start := rfl
  simp only [comprehension, hexpect]
  simp only [hleft, hhere]
  refine ⟨i :: (read ++ (inner ++ [j])), ?_, fun us hlen => ?_⟩
  · refine hrest.trans ((congrArg (fun rest => i :: (read ++ rest)) hinner).trans ?_)
    simp only [List.cons_append, List.append_assoc, List.nil_append]
  simp only [List.cons_append, List.append_assoc, List.nil_append] at hlen ⊢
  obtain ⟨left, hthis, hfound⟩ := hread _ hlen
  simp only [List.length_cons, List.length_append] at hlen
  have hstatements := hkeeps us (by simp only [List.length_cons, List.length_append]; omega)
  simp only [comprehension, hthis, hfound, statement_endingAt, hstatements, expect_found hj]
  rfl

theorem bracedBody_keeps {s : Scope} {opener : Item} {rest : List Item}
    (hclean : (r.bracedBody s opener rest).1.clean = true) (eof : Nat) :
    EndsItself n rest (r.bracedBody s opener rest) (r'.bracedBody (s.endingAt eof) opener) := by
  simp only [bracedBody, Tree.clean_enclose, Tree.cleanAll_append, cleanAll, Bool.and_eq_true]
    at hclean
  obtain ⟨-, ⟨-, hbody⟩, hclose, -⟩ := hclean
  obtain ⟨j, after, hleft, hj, hexpect⟩ := expect_clean hclose
  obtain ⟨read, hread, hkeeps⟩ := h.statements s.statement eof _ _ hbody j after hleft hj
  simp only [bracedBody, hexpect]
  refine ⟨read ++ [j], by rw [hread, List.append_assoc]; rfl, fun us hlen => ?_⟩
  rw [List.append_assoc, List.singleton_append] at hlen ⊢
  simp only [bracedBody, statement_endingAt, hkeeps us hlen, expect_found hj]
  rfl

theorem parens_keep {s : Scope} {opener : Item} {rest : List Item}
    (hclean : (r.parens s opener rest).1.clean = true) (eof : Nat) :
    EndsItself n rest (r.parens s opener rest) (r'.parens (s.endingAt eof) opener) := by
  obtain ⟨hvalue, hclose⟩ := Tree.cleanAll_cons.mp
    (Tree.cleanAll_cons.mp (Tree.cleanAll_of_clean_enclose hclean)).2
  obtain ⟨i, read, hread, hkeeps⟩ := (h.expr s.bracketed eof assignLevel).expected hvalue
    (Tree.cleanAll_cons.mp hclose).1 eof
  refine ⟨i :: read, hread, fun us hlen => ?_⟩
  obtain ⟨left, hthis, hfound⟩ := hkeeps us hlen
  rw [List.cons_append]
  simp only [parens, bracketed_endingAt, hthis, hfound]
  rfl

theorem brackets_keep (hr : r.Composed Covers) (hp : r.Pairs) {s : Scope} {opener : Item}
    (hopener : opener.kind.isOpener = true) {rest : List Item}
    (hclean : (r.brackets s opener rest).1.clean = true) (eof : Nat) :
    EndsItself n rest (r.brackets s opener rest) (r'.brackets (s.endingAt eof) opener) := by
  have hkind : ∀ k, ((r.bracketsOf s opener k rest).1.clean = true →
      EndsItself n rest (r.bracketsOf s opener k rest)
        (r'.bracketsOf (s.endingAt eof) opener k)) := by
    intro k hclean
    unfold bracketsOf at hclean ⊢
    split at hclean
    · exact comprehension_keeps h (h.expr s.head eof assignLevel) hclean eof
    · exact collection_keeps (h.expr s.bracketed eof assignLevel) hclean eof
  refine (hkind _ hclean).congr fun read hread us => ?_
  have hpaired := brackets_paired hp s hopener rest hclean
  have hsame := classifyBracket_kept hopener hpaired (brackets_compose hr s opener rest) hread us
  exact congrArg (fun k => r'.bracketsOf (s.endingAt eof) opener k (read ++ us)) hsame

theorem braces_keep (hr : r.Composed Covers) (hp : r.Pairs) {s : Scope} {opener : Item}
    (hopener : opener.kind.isOpener = true) {rest : List Item}
    (hclean : (r.braces s opener rest).1.clean = true) (eof : Nat) :
    EndsItself n rest (r.braces s opener rest) (r'.braces (s.endingAt eof) opener) := by
  have hkind : ∀ k, ((r.bracesOf s opener k rest).1.clean = true →
      EndsItself n rest (r.bracesOf s opener k rest)
        (r'.bracesOf (s.endingAt eof) opener k)) := by
    intro k hclean
    unfold bracesOf at hclean ⊢
    split at hclean
    · exact comprehension_keeps h (objectItem_keeps h s.head eof) hclean eof
    · exact comprehension_keeps h (h.expr s.head eof assignLevel) hclean eof
    · exact collection_keeps (objectItem_keeps h s.bracketed eof) hclean eof
    · exact collection_keeps (h.expr s.bracketed eof assignLevel) hclean eof
    · exact bracedBody_keeps h hclean eof
  refine (hkind _ hclean).congr fun read hread us => ?_
  have hpaired := braces_paired hp s hopener rest hclean
  have hsame := classifyBrace_kept hopener hpaired (braces_compose hr s opener rest) hread us
  exact congrArg (fun k => r'.bracesOf (s.endingAt eof) opener k (read ++ us)) hsame

end

/-! ### Operands and expressions -/

/-- How the items after one that begins an operand are read, without what goes on with it. -/
def own? (r : Rules) (s : Scope) (i : Item) : Option (List Item → Parsed) :=
  if neverOperand i.kind || s.stops i then none
  else if i.kind.isLiteral then some fun rest => (i.leaf, rest)
  else if i.kind = .mark .lparen then some (r.parens s i)
  else if i.kind = .mark .lbracket then some (r.brackets s i)
  else if i.kind = .mark .lbrace then some (r.braces s i)
  else none

theorem operand_cases (r : Rules) (s : Scope) (i : Item) (rest : List Item) :
    (∃ f, r.own? s i = some f ∧ r.operand s (i :: rest) =
      references r.expr s (f rest).2.length (f rest).1 (f rest).2) ∨
    (r.own? s i = none ∧ (r.operand s (i :: rest)).1.clean = false) := by
  unfold own?
  rw [operand]
  split
  · exact .inr ⟨rfl, rfl⟩
  split
  · exact .inl ⟨_, rfl, rfl⟩
  split
  · exact .inl ⟨_, rfl, rfl⟩
  split
  · exact .inl ⟨_, rfl, rfl⟩
  split
  · exact .inl ⟨_, rfl, rfl⟩
  · exact .inr ⟨rfl, rfl⟩

theorem operand_own {s : Scope} {i : Item} {f : List Item → Parsed} (h : r.own? s i = some f)
    (rest : List Item) : r.operand s (i :: rest) =
      references r.expr s (f rest).2.length (f rest).1 (f rest).2 := by
  rcases operand_cases r s i rest with ⟨g, hg, hoperand⟩ | ⟨hnone, -⟩
  · obtain rfl : f = g := Option.some.inj (h.symm.trans hg)
    exact hoperand
  · rw [h] at hnone
    cases hnone

theorem own_of_clean {s : Scope} {i : Item} {rest : List Item}
    (h : (r.operand s (i :: rest)).1.clean = true) : ∃ f, r.own? s i = some f := by
  rcases operand_cases r s i rest with ⟨f, hf, -⟩ | ⟨-, hclean⟩
  · exact ⟨f, hf⟩
  · rw [h] at hclean
    cases hclean

section

variable (h : KeptBy n r r')
include h

theorem own_keeps (hr : r.Composed Covers) (hp : r.Pairs) {s : Scope} {i : Item}
    {f : List Item → Parsed} (hown : r.own? s i = some f) (eof : Nat) :
    ∃ f', r'.own? (s.endingAt eof) i = some f' ∧
      ∀ rest, (f rest).1.clean = true → EndsItself n rest (f rest) f' := by
  unfold own? at hown
  simp only [own?, stops_endingAt]
  split at hown
  · cases hown
  case isFalse hnever =>
    rw [if_neg hnever]
    split at hown
    case isTrue hi =>
      cases hown
      exact ⟨_, if_pos hi, fun rest _ => ⟨[], rfl, fun us _ => rfl⟩⟩
    case isFalse hliteral =>
      rw [if_neg hliteral]
      split at hown
      case isTrue hi =>
        cases hown
        exact ⟨_, if_pos hi, fun rest hclean => parens_keep h hclean eof⟩
      case isFalse hparen =>
        rw [if_neg hparen]
        split at hown
        case isTrue hi =>
          cases hown
          exact ⟨_, if_pos hi, fun rest hclean =>
            brackets_keep h hr hp (by rw [hi]; rfl) hclean eof⟩
        case isFalse hbracket =>
          rw [if_neg hbracket]
          split at hown
          case isTrue hi =>
            cases hown
            exact ⟨_, if_pos hi, fun rest hclean =>
              braces_keep h hr hp (by rw [hi]; rfl) hclean eof⟩
          case isFalse => cases hown

theorem operand_keeps (hr : r.Composed Covers) (hp : r.Pairs) (s : Scope) (eof : Nat) :
    Keeps s (n + 1) (r.operand s) (r'.operand (s.endingAt eof)) := by
  intro ts hclean
  cases ts with
  | nil => cases hclean
  | cons i rest =>
    obtain ⟨f, hf⟩ := own_of_clean hclean
    obtain ⟨f', hf', hkeeps⟩ := own_keeps h hr hp hf eof
    rw [operand_own hf] at hclean ⊢
    -- The operand itself, and then what goes on with it.
    obtain ⟨read, hread, hthis⟩ := hkeeps rest (clean_of_references hclean)
    obtain ⟨later, hlater, hgoes⟩ := references_keep h.expr s (Nat.le_refl _) hclean eof
    refine ⟨i, read ++ later, ?_, fun us hlen hus => ?_⟩
    · rw [List.append_assoc, ← hlater, ← hread]
    rw [operand_own hf', List.append_assoc]
    simp only [List.length_cons, List.length_append] at hlen
    rw [hthis (later ++ us) (by simp only [List.length_append]; omega)]
    exact hgoes us _ (by rw [List.length_append]; omega) hus (Nat.le_refl _)

theorem expression_keeps (hr : r.Composed Covers) (hp : r.Pairs) :
    KeepsExpr (n + 1) r.expression r'.expression := by
  intro s eof level ts hclean
  simp only [expression] at hclean ⊢
  have hoperand := operand_keeps h hr hp s eof
  obtain ⟨i, read, hread, hkeeps⟩ := unaryWith_keeps hoperand ts (clean_of_binaryTail hclean)
  obtain ⟨later, hlater, hgoes⟩ := binaryTail_keeps h.expr s level (Nat.le_refl _) hclean eof
  refine ⟨i, read ++ later, ?_, fun us hlen hus => ?_⟩
  · rw [List.append_assoc, ← hlater, ← hread]
  rw [List.append_assoc] at hlen ⊢
  rw [hkeeps (later ++ us) hlen (by rw [hlater]; exact hus.append later)]
  simp only [List.length_cons, List.length_append] at hlen
  exact hgoes us _ (by rw [List.length_append]; omega) hus (Nat.le_refl _)

/-! ### Statements -/

omit h in
theorem clause_some {s : Scope} {i : Item} (hi : i.kind = .keyword .someKw) (rest : List Item) :
    r.clause s (i :: rest) =
      (.enclose .someDeclaration (s.here (r.termList s rest).2) (i.leaf :: (r.termList s rest).1),
        (r.termList s rest).2) := by
  simp only [clause, hi]

omit h in
theorem clause_not {s : Scope} {i : Item} (hi : i.kind = .keyword .notKw) (rest : List Item) :
    r.clause s (i :: rest) =
      (.enclose .negation (s.here (r.expr s assignLevel rest).2)
        [i.leaf, (r.expr s assignLevel rest).1], (r.expr s assignLevel rest).2) := by
  simp only [clause, hi]

omit h in
theorem clause_expression {i : Item} (hsome : i.kind ≠ .keyword .someKw)
    (hevery : i.kind ≠ .keyword .everyKw) (hnot : i.kind ≠ .keyword .notKw) (s : Scope)
    (rest : List Item) : r.clause s (i :: rest) = r.expression s assignLevel (i :: rest) := by
  simp only [clause]

theorem termList_keeps (s : Scope) {ts : List Item} (hclean : cleanAll (r.termList s ts).1 = true)
    (eof : Nat) :
    ∃ read, ts = read ++ (r.termList s ts).2 ∧ ∀ us, (read ++ us).length < n →
      Replaces s (r.termList s ts).2 us →
      r'.termList (s.endingAt eof) (read ++ us) = ((r.termList s ts).1, us) := by
  obtain ⟨read, hread, hkeeps⟩ := terms_keeps (h.expr s eof setOpLevel) (Nat.lt_succ_self ts.length)
    hclean
  refine ⟨read, hread, fun us hlen hus => hkeeps us _ hlen hus ?_⟩
  rw [List.length_append]
  omega

theorem everyBody_keeps {s : Scope} {ts : List Item}
    (hclean : (everyBody r s ts).1.clean = true) (eof : Nat) :
    ∃ i read, ts = i :: (read ++ (everyBody r s ts).2) ∧ ∀ us, (read ++ us).length < n →
      everyBody r' (s.endingAt eof) (i :: (read ++ us)) = ((everyBody r s ts).1, us) := by
  cases ts with
  | nil => cases hclean
  | cons j next =>
    rw [everyBody] at hclean ⊢
    split at hclean
    case isTrue hj =>
      rw [if_pos hj]
      obtain ⟨read, hread, hkeeps⟩ := bracedBody_keeps h hclean eof
      refine ⟨j, read, congrArg (j :: ·) hread, fun us hlen => ?_⟩
      rw [everyBody, if_pos hj, hkeeps us hlen]
    case isFalse => cases hclean

theorem clause_keeps (hr : r.Composed Covers) (hp : r.Pairs) (s : Scope) (eof : Nat) :
    Keeps s (n + 1) (r.clause s) (r'.clause (s.endingAt eof)) := by
  intro ts hclean
  cases ts with
  | nil =>
    obtain ⟨i, read, hread, -⟩ := expression_keeps h hr hp s eof assignLevel [] hclean
    cases hread
  | cons i rest =>
    by_cases hevery : i.kind = .keyword .everyKw
    · rw [clause_every hevery] at hclean ⊢
      simp only [Tree.clean_enclose, Tree.cleanAll_append, cleanAll, Bool.and_eq_true] at hclean
      obtain ⟨-, ⟨-, hterms⟩, hbody, -⟩ := hclean
      obtain ⟨read, hread, hkeeps⟩ := termList_keeps h s hterms eof
      obtain ⟨j, later, hlater, hgoes⟩ := everyBody_keeps h hbody eof
      refine ⟨i, read ++ j :: later, ?_, fun us hlen hus => ?_⟩
      · rw [List.append_assoc, List.cons_append, ← hlater, ← hread]
      simp only [List.append_assoc, List.cons_append, List.length_cons, List.length_append]
        at hlen ⊢
      have hthis := hkeeps (j :: (later ++ us))
        (by simp only [List.length_cons, List.length_append]; omega)
        (by rw [hlater]; exact .same j _ _)
      have hbraced := hgoes us (by simp only [List.length_append]; omega)
      rw [clause_every hevery, hthis]
      simp only [hbraced]
      rfl
    by_cases hsome : i.kind = .keyword .someKw
    · rw [clause_some hsome] at hclean ⊢
      have hterms := (Tree.cleanAll_cons.mp (Tree.cleanAll_of_clean_enclose hclean)).2
      obtain ⟨read, hread, hkeeps⟩ := termList_keeps h s hterms eof
      refine ⟨i, read, congrArg (i :: ·) hread, fun us hlen hus => ?_⟩
      rw [clause_some hsome, hkeeps us (Nat.lt_of_succ_lt_succ hlen) hus]
      rfl
    by_cases hnot : i.kind = .keyword .notKw
    · rw [clause_not hnot] at hclean ⊢
      have hvalue := (Tree.cleanAll_cons.mp
        (Tree.cleanAll_cons.mp (Tree.cleanAll_of_clean_enclose hclean)).2).1
      obtain ⟨j, read, hread, hkeeps⟩ := h.expr s eof assignLevel rest hvalue
      refine ⟨i, j :: read, congrArg (i :: ·) hread, fun us hlen hus => ?_⟩
      rw [List.cons_append] at hlen ⊢
      rw [clause_not hnot, hkeeps us (Nat.lt_of_succ_lt_succ hlen) hus]
      rfl
    · rw [clause_expression hsome hevery hnot] at hclean ⊢
      obtain ⟨j, read, hread, hkeeps⟩ := expression_keeps h hr hp s eof assignLevel _ hclean
      obtain rfl : i = j := (List.cons.inj hread).1
      refine ⟨i, read, hread, fun us hlen hus => ?_⟩
      rw [clause_expression hsome hevery hnot]
      exact hkeeps us hlen hus

omit h in
/-- Whether a modifier follows is told from one item. -/
theorem modifiers_none {s : Scope} {i : Item}
    (hi : ¬ (i.kind = .keyword .withKw && !s.stops i) = true) (rounds : Nat) (rest : List Item) :
    r.modifiers s rounds (i :: rest) = ([], i :: rest) := by
  cases rounds with
  | zero => rfl
  | succ rounds => rw [modifiers, if_neg hi]

omit h in
theorem modifiers_goes {s : Scope} {i : Item}
    (hi : (i.kind = .keyword .withKw && !s.stops i) = true) (rounds : Nat) (rest : List Item) :
    r.modifiers s (rounds + 1) (i :: rest) =
      let target := r.expr s unaryLevel rest
      let as := expect (.keyword .asKw) s target.2
      let value := r.expr s setOpLevel as.2
      let more := r.modifiers s rounds value.2
      (.enclose .withModifier (s.here value.2) [i.leaf, target.1, as.1, value.1] :: more.1,
        more.2) := by
  rw [modifiers, if_pos hi]

omit h in
theorem modifiers_ended {s : Scope} {us : List Item} (hus : Ends s us) (eof rounds : Nat) :
    r.modifiers (s.endingAt eof) rounds us = ([], us) := by
  cases us with
  | nil => cases rounds <;> rfl
  | cons i rest =>
    refine modifiers_none (fun hi => ?_) rounds rest
    simp only [Bool.and_eq_true, decide_eq_true_eq, Bool.not_eq_true', stops_endingAt] at hi
    rcases hus.stops_or with hstops | hkind | hkind
    · rw [hi.2] at hstops
      cases hstops
    · rw [hi.1] at hkind
      cases hkind
    · rw [hi.1] at hkind
      cases hkind

theorem modifiers_keep (s : Scope) {rounds : Nat} {ts : List Item} (hrounds : ts.length ≤ rounds)
    (hclean : cleanAll (r.modifiers s rounds ts).1 = true) (eof : Nat) :
    ∃ read, ts = read ++ (r.modifiers s rounds ts).2 ∧ ∀ us rounds', (read ++ us).length ≤ n →
      Replaces s (r.modifiers s rounds ts).2 us → (read ++ us).length ≤ rounds' →
      r'.modifiers (s.endingAt eof) rounds' (read ++ us) = ((r.modifiers s rounds ts).1, us) := by
  induction rounds generalizing ts with
  | zero =>
    obtain rfl := List.eq_nil_of_length_eq_zero (Nat.le_zero.mp hrounds)
    exact ⟨[], rfl, fun us rounds' _ hus _ => modifiers_ended hus.of_nil eof rounds'⟩
  | succ rounds ih =>
    cases ts with
    | nil => exact ⟨[], rfl, fun us rounds' _ hus _ => modifiers_ended hus.of_nil eof rounds'⟩
    | cons i rest =>
      by_cases hi : (i.kind = .keyword .withKw && !s.stops i) = true
      · rw [modifiers_goes hi] at hclean ⊢
        simp only [cleanAll, Tree.clean_enclose, Bool.and_eq_true] at hclean
        obtain ⟨⟨-, -, htarget, has, hvalue, -⟩, hmore⟩ := hclean
        obtain ⟨j, read, hrest, hread⟩ := (h.expr s eof unaryLevel).expected htarget has eof
        obtain ⟨k, value, hafter, hgoes⟩ := h.expr s eof setOpLevel _ hvalue
        have hlength := congrArg List.length (hrest.trans
          (congrArg (fun rest => j :: (read ++ rest)) hafter))
        simp only [List.length_cons, List.length_append] at hlength hrounds
        obtain ⟨later, hleft, hlater⟩ := ih (by omega) hmore
        refine ⟨i :: j :: (read ++ k :: (value ++ later)), ?_,
          fun us rounds' hlen hus hrounds' => ?_⟩
        · simp only [List.cons_append, List.append_assoc, ← hleft, ← hafter]
          exact congrArg (i :: ·) hrest
        simp only [List.cons_append, List.append_assoc] at hlen hrounds' ⊢
        simp only [List.length_cons, List.length_append] at hlen hrounds'
        obtain ⟨m, rfl⟩ : ∃ m, rounds' = m + 1 := ⟨rounds' - 1, by omega⟩
        obtain ⟨left, hthis, hfound⟩ := hread (k :: (value ++ (later ++ us)))
          (by simp only [List.length_cons, List.length_append]; omega)
        have hreplaced := hgoes (later ++ us)
          (by simp only [List.length_cons, List.length_append]; omega)
          (by rw [hleft]; exact hus.append later)
        have hothers := hlater us m (by rw [List.length_append]; omega) hus
          (by rw [List.length_append]; omega)
        rw [modifiers_goes (s := s.endingAt eof) hi]
        simp only [hthis, hfound, hreplaced, hothers]
        rfl
      · rw [modifiers_none hi]
        refine ⟨[], rfl, fun us rounds' _ hus _ => ?_⟩
        rcases hus.of_cons with ⟨us, rfl⟩ | hus
        · exact modifiers_none (s := s.endingAt eof) hi rounds' us
        · exact modifiers_ended hus eof rounds'

omit h in
theorem statement_eq (s : Scope) (ts : List Item) :
    r.statement s ts =
      let clause := r.clause s (settle ts)
      let parts := r.modifiers s clause.2.length clause.2
      (.enclose .statement (s.here parts.2) (clause.1 :: parts.1), parts.2) :=
  rfl

theorem statement_keeps (hr : r.Composed Covers) (hp : r.Pairs) (s : Scope) (eof : Nat) :
    Keeps s (n + 1) (r.statement s) (r'.statement (s.endingAt eof)) := by
  intro ts hclean
  rw [statement_eq] at hclean ⊢
  obtain ⟨hclause, hmodifiers⟩ := Tree.cleanAll_cons.mp (Tree.cleanAll_of_clean_enclose hclean)
  obtain ⟨j, read, hread, hkeeps⟩ := clause_keeps h hr hp s eof _ hclause
  obtain ⟨later, hlater, hgoes⟩ := modifiers_keep h s (Nat.le_refl _) hmodifiers eof
  cases ts with
  | nil => cases hread
  | cons i rest =>
    obtain ⟨hj, hrest⟩ := List.cons.inj hread
    refine ⟨i, read ++ later, ?_, fun us hlen hus => ?_⟩
    · rw [List.append_assoc]
      exact congrArg (i :: ·) (hrest.trans (congrArg (read ++ ·) hlater))
    rw [List.append_assoc] at hlen ⊢
    simp only [List.length_cons, List.length_append] at hlen
    have hthis := hkeeps (later ++ us) (by simp only [List.length_cons, List.length_append]; omega)
      (by rw [hlater]; exact hus.append later)
    have hmore := hgoes us _ (by rw [List.length_append]; omega) hus (Nat.le_refl _)
    have hsettle : settle (i :: (read ++ (later ++ us))) = j :: (read ++ (later ++ us)) :=
      congrArg (· :: (read ++ (later ++ us))) hj
    simp only [statement_eq, hsettle, hthis, hmore]
    rfl

/-- Statements before other items. More of them may follow, and these are read as if they stood
alone. -/
theorem ReadsStatements.keeps (hr : r.Composed Covers) (hp : r.Pairs) {s : Scope} (eof : Nat)
    {closer : Token.Kind} {rounds : Nat} {ts left : List Item} {nodes : List Tree}
    (hreads : ReadsStatements r s closer rounds ts nodes left) :
    ∃ read, ts = read ++ left ∧ ∀ us rounds', (read ++ us).length ≤ n →
      Replaces s left us → SeparatedBy closer us → read.length ≤ rounds' →
      ∃ m, rounds' ≤ m + read.length ∧
        r'.statementList (s.endingAt eof) closer rounds' (read ++ us) =
          (nodes ++ (r'.statementList (s.endingAt eof) closer m us).1,
            (r'.statementList (s.endingAt eof) closer m us).2) := by
  induction hreads with
  | halt => exact ⟨[], rfl, fun us rounds' _ _ _ _ => ⟨rounds', Nat.le_refl _, rfl⟩⟩
  | @semicolon _ i _ _ _ hcloser hi _ ih =>
    obtain ⟨read, rfl, hkeeps⟩ := ih
    refine ⟨i :: read, rfl, fun us rounds' hlen hus hsep hrounds => ?_⟩
    simp only [List.cons_append, List.length_cons] at hlen hrounds ⊢
    obtain ⟨k, rfl⟩ : ∃ k, rounds' = k + 1 := ⟨rounds' - 1, by omega⟩
    obtain ⟨m, hm, hlist⟩ := hkeeps us k (by omega) hus hsep (by omega)
    refine ⟨m, by omega, ?_⟩
    rw [statementList_semicolon hcloser hi, hlist]
  | @statement _ i rest after left _ _ hi hnode hclean hafter _ ih =>
    have hkeeps := statement_keeps h hr hp s eof (i :: rest)
    rw [hnode] at hkeeps
    obtain ⟨i', read, hread, hthis⟩ := hkeeps hclean
    obtain ⟨later, rfl, hothers⟩ := ih
    obtain ⟨rfl, rfl⟩ := List.cons.inj hread
    refine ⟨i :: (read ++ later), congrArg (i :: ·) (List.append_assoc read later left).symm,
      fun us rounds' hlen hus hsep hrounds => ?_⟩
    simp only [List.cons_append, List.append_assoc] at hlen ⊢
    have hstatement := hthis (later ++ us) (Nat.lt_succ_of_le hlen) (hus.append later)
    -- What follows the statement separates it from the next one in either text.
    have hnext : SeparatedBy closer (later ++ us) := by
      cases later with
      | nil => exact hsep
      | cons l later => exact hafter
    simp only [List.length_cons, List.length_append] at hlen hrounds ⊢
    obtain ⟨p, rfl⟩ : ∃ p, rounds' = p + 1 := ⟨rounds' - 1, by omega⟩
    obtain ⟨m, hm, hlist⟩ := hothers us p (by rw [List.length_append]; omega) hus hsep (by omega)
    refine ⟨m, by omega, ?_⟩
    rw [statementList_statement hi hstatement hnext, hlist]

theorem step_kept (hr : r.Composed Covers) (hp : r.Pairs) : KeptBy (n + 1) r.step r'.step where
  expr := expression_keeps h hr hp
  statements s eof closer ts hclean j after hend hj := by
    obtain ⟨read, hread, hkeeps⟩ := (readsStatements_of_clean hclean).keeps h hr hp eof
    have hend : (r.statementList s closer ts.length ts).2 = j :: after := hend
    rw [hend] at hread hkeeps
    refine ⟨read, hread, fun us hlen => ?_⟩
    have hsep : SeparatedBy closer (j :: us) := by
      rintro _ ⟨rfl⟩
      rw [hj, decide_eq_true rfl, Bool.true_or, Bool.true_or]
    have hrounds : read.length ≤ (read ++ j :: us).length := by
      rw [List.length_append]
      exact Nat.le_add_right _ _
    obtain ⟨m, -, hlist⟩ := hkeeps (j :: us) (read ++ j :: us).length (Nat.le_of_lt_succ hlen)
      (.same j _ _) hsep hrounds
    rw [statementList_closer _ m j hj, List.append_nil] at hlist
    exact hlist

omit h in
theorem KeptBy.zero (h : KeptBy 1 r r') (r'' : Rules) : KeptBy 0 r r'' where
  expr s eof level ts hclean := by
    obtain ⟨i, read, hread, -⟩ := h.expr s eof level ts hclean
    exact ⟨i, read, hread, fun us hlen => absurd hlen (Nat.not_lt_zero _)⟩
  statements s eof closer ts hclean j after hend hj := by
    obtain ⟨read, hread, -⟩ := h.statements s eof closer ts hclean j after hend hj
    exact ⟨read, hread, fun us hlen => absurd hlen (Nat.not_lt_zero _)⟩

end

/-- Whatever rules read without error, rules for enough items read the same. -/
theorem upTo_kept (n m : Nat) : KeptBy m (upTo n) (upTo m) := by
  induction n generalizing m with
  | zero =>
    refine ⟨fun _ _ _ _ => nofun, fun s eof closer ts _ j after hend hj => ⟨[], hend, ?_⟩⟩
    intro us _
    cases m with
    | zero => rfl
    | succ m => exact statementList_closer _ _ j hj us
  | succ n ih =>
    have hstep : ∀ m, KeptBy (m + 1) (upTo (n + 1)) (upTo (m + 1)) := fun m =>
      step_kept (ih m) (upTo_compose n) (upTo_pairs n)
    cases m with
    | zero => exact (hstep 0).zero (upTo 0)
    | succ m => exact hstep m

end Rules

end PolicyEditor.Grammar
