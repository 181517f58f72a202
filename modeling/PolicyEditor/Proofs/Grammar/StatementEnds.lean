import PolicyEditor.Proofs.Grammar.ExpressionLocality

/-!
How expressions and statements end. A line break does not end a statement behind a sign or a word
that something has to follow. Where nothing is missing, no expression and no statement ends with
such a token, unless it is a name after a dot: names may be reserved words.
-/

namespace PolicyEditor.Grammar

open PolicyEditor.Tree (tokens cleanAll)

/-- The last one is a name behind a dot, or nothing has to follow it. -/
def Rests (ts : List Token) : Prop :=
  ∃ front t, ts = front ++ [t] ∧ (continues t.kind = false ∨
    (t.kind.isName = true ∧ ∃ before d, front = before ++ [d] ∧ d.kind = .mark .dot))

theorem Rests.prepend {ts : List Token} (h : Rests ts) (us : List Token) : Rests (us ++ ts) := by
  obtain ⟨front, t, rfl, ht⟩ := h
  refine ⟨us ++ front, t, (List.append_assoc us front [t]).symm, ht.imp_right ?_⟩
  rintro ⟨hname, before, d, rfl, hd⟩
  exact ⟨hname, us ++ before, d, (List.append_assoc us before [d]).symm, hd⟩

theorem rests_singleton {t : Token} (h : continues t.kind = false) : Rests [t] :=
  ⟨[], t, rfl, .inl h⟩

def RestsAll (cs : List Tree) : Prop :=
  Rests (tokens cs)

namespace RestsAll

variable {c : Tree} {cs ds : List Tree}

theorem prepend (h : RestsAll ds) (cs : List Tree) : RestsAll (cs ++ ds) := by
  rw [RestsAll, Tree.tokens_append]
  exact Rests.prepend h _

theorem node (k : NodeKind) (here : Nat) (h : RestsAll cs) : RestsAll [.enclose k here cs] := by
  have htokens : tokens [.enclose k here cs] = tokens cs :=
    (Tree.tokens_node _ _ _ cs []).trans (List.append_nil _)
  rwa [RestsAll, htokens]

theorem leaf {k : NodeKind} {t : Token} (h : continues t.kind = false) : RestsAll [.leaf k t] :=
  rests_singleton h

end RestsAll

/-- What ends with a token that is expected, and found. -/
theorem rests_of_expected {kind : Token.Kind} (hkind : continues kind = false) {s : Scope}
    {ts : List Item} (h : (expect kind s ts).1.clean = true) (cs : List Tree) :
    RestsAll (cs ++ [(expect kind s ts).1]) := by
  obtain ⟨i, rest, -, rfl, hi⟩ := expect_clean h
  rw [hi]
  exact RestsAll.prepend (.leaf hkind) cs

def RestsOne (rule : List Item → Parsed) : Prop :=
  ∀ ts, (rule ts).1.clean = true → RestsAll [(rule ts).1]

def RestsExpr (expr : ExprParser) : Prop :=
  ∀ s level, RestsOne (expr s level)

theorem terms_rest {one : List Item → Parsed} (hone : RestsOne one) {eof : Nat}
    (hcovers : ComposesOne Covers eof one) {rounds : Nat} {ts : List Item}
    (hrounds : ts.length < rounds) (h : cleanAll (terms one rounds ts).1 = true) :
    RestsAll (terms one rounds ts).1 := by
  induction rounds generalizing ts with
  | zero => exact absurd hrounds (Nat.not_lt_zero _)
  | succ rounds ih =>
    have hnode := hone ts
    have hlength := (hcovers ts).length_le
    rcases hp : one ts with ⟨node, after⟩
    rw [hp] at hnode hlength
    simp only [terms, hp] at h ⊢
    cases after with
    | nil => exact hnode (Tree.cleanAll_cons.mp h).1
    | cons j next =>
      by_cases hj : j.kind = .mark .comma
      · simp only [hj, if_true, cleanAll, Bool.and_eq_true] at h ⊢
        rw [List.length_cons] at hlength
        exact (ih (by omega) h.2.2).prepend [node, j.leaf]
      · simp only [hj, if_false] at h ⊢
        exact hnode (Tree.cleanAll_cons.mp h).1

theorem part_rests {expr : ExprParser} {s : Scope} {i : Item} {rest : List Item}
    {q : NodeKind × ParsedList} (h : part expr s i rest = some q)
    (hclean : cleanAll q.2.1 = true) : RestsAll q.2.1 := by
  unfold part at h
  split at h
  · cases h
  split at h
  case isTrue hi =>
    cases h
    have hname := (Tree.cleanAll_cons.mp (Tree.cleanAll_cons.mp hclean).2).1
    cases rest with
    | nil => cases hname
    | cons j next =>
      rw [member] at hname ⊢
      split at hname
      case isTrue hj =>
        rw [if_pos hj]
        exact ⟨[i.token], j.token, rfl,
          .inr ⟨(Bool.and_eq_true_iff.mp hj).1, [], i.token, rfl, hi⟩⟩
      case isFalse => cases hname
  split at h
  case isTrue hi =>
    cases h
    have hclose := (Tree.cleanAll_cons.mp (Tree.cleanAll_cons.mp hclean).2).2
    exact rests_of_expected rfl (Tree.cleanAll_cons.mp hclose).1 [_, _]
  split at h
  case isTrue hi =>
    cases h
    have hargs := Tree.cleanAll_of_clean_enclose (Tree.cleanAll_cons.mp hclean).1
    rw [Tree.cleanAll_append, Bool.and_eq_true] at hargs
    exact (rests_of_expected rfl (Tree.cleanAll_cons.mp hargs.2).1 _).node _ _
  · cases h

theorem references_rest {expr : ExprParser} {s : Scope} {rounds : Nat} {base : Tree}
    (hbase : base.clean = true → RestsAll [base]) (ts : List Item) :
    (references expr s rounds base ts).1.clean = true →
      RestsAll [(references expr s rounds base ts).1] := by
  induction rounds generalizing base ts with
  | zero => exact hbase
  | succ rounds ih =>
    cases ts with
    | nil => exact hbase
    | cons i rest =>
      rcases hpart : part expr s i rest with _ | q
      · rw [references_none hpart]
        exact hbase
      · rw [references_some hpart]
        refine ih (fun h => ?_) q.2.2
        have hparts := (Tree.cleanAll_cons.mp (Tree.cleanAll_of_clean_enclose h)).2
        exact ((part_rests hpart hparts).prepend [base]).node _ _

theorem unaryWith_rests {s : Scope} {operand : List Item → Parsed} (hoperand : RestsOne operand) :
    RestsOne (unaryWith operand s) := by
  intro ts
  induction ts with
  | nil => exact hoperand []
  | cons i rest ih =>
    rw [unaryWith]
    split
    · intro h
      have hnode := (Tree.cleanAll_cons.mp (Tree.cleanAll_of_clean_enclose h)).2
      exact ((ih (Tree.cleanAll_cons.mp hnode).1).prepend [i.leaf]).node _ _
    · exact hoperand (i :: rest)

theorem binaryTail_rests {expr : ExprParser} (hexpr : RestsExpr expr) {s : Scope}
    {level rounds : Nat} {left : Tree} (hleft : left.clean = true → RestsAll [left])
    (ts : List Item) :
    (binaryTail expr s level rounds left ts).1.clean = true →
      RestsAll [(binaryTail expr s level rounds left ts).1] := by
  induction rounds generalizing left ts with
  | zero => exact hleft
  | succ rounds ih =>
    cases ts with
    | nil => exact hleft
    | cons i rest =>
      rw [binaryTail]
      split
      · exact hleft
      split
      · exact hleft
      · refine ih (fun h => ?_) _
        have hparts := (Tree.cleanAll_cons.mp (Tree.cleanAll_of_clean_enclose h)).2
        have hright := (Tree.cleanAll_cons.mp (Tree.cleanAll_cons.mp hparts).2).1
        exact ((hexpr s _ rest hright).prepend [left, i.leaf]).node _ _

theorem continues_of_isLiteral {k : Token.Kind} (h : k.isLiteral = true) : continues k = false := by
  unfold Token.Kind.isLiteral at h
  split at h <;> first | rfl | cases h

namespace Rules

variable {r : Rules}

theorem bracedBody_rests {s : Scope} {opener : Item} {rest : List Item}
    (h : (r.bracedBody s opener rest).1.clean = true) :
    RestsAll [(r.bracedBody s opener rest).1] := by
  have hparts := Tree.cleanAll_of_clean_enclose h
  rw [Tree.cleanAll_append, Bool.and_eq_true] at hparts
  exact (rests_of_expected rfl (Tree.cleanAll_cons.mp hparts.2).1 _).node _ _

theorem collection_rests {kind : NodeKind} {one : List Item → Parsed} {closer : Token.Kind}
    (hcloser : continues closer = false) {s : Scope} {opener : Item} {rest : List Item}
    (h : (collection kind one closer s opener rest).1.clean = true) :
    RestsAll [(collection kind one closer s opener rest).1] := by
  have hparts := Tree.cleanAll_of_clean_enclose h
  rw [Tree.cleanAll_append, Bool.and_eq_true] at hparts
  exact (rests_of_expected hcloser (Tree.cleanAll_cons.mp hparts.2).1 _).node _ _

theorem comprehension_rests {kind : NodeKind} {head : List Item → Parsed} {closer : Token.Kind}
    (hcloser : continues closer = false) {s : Scope} {opener : Item} {rest : List Item}
    (h : (r.comprehension kind head closer s opener rest).1.clean = true) :
    RestsAll [(r.comprehension kind head closer s opener rest).1] := by
  simp only [comprehension, Tree.clean_enclose, cleanAll, Bool.and_eq_true] at h
  exact (rests_of_expected hcloser h.2.2.2.2.2.1 [_, _, _, _]).node _ _

theorem own_rests {s : Scope} {i : Item} {f : List Item → Parsed} (hown : r.own? s i = some f)
    {rest : List Item} (h : (f rest).1.clean = true) : RestsAll [(f rest).1] := by
  unfold own? at hown
  split at hown
  · cases hown
  split at hown
  case isTrue hi =>
    cases hown
    exact .leaf (continues_of_isLiteral hi)
  split at hown
  · cases hown
    have hparts := (Tree.cleanAll_cons.mp (Tree.cleanAll_cons.mp
      (Tree.cleanAll_of_clean_enclose h)).2).2
    exact (rests_of_expected rfl (Tree.cleanAll_cons.mp hparts).1 [_, _]).node _ _
  split at hown
  · cases hown
    rw [brackets] at h ⊢
    split at h
    · exact comprehension_rests rfl h
    · exact collection_rests rfl h
  split at hown
  · cases hown
    rw [braces] at h ⊢
    split at h
    · exact comprehension_rests rfl h
    · exact comprehension_rests rfl h
    · exact collection_rests rfl h
    · exact collection_rests rfl h
    · exact bracedBody_rests h
  · cases hown

theorem operand_rests (s : Scope) : RestsOne (r.operand s) := by
  intro ts h
  cases ts with
  | nil => cases h
  | cons i rest =>
    obtain ⟨f, hf⟩ := own_of_clean h
    rw [operand_own hf] at h ⊢
    exact references_rest (own_rests hf) _ h

theorem expression_rests (hexpr : RestsExpr r.expr) : RestsExpr r.expression := fun s _ ts =>
  binaryTail_rests hexpr (unaryWith_rests (operand_rests s) ts) _

theorem upTo_rests (n : Nat) : RestsExpr (upTo n).expr := by
  induction n with
  | zero => exact fun _ _ _ => nofun
  | succ n ih => exact expression_rests ih

section

variable (hexpr : RestsExpr r.expr) (hr : r.Composed Covers)
include hexpr hr

theorem termList_rests {s : Scope} {ts : List Item} (h : cleanAll (r.termList s ts).1 = true) :
    RestsAll (r.termList s ts).1 :=
  terms_rest (hexpr s setOpLevel) (hr.expr s setOpLevel) (Nat.lt_succ_self _) h

theorem clause_rests (s : Scope) : RestsOne (r.clause s) := by
  intro ts h
  cases ts with
  | nil => exact expression_rests hexpr s assignLevel [] h
  | cons i rest =>
    by_cases hevery : i.kind = .keyword .everyKw
    · rw [clause_every hevery] at h ⊢
      have hparts := Tree.cleanAll_of_clean_enclose h
      rw [Tree.cleanAll_append, Bool.and_eq_true] at hparts
      have hbody := (Tree.cleanAll_cons.mp hparts.2).1
      refine RestsAll.node _ _ (RestsAll.prepend ?_ _)
      rcases hafter : (r.termList s rest).2 with _ | ⟨j, next⟩
      · rw [hafter] at hbody
        cases hbody
      · rw [hafter, everyBody] at hbody
        rw [everyBody]
        split at hbody
        case isTrue hj =>
          rw [if_pos hj]
          exact bracedBody_rests hbody
        case isFalse => cases hbody
    by_cases hsome : i.kind = .keyword .someKw
    · rw [clause_some hsome] at h ⊢
      have hterms := (Tree.cleanAll_cons.mp (Tree.cleanAll_of_clean_enclose h)).2
      exact ((termList_rests hexpr hr hterms).prepend [i.leaf]).node _ _
    by_cases hnot : i.kind = .keyword .notKw
    · rw [clause_not hnot] at h ⊢
      have hvalue := (Tree.cleanAll_cons.mp (Tree.cleanAll_of_clean_enclose h)).2
      exact ((hexpr s _ rest (Tree.cleanAll_cons.mp hvalue).1).prepend [i.leaf]).node _ _
    · rw [clause_expression hsome hevery hnot] at h ⊢
      exact expression_rests hexpr s assignLevel _ h

omit hr in
theorem modifiers_rest {s : Scope} {rounds : Nat} {ts : List Item}
    (h : cleanAll (r.modifiers s rounds ts).1 = true) :
    (r.modifiers s rounds ts).1 = [] ∨ RestsAll (r.modifiers s rounds ts).1 := by
  induction rounds generalizing ts with
  | zero => exact .inl rfl
  | succ rounds ih =>
    cases ts with
    | nil => exact .inl rfl
    | cons i rest =>
      by_cases hi : (i.kind = .keyword .withKw && !s.stops i) = true
      · rw [modifiers_goes hi] at h ⊢
        simp only [cleanAll, Tree.clean_enclose, Bool.and_eq_true] at h ⊢
        obtain ⟨⟨-, -, -, -, hvalue, -⟩, hmore⟩ := h
        right
        rcases ih hmore with hnil | hrests
        · rw [hnil]
          exact ((hexpr s _ _ hvalue).prepend [_, _, _]).node _ _
        · exact hrests.prepend [_]
      · exact .inl (by rw [modifiers_none hi])

theorem statement_rests (s : Scope) : RestsOne (r.statement s) := by
  intro ts h
  rw [statement_eq] at h ⊢
  obtain ⟨hclause, hmodifiers⟩ := Tree.cleanAll_cons.mp (Tree.cleanAll_of_clean_enclose h)
  have hrest := clause_rests hexpr hr s _ hclause
  refine RestsAll.node _ _ ?_
  rcases modifiers_rest hexpr hmodifiers with hnil | hrests
  · rw [hnil]
    exact hrest
  · exact hrests.prepend [_]

/-- Statements end with one of them or with a semicolon. -/
theorem ReadsStatements.rests {s : Scope} {closer : Token.Kind} {rounds : Nat}
    {ts left : List Item} {nodes : List Tree}
    (h : ReadsStatements r s closer rounds ts nodes left) : nodes = [] ∨ RestsAll nodes := by
  induction h with
  | halt => exact .inl rfl
  | @semicolon _ i _ _ _ _ hi _ ih =>
    right
    rcases ih with rfl | hrests
    · exact .leaf (congrArg continues hi)
    · exact hrests.prepend [i.leaf]
  | @statement _ i rest _ _ node _ _ hnode hclean _ _ ih =>
    right
    have hstatement := statement_rests hexpr hr s (i :: rest)
    rw [hnode] at hstatement
    rcases ih with rfl | hrests
    · exact hstatement hclean
    · exact hrests.prepend [node]

end

end Rules

end PolicyEditor.Grammar
