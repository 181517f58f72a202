import PolicyEditor.Proofs.Grammar.StatementStretch

/-!
A text that is one rule: a name, `if` and a body in braces. It has no error just if the items in the
braces are a stretch of statements, and then its tree is the rule with these statements.
-/

namespace PolicyEditor.Grammar

open PolicyEditor.Tree (cleanAll)

/-- The items that a rule begins with, up to the brace of its body. -/
structure OpensBody (name word opener : Item) : Prop where
  named : name.kind = .identifier
  conditional : word.kind = .keyword .ifKw
  onLine : word.newline = false
  braced : opener.kind = .mark .lbrace

def bracedRule (length : Nat) (name word opener closer : Item) (nodes : List Tree) : Tree :=
  .enclose .rule length
    [.enclose .ruleHead word.token.start [name.leaf], word.leaf,
      .enclose .body length (opener.leaf :: nodes ++ [closer.leaf])]

theorem clean_bracedRule (length : Nat) (name word opener closer : Item) {nodes : List Tree}
    (h : cleanAll nodes = true) :
    (bracedRule length name word opener closer nodes).clean = true := by
  have hleaf : ∀ i : Item, i.leaf.clean = true := fun i => Tree.clean_ofToken i.token
  simp only [bracedRule, Tree.clean_enclose, cleanAll, List.cons_append, Tree.cleanAll_append,
    hleaf, h]
  rfl

theorem childrenOfKind_enclose (k : NodeKind) (here : Nat) (cs : List Tree) (k' : NodeKind) :
    (Tree.enclose k here cs).childrenOfKind k' = cs.filter fun c => c.kind == k' :=
  rfl

section

variable {name word opener : Item} (h : OpensBody name word opener)
include h

/-- The statements in the body of such a text are those in the braces. -/
theorem bodyStatements?_bracedRule (length : Nat) {closer : Item}
    (hcloser : closer.kind = .mark .rbrace) (nodes : List Tree) :
    (Tree.node .script 0 length [bracedRule length name word opener closer nodes]).bodyStatements? =
      some (nodes.filter fun c => c.kind == .statement) := by
  have hword : word.leaf.kind = .keyword := congrArg NodeKind.ofToken h.conditional
  have hopen : opener.leaf.kind = .punctuation := congrArg NodeKind.ofToken h.braced
  have hclose : closer.leaf.kind = .punctuation := congrArg NodeKind.ofToken hcloser
  have hrule : (bracedRule length name word opener closer nodes).onlyChild? .body =
      some (.enclose .body length (opener.leaf :: nodes ++ [closer.leaf])) := by
    rw [Tree.onlyChild?, bracedRule, childrenOfKind_enclose, List.filter_cons, List.filter_cons,
      hword]
    rfl
  have hbody : (Tree.enclose .body length (opener.leaf :: nodes ++ [closer.leaf])).childrenOfKind
      .statement = nodes.filter fun c => c.kind == .statement := by
    rw [childrenOfKind_enclose, List.cons_append, List.filter_cons, hopen, List.filter_append,
      List.filter_singleton, hclose]
    exact List.append_nil _
  show (bracedRule length name word opener closer nodes).onlyChild? .body >>= _ = _
  rw [hrule]
  exact congrArg some hbody

namespace Rules

variable {r : Rules} (s : Scope) (rest : List Item)

omit h in
/-- A name is the whole head of a rule, if nothing that goes on with a head follows it. -/
theorem head_of_name (hname : name.kind = .identifier) (hdot : word.kind ≠ .mark .dot)
    (hbracket : word.kind ≠ .mark .lbracket) (hparen : word.kind ≠ .mark .lparen) :
    r.head s (name :: word :: rest) =
      (.enclose .ruleHead word.token.start [name.leaf], word :: rest) := by
  have hpath : ∀ rounds, r.pathTail s rounds (word :: rest) = ([], word :: rest) := by
    intro rounds
    cases rounds with
    | zero => rfl
    | succ rounds => simp only [pathTail, if_neg hdot, if_neg hbracket, ite_self]
  have hargs : parameters r s (word :: rest) = ([], word :: rest) := by
    simp only [parameters, hparen, decide_false, Bool.false_and, Bool.false_eq_true, if_false]
  rw [head_eq, expect_found hname, hpath, hargs]
  rfl

theorem head_of_opensBody : r.head s (name :: word :: rest) =
    (.enclose .ruleHead word.token.start [name.leaf], word :: rest) := by
  apply head_of_name s rest h.named <;> rw [h.conditional] <;> decide

theorem tail_of_opensBody : r.tail s (word :: opener :: rest) =
    ([word.leaf, (r.bracedBody s opener rest).1], (r.bracedBody s opener rest).2) := by
  have hvalue : (word.kind = .keyword .containsKw || givesValue word.kind) = false := by
    rw [h.conditional]
    decide
  rw [tail, h.onLine, if_neg Bool.false_ne_true, hvalue, if_neg Bool.false_ne_true, body?,
    if_pos h.conditional, ifBody, if_pos h.braced]

/-- The rule is read up to the end of its body, and alternatives may follow. -/
theorem declaration_of_opensBody : r.declaration s name (word :: opener :: rest) =
    let body := r.bracedBody s opener rest
    let others := r.alternatives s body.2.length body.2
    (.enclose .rule (s.here others.2)
      (.enclose .ruleHead word.token.start [name.leaf] :: [word.leaf, body.1] ++ others.1),
      others.2) := by
  rw [declaration, h.named]
  show r.ruleAfter s [] (name :: word :: opener :: rest) = _
  rw [ruleAfter, head_of_opensBody h]
  simp only [tail_of_opensBody h]
  rfl

omit h in
theorem bracedBody_upTo (n : Nat) (opener : Item) :
    (upTo (n + 1)).bracedBody s opener rest =
      let body := (upTo n).statementList s.statement (.mark .rbrace) rest.length rest
      let close := expect (.mark .rbrace) s body.2
      (.enclose .body (s.here close.2) (opener.leaf :: body.1 ++ [close.1]), close.2) :=
  rfl

omit h in
/-- The brackets that open in statements without error close among their items. -/
theorem ReadsStatements.balanced {s : Scope} {n rounds : Nat} {closer : Token.Kind}
    {ts left : List Item} {nodes : List Tree}
    (hreads : ReadsStatements (upTo n) s closer rounds ts nodes left) :
    ∃ read, ts = read ++ left ∧ Balanced read := by
  have hcompose := upTo_compose (C := Covers) n
  have hcovers := statementList_composes hcompose s closer rounds ts
  rw [hreads.eq] at hcovers
  obtain ⟨read, rfl, -⟩ := hreads.keeps (upTo_kept n 0) hcompose (upTo_pairs n) 0
  have htokens := Tree.Reads.tokens_append_rest hcovers
  rw [List.map_append] at htokens
  have hpaired := hreads.paired (upTo_pairs n)
  exact ⟨read, rfl, hpaired.balanced read (List.append_cancel_right htokens).symm⟩

end Rules

variable {length : Nat} {rest : List Item}

theorem script_of_bracedBody {body : Tree}
    (hbody : (Rules.upTo (rest.length + 4)).bracedBody (outermost length) opener rest =
      (body, [])) :
    script length (name :: word :: opener :: rest) =
      [.enclose .rule length
        [.enclose .ruleHead word.token.start [name.leaf], word.leaf, body]] := by
  simp only [script, List.length_cons, Rules.declarations, Rules.declaration_of_opensBody h, hbody]
  rfl

theorem clean_bracedBody
    (hclean : cleanAll (script length (name :: word :: opener :: rest)) = true) :
    ((Rules.upTo (rest.length + 4)).bracedBody (outermost length) opener rest).1.clean = true := by
  have hnode : ((Rules.upTo (rest.length + 4)).declaration (outermost length) name
      (word :: opener :: rest)).1.clean = true := by
    simp only [script, List.length_cons, Rules.declarations] at hclean
    split at hclean
    · exact (Tree.cleanAll_cons.mp hclean).1
    · split at hclean
      · exact (Tree.cleanAll_cons.mp hclean).1
      · exact (Tree.cleanAll_cons.mp hclean).1
  rw [Rules.declaration_of_opensBody h] at hnode
  have hparts := Tree.cleanAll_of_clean_enclose hnode
  simp only [List.cons_append, cleanAll, Bool.and_eq_true] at hparts
  exact hparts.2.2.1

/-- Items that are statements make the body of a rule. -/
theorem script_of_makesStatements {is : List Item} {nodes : List Tree}
    (his : MakesStatements is nodes) {closer : Item} (hcloser : closer.kind = .mark .rbrace) :
    script length (name :: word :: opener :: (is ++ [closer])) =
      [bracedRule length name word opener closer nodes] := by
  have hlength : (is ++ [closer]).length = is.length + 1 := by
    rw [List.length_append, List.length_singleton]
  have hlist : (Rules.upTo ((is ++ [closer]).length + 3)).statementList (outermost length).statement
      (.mark .rbrace) (is ++ [closer]).length (is ++ [closer]) = (nodes, [closer]) :=
    his.closed length hcloser (by omega) (by omega)
  have hbody := Rules.bracedBody_upTo (outermost length) (is ++ [closer])
    ((is ++ [closer]).length + 3) opener
  simp only [hlist, expect_found hcloser] at hbody
  exact script_of_bracedBody h hbody

omit h in
/-- If something followed the first brace that is not opened among the items, it would be inside of
them. -/
theorem eq_of_closed {is read after : List Item} {closer j : Item} (hread : Balanced read)
    (hj : j.kind.isCloser = true) (hclosed : openAfter 0 (is.map Item.kind) = some 0)
    (heq : is ++ [closer] = read ++ j :: after) : is = read ∧ closer = j ∧ after = [] := by
  rcases List.eq_nil_or_concat' after with rfl | ⟨front, last, rfl⟩
  · obtain ⟨rfl, hlast⟩ := List.append_inj' heq rfl
    exact ⟨rfl, (List.cons.inj hlast).1, rfl⟩
  · rw [← List.cons_append, ← List.append_assoc] at heq
    obtain ⟨rfl, -⟩ := List.append_inj' heq rfl
    rw [List.map_append, hread.openAfter_append, List.map_cons, openAfter_closer hj] at hclosed
    cases hclosed

/-- Where nothing is missing, the items in the braces are statements, if all brackets among them
are closed. -/
theorem makesStatements_of_script {is : List Item} {closer : Item}
    (hclosed : openAfter 0 (is.map Item.kind) = some 0)
    (hclean : cleanAll (script length (name :: word :: opener :: (is ++ [closer]))) = true) :
    closer.kind = .mark .rbrace ∧ ∃ nodes, MakesStatements is nodes := by
  have hbody := clean_bracedBody h hclean
  rcases hlist : (Rules.upTo ((is ++ [closer]).length + 3)).statementList
    (outermost length).statement (.mark .rbrace) (is ++ [closer]).length (is ++ [closer])
    with ⟨nodes, left⟩
  rw [Rules.bracedBody_upTo _ _ ((is ++ [closer]).length + 3)] at hbody
  simp only [hlist, List.cons_append, Tree.clean_enclose, cleanAll, Bool.and_eq_true,
    Tree.cleanAll_append] at hbody
  obtain ⟨-, -, hnodes, hclose, -⟩ := hbody
  obtain ⟨j, after, rfl, hj, -⟩ := expect_clean hclose
  have hreads := Rules.readsStatements_of_eq hlist hnodes
  obtain ⟨read, hread, hbalanced⟩ := hreads.balanced
  have hcloser : j.kind.isCloser = true := by
    rw [hj]
    rfl
  obtain ⟨rfl, rfl, rfl⟩ := eq_of_closed hbalanced hcloser hclosed hread
  refine ⟨hj, nodes, _, _, _, closer, ?_, hj, hreads⟩
  rw [List.length_append]
  omega

end

end PolicyEditor.Grammar
