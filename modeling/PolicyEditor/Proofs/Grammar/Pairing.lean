import PolicyEditor.Proofs.Grammar.Nesting
import PolicyEditor.Proofs.Grammar.ScriptCoverage
import PolicyEditor.Proofs.Tree.Clean

/-!
What trees without error nodes say of the text that they read: all of its tokens are tokens of the
language, and its brackets pair up. Every rule takes a bracket together with its counterpart; any
other bracket ends up in an error node, and so does any invalid token.
-/

namespace PolicyEditor.Grammar

open PolicyEditor.Tree (tokens cleanAll)

def isPlain (k : Token.Kind) : Bool :=
  !k.isOpener && !k.isCloser && k != .invalid

/-- The brackets among the tokens of these trees pair up, and no token is invalid. -/
structure Paired (cs : List Tree) : Prop where
  balanced : ∀ is : List Item, is.map Item.token = tokens cs → Balanced is
  valid : ∀ t ∈ tokens cs, t.kind ≠ .invalid

namespace Paired

variable {c : Tree} {cs ds : List Tree}

theorem nil : Paired [] where
  balanced is h := by
    obtain rfl := List.map_eq_nil_iff.mp h
    exact .nil
  valid := nofun

theorem append (h : Paired cs) (h' : Paired ds) : Paired (cs ++ ds) where
  balanced is his := by
    rw [Tree.tokens_append] at his
    obtain ⟨js, ks, rfl, hjs, hks⟩ := List.map_eq_append_iff.mp his
    exact (h.balanced js hjs).append (h'.balanced ks hks)
  valid t ht := by
    rw [Tree.tokens_append] at ht
    exact (List.mem_append.mp ht).elim (h.valid t) (h'.valid t)

theorem cons (h : Paired [c]) (h' : Paired cs) : Paired (c :: cs) :=
  h.append h'

theorem node (k : NodeKind) (here : Nat) (h : Paired cs) : Paired [.enclose k here cs] := by
  have htokens : tokens [.enclose k here cs] = tokens cs :=
    (Tree.tokens_node _ _ _ cs []).trans (List.append_nil _)
  exact ⟨fun is his => h.balanced is (his.trans htokens), fun t ht => h.valid t (htokens ▸ ht)⟩

theorem leaf {t : Token} (k : NodeKind) (ht : isPlain t.kind = true) : Paired [.leaf k t] := by
  simp only [isPlain, Bool.and_eq_true, Bool.not_eq_true', bne_iff_ne, ne_eq] at ht
  obtain ⟨⟨hopen, hclose⟩, hvalid⟩ := ht
  constructor
  · intro is his
    obtain ⟨i, rest, rfl, hi, hrest⟩ := List.map_eq_cons_iff.mp his
    obtain rfl := List.map_eq_nil_iff.mp hrest
    obtain rfl := hi
    exact .plain hopen hclose trivial .nil
  · intro u hu
    obtain rfl := List.mem_singleton.mp hu
    exact hvalid

/-- A bracket, what it holds, and its counterpart. -/
theorem group {i j : Item} (hi : i.kind.isOpener = true) (hj : j.kind.isCloser = true)
    (h : Paired cs) : Paired (i.leaf :: cs ++ [j.leaf]) := by
  have htokens : tokens (i.leaf :: cs ++ [j.leaf]) = i.token :: (tokens cs ++ [j.token]) := by
    rw [List.cons_append, Item.leaf, Tree.ofToken, Tree.tokens_leaf, Tree.tokens_append]
    rfl
  constructor
  · intro is his
    rw [htokens] at his
    obtain ⟨i', rest, rfl, hi', hrest⟩ := List.map_eq_cons_iff.mp his
    obtain ⟨inside, last, rfl, hinside, hlast⟩ := List.map_eq_append_iff.mp hrest
    obtain ⟨j', none, rfl, hj', hnone⟩ := List.map_eq_cons_iff.mp hlast
    obtain rfl := List.map_eq_nil_iff.mp hnone
    refine .group ?_ ?_ trivial (h.balanced inside hinside) .nil
    · rwa [Item.kind, hi']
    · rwa [Item.kind, hj']
  · intro t ht
    rw [htokens] at ht
    simp only [List.mem_cons, List.mem_append, List.not_mem_nil, or_false] at ht
    rcases ht with rfl | ht | rfl
    · exact fun h => by simp [Item.kind, h, Token.Kind.isOpener] at hi
    · exact h.valid t ht
    · exact fun h => by simp [Item.kind, h, Token.Kind.isCloser] at hj

end Paired

theorem isPlain_of_isName {k : Token.Kind} (h : k.isName = true) : isPlain k = true := by
  cases k <;> first | rfl | cases h

theorem isPlain_of_isLiteral {k : Token.Kind} (h : k.isLiteral = true) : isPlain k = true := by
  unfold Token.Kind.isLiteral at h
  split at h <;> first | rfl | cases h

theorem isPlain_of_binding {k : Token.Kind} {b : Binding} (h : binding? k = some b) :
    isPlain k = true := by
  unfold binding? at h
  split at h <;> first | rfl | cases h

theorem Item.leaf_paired {i : Item} {k : Token.Kind} (hi : i.kind = k) (hk : isPlain k = true) :
    Paired [i.leaf] :=
  .leaf _ (by rwa [← hi] at hk)

/-- A token that is expected and not missing stands there. -/
theorem expect_clean {kind : Token.Kind} {s : Scope} {ts : List Item}
    (h : (expect kind s ts).1.clean = true) :
    ∃ i rest, ts = i :: rest ∧ i.kind = kind ∧ expect kind s ts = (i.leaf, rest) := by
  cases ts with
  | nil => cases h
  | cons i rest =>
    by_cases hi : i.kind = kind
    · exact ⟨i, rest, rfl, hi, by rw [expect, if_pos hi]⟩
    · rw [expect, if_neg hi] at h
      cases h

theorem expect_paired {kind : Token.Kind} (hkind : isPlain kind = true) {s : Scope}
    {ts : List Item} (h : (expect kind s ts).1.clean = true) :
    Paired [(expect kind s ts).1] := by
  obtain ⟨i, rest, -, rfl, hi⟩ := expect_clean h
  rw [hi]
  exact i.leaf_paired rfl hkind

/-- What stands between a bracket and the counterpart that is expected, and found. -/
theorem Paired.closed {opener : Item} (hopener : opener.kind.isOpener = true) {cs : List Tree}
    (hcs : Paired cs) {kind : Token.Kind} (hkind : kind.isCloser = true) {s : Scope}
    {ts : List Item} (h : (expect kind s ts).1.clean = true) :
    Paired (opener.leaf :: cs ++ [(expect kind s ts).1]) := by
  obtain ⟨j, rest, -, rfl, hj⟩ := expect_clean h
  rw [hj]
  exact .group hopener hkind hcs

def PairsOne (rule : List Item → Parsed) : Prop :=
  ∀ ts, (rule ts).1.clean = true → Paired [(rule ts).1]

theorem separated_paired {one : List Item → Parsed} (hone : PairsOne one) (closer : Token.Kind)
    (rounds : Nat) (ts : List Item) (h : cleanAll (separated one closer rounds ts).1 = true) :
    Paired (separated one closer rounds ts).1 := by
  induction rounds generalizing ts with
  | zero => exact .nil
  | succ rounds ih =>
    cases ts with
    | nil => exact .nil
    | cons i rest =>
      by_cases hc : i.kind = closer
      · simp only [separated, hc, if_true]
        exact .nil
      · have hnode := hone (i :: rest)
        rcases hp : one (i :: rest) with ⟨node, after⟩
        rw [hp] at hnode
        simp only [separated, hc, if_false, hp] at h ⊢
        cases after with
        | nil => exact hnode (Bool.and_eq_true_iff.mp h).1
        | cons j next =>
          by_cases hj : j.kind = .mark .comma
          · simp only [hj, if_true, cleanAll, Bool.and_eq_true] at h ⊢
            exact (hnode h.1).cons ((j.leaf_paired hj rfl).cons (ih next h.2.2))
          · simp only [hj, if_false] at h ⊢
            exact hnode (Bool.and_eq_true_iff.mp h).1

theorem terms_paired {one : List Item → Parsed} (hone : PairsOne one) (rounds : Nat)
    (ts : List Item) (h : cleanAll (terms one rounds ts).1 = true) :
    Paired (terms one rounds ts).1 := by
  induction rounds generalizing ts with
  | zero => exact .nil
  | succ rounds ih =>
    have hnode := hone ts
    rcases hp : one ts with ⟨node, after⟩
    rw [hp] at hnode
    simp only [terms, hp] at h ⊢
    cases after with
    | nil => exact hnode (Bool.and_eq_true_iff.mp h).1
    | cons j next =>
      by_cases hj : j.kind = .mark .comma
      · simp only [hj, if_true, cleanAll, Bool.and_eq_true] at h ⊢
        exact (hnode h.1).cons ((j.leaf_paired hj rfl).cons (ih next h.2.2))
      · simp only [hj, if_false] at h ⊢
        exact hnode (Bool.and_eq_true_iff.mp h).1

def PairsExpr (expr : ExprParser) : Prop :=
  ∀ s level, PairsOne (expr s level)

theorem arguments_paired {expr : ExprParser} (hexpr : PairsExpr expr) (s : Scope) {opener : Item}
    (hopener : opener.kind.isOpener = true) (rest : List Item)
    (h : (arguments expr s opener rest).1.clean = true) :
    Paired [(arguments expr s opener rest).1] := by
  simp only [arguments, Tree.clean_enclose, Tree.cleanAll_append, cleanAll, Bool.and_eq_true] at h
  obtain ⟨-, ⟨-, hargs⟩, hcloser, -⟩ := h
  have hinside := separated_paired (hexpr s.bracketed assignLevel) _ _ _ hargs
  exact (Paired.closed hopener hinside rfl hcloser).node _ _

theorem index_paired {expr : ExprParser} (hexpr : PairsExpr expr) (s : Scope) {opener : Item}
    (hopener : opener.kind.isOpener = true) (rest : List Item)
    (h : cleanAll (index expr s opener rest).1 = true) :
    Paired (index expr s opener rest).1 := by
  simp only [index, cleanAll, Bool.and_eq_true] at h
  obtain ⟨-, hvalue, hcloser, -⟩ := h
  exact Paired.closed hopener (hexpr _ _ _ hvalue) rfl hcloser

theorem member_paired (s : Scope) (rest : List Item)
    (hclean : (member s rest).1.clean = true) : Paired [(member s rest).1] := by
  cases rest with
  | nil => cases hclean
  | cons j next =>
    rw [member] at hclean ⊢
    split at hclean
    case isTrue hj =>
      rw [if_pos hj]
      exact .leaf _ (isPlain_of_isName (Bool.and_eq_true_iff.mp hj).1)
    case isFalse => cases hclean

theorem part_paired {expr : ExprParser} (hexpr : PairsExpr expr) {s : Scope} {i : Item}
    {rest : List Item} {q : NodeKind × ParsedList} (h : part expr s i rest = some q)
    (hclean : cleanAll q.2.1 = true) : Paired q.2.1 := by
  unfold part at h
  split at h
  · cases h
  split at h
  case isTrue hi =>
    cases h
    have hname := (Tree.cleanAll_cons.mp (Tree.cleanAll_cons.mp hclean).2).1
    have hdot : Paired [i.leaf] := i.leaf_paired hi rfl
    exact hdot.cons (member_paired s rest hname)
  split at h
  case isTrue hi =>
    cases h
    exact index_paired hexpr s (by rw [hi]; rfl) rest hclean
  split at h
  case isTrue hi =>
    cases h
    have hargs := (Tree.cleanAll_cons.mp hclean).1
    exact arguments_paired hexpr s (by rw [hi]; rfl) rest hargs
  · cases h

/-- References wrap the operand before them, and so do operators. -/
theorem clean_of_references {expr : ExprParser} {s : Scope} {rounds : Nat} {base : Tree}
    {ts : List Item} (h : (references expr s rounds base ts).1.clean = true) :
    base.clean = true := by
  induction rounds generalizing base ts with
  | zero => exact h
  | succ rounds ih =>
    cases ts with
    | nil => exact h
    | cons i rest =>
      rcases hpart : part expr s i rest with _ | q
      · rwa [references_none hpart] at h
      · rw [references_some hpart] at h
        exact (Tree.cleanAll_cons.mp (Tree.cleanAll_of_clean_enclose (ih h))).1

theorem clean_of_binaryTail {expr : ExprParser} {s : Scope} {level rounds : Nat} {left : Tree}
    {ts : List Item} (h : (binaryTail expr s level rounds left ts).1.clean = true) :
    left.clean = true := by
  induction rounds generalizing left ts with
  | zero => exact h
  | succ rounds ih =>
    cases ts with
    | nil => exact h
    | cons i rest =>
      rw [binaryTail] at h
      split at h
      · exact h
      split at h
      · exact h
      · exact (Tree.cleanAll_cons.mp (Tree.cleanAll_of_clean_enclose (ih h))).1

/-- References wrap the operand before them. -/
theorem references_paired {expr : ExprParser} (hexpr : PairsExpr expr) (s : Scope) (rounds : Nat)
    {base : Tree} (hbase : base.clean = true → Paired [base]) (ts : List Item) :
    (references expr s rounds base ts).1.clean = true →
      Paired [(references expr s rounds base ts).1] := by
  -- On the rounds: what one makes is the operand of the next. Whether it has an error is known at
  -- the end only, so the operand comes with an implication.
  induction rounds generalizing base ts with
  | zero => exact hbase
  | succ rounds ih =>
    cases ts with
    | nil => exact hbase
    | cons i rest =>
      rcases hpart : part expr s i rest with _ | q
      · rw [references_none hpart]
        exact hbase
      · rw [references_some hpart]
        refine ih (fun h => ?_) q.2.2
        obtain ⟨hb, hparts⟩ := Tree.cleanAll_cons.mp (Tree.cleanAll_of_clean_enclose h)
        exact ((hbase hb).cons (part_paired hexpr hpart hparts)).node _ _

theorem unaryWith_paired {s : Scope} {operand : List Item → Parsed} (hoperand : PairsOne operand) :
    PairsOne (unaryWith operand s) := by
  intro ts
  induction ts with
  | nil => exact hoperand []
  | cons i rest ih =>
    rw [unaryWith]
    split
    case isTrue hi =>
      intro h
      simp only [Tree.clean_enclose, cleanAll, Bool.and_eq_true] at h
      have hsign : isPlain i.kind = true := by
        simp only [Bool.and_eq_true, Bool.or_eq_true, decide_eq_true_eq, beq_iff_eq] at hi
        rcases hi.1 with hi | hi <;> rw [hi] <;> rfl
      exact ((i.leaf_paired rfl hsign).cons (ih h.2.2.1)).node _ _
    case isFalse => exact hoperand (i :: rest)

theorem binaryTail_paired {expr : ExprParser} (hexpr : PairsExpr expr) (s : Scope)
    (level rounds : Nat) {left : Tree} (hleft : left.clean = true → Paired [left])
    (ts : List Item) :
    (binaryTail expr s level rounds left ts).1.clean = true →
      Paired [(binaryTail expr s level rounds left ts).1] := by
  -- On the rounds, as for references: every operator wraps the operand before it.
  induction rounds generalizing left ts with
  | zero => exact hleft
  | succ rounds ih =>
    cases ts with
    | nil => exact hleft
    | cons i rest =>
      rw [binaryTail]
      split
      · exact hleft
      case h_2 b hb =>
        split
        · exact hleft
        · refine ih (fun h => ?_) _
          simp only [Tree.clean_enclose, cleanAll, Bool.and_eq_true] at h
          obtain ⟨-, hl, -, hright, -⟩ := h
          have hsign : Paired [i.leaf] := i.leaf_paired rfl (isPlain_of_binding hb)
          exact ((hleft hl).cons (hsign.cons (hexpr s _ rest hright))).node _ _

namespace Rules

/-- The rules put every bracket and every invalid token that stands alone in an error node. -/
structure Pairs (r : Rules) : Prop where
  expr : PairsExpr r.expr
  statements : ∀ s closer ts, cleanAll (r.statements s closer ts).1 = true →
    Paired (r.statements s closer ts).1

variable {r : Rules}

theorem objectItem_paired (h : r.Pairs) (s : Scope) : PairsOne (r.objectItem s) := by
  intro ts hclean
  simp only [objectItem, Tree.clean_enclose, cleanAll, Bool.and_eq_true] at hclean
  obtain ⟨-, hkey, hcolon, hvalue, -⟩ := hclean
  have hpair := (expect_paired rfl hcolon).cons (h.expr _ _ _ hvalue)
  exact ((h.expr _ _ _ hkey).cons hpair).node _ _

theorem comprehension_paired (h : r.Pairs) {kind : NodeKind} {s : Scope}
    {head : List Item → Parsed} (hhead : PairsOne head) {closer : Token.Kind}
    (hcloser : closer.isCloser = true) {opener : Item} (hopener : opener.kind.isOpener = true)
    (rest : List Item) (hclean : (r.comprehension kind head closer s opener rest).1.clean = true) :
    Paired [(r.comprehension kind head closer s opener rest).1] := by
  simp only [comprehension, Tree.clean_enclose, cleanAll, Bool.and_eq_true] at hclean
  obtain ⟨-, -, hvalue, hbar, ⟨-, hbody⟩, hclose, -⟩ := hclean
  have hinside := (hhead rest hvalue).cons ((expect_paired rfl hbar).cons
    ((h.statements _ _ _ hbody).node .body (s.here (r.statements s.statement closer
      (expect (.operator .pipe) s (head rest).2).2).2)))
  exact (Paired.closed hopener hinside hcloser hclose).node _ _

theorem collection_paired {kind : NodeKind} {s : Scope} {one : List Item → Parsed}
    (hone : PairsOne one) {closer : Token.Kind} (hcloser : closer.isCloser = true) {opener : Item}
    (hopener : opener.kind.isOpener = true) (rest : List Item)
    (hclean : (collection kind one closer s opener rest).1.clean = true) :
    Paired [(collection kind one closer s opener rest).1] := by
  simp only [collection, Tree.clean_enclose, Tree.cleanAll_append, cleanAll,
    Bool.and_eq_true] at hclean
  obtain ⟨-, ⟨-, hparts⟩, hclose, -⟩ := hclean
  exact (Paired.closed hopener (separated_paired hone _ _ _ hparts) hcloser hclose).node _ _

theorem bracedBody_paired (h : r.Pairs) (s : Scope) {opener : Item}
    (hopener : opener.kind.isOpener = true) (rest : List Item)
    (hclean : (r.bracedBody s opener rest).1.clean = true) :
    Paired [(r.bracedBody s opener rest).1] := by
  simp only [bracedBody, Tree.clean_enclose, Tree.cleanAll_append, cleanAll,
    Bool.and_eq_true] at hclean
  obtain ⟨-, ⟨-, hbody⟩, hclose, -⟩ := hclean
  exact (Paired.closed hopener (h.statements _ _ _ hbody) rfl hclose).node _ _

theorem brackets_paired (h : r.Pairs) (s : Scope) {opener : Item}
    (hopener : opener.kind.isOpener = true) (rest : List Item) :
    (r.brackets s opener rest).1.clean = true → Paired [(r.brackets s opener rest).1] := by
  rw [brackets]
  split
  · exact comprehension_paired h (h.expr s.head assignLevel) rfl hopener rest
  · exact collection_paired (h.expr s.bracketed assignLevel) rfl hopener rest

theorem braces_paired (h : r.Pairs) (s : Scope) {opener : Item}
    (hopener : opener.kind.isOpener = true) (rest : List Item) :
    (r.braces s opener rest).1.clean = true → Paired [(r.braces s opener rest).1] := by
  rw [braces]
  split
  · exact comprehension_paired h (objectItem_paired h s.head) rfl hopener rest
  · exact comprehension_paired h (h.expr s.head assignLevel) rfl hopener rest
  · exact collection_paired (objectItem_paired h s.bracketed) rfl hopener rest
  · exact collection_paired (h.expr s.bracketed assignLevel) rfl hopener rest
  · exact bracedBody_paired h s hopener rest

theorem parens_paired (h : r.Pairs) (s : Scope) {opener : Item}
    (hopener : opener.kind.isOpener = true) (rest : List Item)
    (hclean : (r.parens s opener rest).1.clean = true) : Paired [(r.parens s opener rest).1] := by
  simp only [parens, Tree.clean_enclose, cleanAll, Bool.and_eq_true] at hclean
  obtain ⟨-, -, hvalue, hclose, -⟩ := hclean
  exact (Paired.closed hopener (h.expr _ _ _ hvalue) rfl hclose).node _ _

theorem operand_paired (h : r.Pairs) (s : Scope) : PairsOne (r.operand s) := by
  intro ts
  cases ts with
  | nil =>
    intro hclean
    cases hclean
  | cons i rest =>
    rw [operand]
    split
    · intro hclean
      cases hclean
    split
    case isTrue hi =>
      exact references_paired h.expr s _ (fun _ => i.leaf_paired rfl (isPlain_of_isLiteral hi)) _
    split
    case isTrue hi =>
      exact references_paired h.expr s _ (parens_paired h s (by rw [hi]; rfl) rest) _
    split
    case isTrue hi =>
      exact references_paired h.expr s _ (brackets_paired h s (by rw [hi]; rfl) rest) _
    split
    case isTrue hi =>
      exact references_paired h.expr s _ (braces_paired h s (by rw [hi]; rfl) rest) _
    · intro hclean
      cases hclean

theorem expression_paired (h : r.Pairs) (s : Scope) (level : Nat) :
    PairsOne (r.expression s level) := by
  intro ts
  exact binaryTail_paired h.expr s level _ (unaryWith_paired (operand_paired h s) ts) _

theorem termList_paired (h : r.Pairs) (s : Scope) (ts : List Item)
    (hclean : cleanAll (r.termList s ts).1 = true) : Paired (r.termList s ts).1 :=
  terms_paired (h.expr s setOpLevel) _ ts hclean

theorem everyBody_paired (h : r.Pairs) (s : Scope) (ts : List Item)
    (hclean : (everyBody r s ts).1.clean = true) : Paired [(everyBody r s ts).1] := by
  cases ts with
  | nil => cases hclean
  | cons j next =>
    rw [everyBody] at hclean ⊢
    split at hclean
    case isTrue hj =>
      rw [if_pos hj]
      exact bracedBody_paired h s (by rw [hj]; rfl) next hclean
    case isFalse => cases hclean

theorem clause_paired (h : r.Pairs) (s : Scope) : PairsOne (r.clause s) := by
  intro ts
  cases ts with
  | nil => exact expression_paired h s assignLevel []
  | cons i rest =>
    by_cases hevery : i.kind = .keyword .everyKw
    · rw [clause_every hevery]
      intro hclean
      simp only [Tree.clean_enclose, Tree.cleanAll_append, cleanAll, Bool.and_eq_true] at hclean
      obtain ⟨-, ⟨-, hterms⟩, hbody, -⟩ := hclean
      have hword : Paired [i.leaf] := i.leaf_paired hevery rfl
      have hparts := hword.cons (termList_paired h s rest hterms)
      exact (hparts.append (everyBody_paired h s _ hbody)).node _ _
    simp only [clause]
    split
    case h_1 hi =>
      intro hclean
      simp only [Tree.clean_enclose, cleanAll, Bool.and_eq_true] at hclean
      have hword : Paired [i.leaf] := i.leaf_paired hi rfl
      exact (hword.cons (termList_paired h s rest hclean.2.2)).node _ _
    case h_2 hi => exact absurd hi hevery
    case h_3 hi =>
      intro hclean
      simp only [Tree.clean_enclose, cleanAll, Bool.and_eq_true] at hclean
      have hword : Paired [i.leaf] := i.leaf_paired hi rfl
      exact (hword.cons (h.expr _ _ _ hclean.2.2.1)).node _ _
    case h_4 => exact expression_paired h s assignLevel (i :: rest)

theorem modifiers_paired (h : r.Pairs) (s : Scope) (rounds : Nat) (ts : List Item) :
    cleanAll (r.modifiers s rounds ts).1 = true → Paired (r.modifiers s rounds ts).1 := by
  induction rounds generalizing ts with
  | zero => exact fun _ => .nil
  | succ rounds ih =>
    cases ts with
    | nil => exact fun _ => .nil
    | cons i rest =>
      rw [modifiers]
      split
      case isTrue hi =>
        intro hclean
        simp only [Tree.clean_enclose, cleanAll, Bool.and_eq_true] at hclean
        obtain ⟨⟨-, -, htarget, has, hvalue, -⟩, hmore⟩ := hclean
        have hkind : i.kind = .keyword .withKw := by
          simp only [Bool.and_eq_true, decide_eq_true_eq] at hi
          exact hi.1
        have hword : Paired [i.leaf] := i.leaf_paired hkind rfl
        have hreplaced := (expect_paired rfl has).cons (h.expr _ _ _ hvalue)
        have hparts := hword.cons ((h.expr _ _ _ htarget).cons hreplaced)
        exact (hparts.node _ _).cons (ih _ hmore)
      case isFalse => exact fun _ => .nil

theorem statement_paired (h : r.Pairs) (s : Scope) : PairsOne (r.statement s) := by
  intro ts hclean
  simp only [statement, Tree.clean_enclose, cleanAll, Bool.and_eq_true] at hclean
  obtain ⟨-, hclause, hmodifiers⟩ := hclean
  have hnode := clause_paired h s (settle ts) hclause
  exact (hnode.cons (modifiers_paired h s _ _ hmodifiers)).node _ _

theorem not_clean_restOfLine (s : Scope) (stops : List Token.Kind) (i : Item) (rest : List Item) :
    (restOfLine s stops i rest).1.clean = false := rfl

/-! ### Statements without error -/

theorem statementList_nil (s : Scope) (closer : Token.Kind) (rounds : Nat) :
    r.statementList s closer rounds [] = ([], []) := by
  cases rounds <;> rfl

/-- What may follow a statement: nothing, the closing bracket, a semicolon or another line. -/
def SeparatedBy (closer : Token.Kind) (us : List Item) : Prop :=
  ∀ i ∈ us.head?, (i.kind = closer || i.kind == .mark .semicolon || i.newline) = true

theorem statementList_semicolon {s : Scope} {closer : Token.Kind} {i : Item}
    (hcloser : i.kind ≠ closer) (hi : i.kind = .mark .semicolon) (rounds : Nat) (rest : List Item) :
    r.statementList s closer (rounds + 1) (i :: rest) =
      (i.leaf :: (r.statementList s closer rounds rest).1,
        (r.statementList s closer rounds rest).2) := by
  rw [statementList, if_neg hcloser, if_pos hi]

structure BeginsStatement (closer k : Token.Kind) : Prop where
  inside : k ≠ closer
  apart : k ≠ .mark .semicolon
  operand : neverOperand k = false

theorem BeginsStatement.not_stray {closer k : Token.Kind} (h : BeginsStatement closer k) :
    ¬strayAmongStatements closer k = true := by
  rw [strayAmongStatements, h.operand]
  exact Bool.false_ne_true

theorem statementList_statement {s : Scope} {closer : Token.Kind} {i : Item}
    (hi : BeginsStatement closer i.kind) {rest after : List Item} {node : Tree}
    (hnode : r.statement s (i :: rest) = (node, after)) (hafter : SeparatedBy closer after)
    (rounds : Nat) : r.statementList s closer (rounds + 1) (i :: rest) =
      (node :: (r.statementList s closer rounds after).1,
        (r.statementList s closer rounds after).2) := by
  rw [statementList, if_neg hi.inside, if_neg hi.apart, if_neg hi.not_stray, hnode]
  cases after with
  | nil => rw [statementList_nil]
  | cons j next => exact if_pos (hafter j rfl)

/-- Statements as they are read where none of them is an error: semicolons, and statements each of
which may be followed by what comes next. -/
inductive ReadsStatements (r : Rules) (s : Scope) (closer : Token.Kind) :
    (rounds : Nat) → List Item → List Tree → List Item → Prop where
  | halt {rounds : Nat} {ts : List Item} :
    rounds = 0 ∨ (∀ i ∈ ts.head?, i.kind = closer) → ReadsStatements r s closer rounds ts [] ts
  | semicolon {rounds : Nat} {i : Item} {rest left : List Item} {nodes : List Tree} :
    i.kind ≠ closer → i.kind = .mark .semicolon →
    ReadsStatements r s closer rounds rest nodes left →
    ReadsStatements r s closer (rounds + 1) (i :: rest) (i.leaf :: nodes) left
  | statement {rounds : Nat} {i : Item} {rest after left : List Item} {node : Tree}
    {nodes : List Tree} : BeginsStatement closer i.kind →
    r.statement s (i :: rest) = (node, after) → node.clean = true → SeparatedBy closer after →
    ReadsStatements r s closer rounds after nodes left →
    ReadsStatements r s closer (rounds + 1) (i :: rest) (node :: nodes) left

theorem readsStatements_of_clean {s : Scope} {closer : Token.Kind} {rounds : Nat} {ts : List Item}
    (h : cleanAll (r.statementList s closer rounds ts).1 = true) :
    ReadsStatements r s closer rounds ts (r.statementList s closer rounds ts).1
      (r.statementList s closer rounds ts).2 := by
  induction rounds generalizing ts with
  | zero => exact .halt (.inl rfl)
  | succ rounds ih =>
    cases ts with
    | nil => exact .halt (.inr nofun)
    | cons i rest =>
      by_cases hcloser : i.kind = closer
      · rw [statementList, if_pos hcloser]
        refine .halt (.inr ?_)
        rintro _ ⟨rfl⟩
        exact hcloser
      by_cases hsemicolon : i.kind = .mark .semicolon
      · rw [statementList_semicolon hcloser hsemicolon] at h ⊢
        exact .semicolon hcloser hsemicolon (ih (Tree.cleanAll_cons.mp h).2)
      by_cases hoperand : neverOperand i.kind = true
      · rw [statementList, if_neg hcloser, if_neg hsemicolon,
          if_pos (by simp [strayAmongStatements, hoperand, hcloser, hsemicolon])] at h
        cases h
      have hi : BeginsStatement closer i.kind :=
        ⟨hcloser, hsemicolon, Bool.eq_false_iff.mpr hoperand⟩
      rcases hnode : r.statement s (i :: rest) with ⟨node, after⟩
      by_cases hafter : SeparatedBy closer after
      · rw [statementList_statement hi hnode hafter] at h ⊢
        obtain ⟨hclean, hmore⟩ := Tree.cleanAll_cons.mp h
        exact .statement hi hnode hclean hafter (ih hmore)
      -- What is wrong on the line of a statement is an error node of its own.
      cases after with
      | nil => exact absurd nofun hafter
      | cons j next =>
        have hj : ¬(j.kind = closer || j.kind == .mark .semicolon || j.newline) = true := by
          refine mt (fun hj => ?_) hafter
          rintro _ ⟨rfl⟩
          exact hj
        rw [statementList, if_neg hcloser, if_neg hsemicolon, if_neg hi.not_stray, hnode] at h
        simp only [if_neg hj, cleanAll, not_clean_restOfLine, Bool.false_and, Bool.and_false,
          Bool.false_eq_true] at h

theorem readsStatements_of_eq {s : Scope} {closer : Token.Kind} {rounds : Nat}
    {ts left : List Item} {nodes : List Tree}
    (hlist : r.statementList s closer rounds ts = (nodes, left)) (hclean : cleanAll nodes = true) :
    ReadsStatements r s closer rounds ts nodes left := by
  have hreads : cleanAll (r.statementList s closer rounds ts).1 = true →
      ReadsStatements r s closer rounds ts _ _ := readsStatements_of_clean
  rw [hlist] at hreads
  exact hreads hclean

namespace ReadsStatements

variable {s : Scope} {closer : Token.Kind} {rounds : Nat} {ts left : List Item} {nodes : List Tree}
  (hreads : ReadsStatements r s closer rounds ts nodes left)
include hreads

theorem eq : r.statementList s closer rounds ts = (nodes, left) := by
  induction hreads with
  | @halt rounds ts hhalt =>
    cases ts with
    | nil => exact statementList_nil s closer rounds
    | cons i rest =>
      rcases hhalt with rfl | hcloser
      · rfl
      · exact statementList_closer s rounds i (hcloser i rfl) rest
  | semicolon hcloser hi _ ih => rw [statementList_semicolon hcloser hi, ih]
  | statement hi hnode _ hafter _ ih => rw [statementList_statement hi hnode hafter, ih]

theorem clean : cleanAll nodes = true := by
  induction hreads with
  | halt => rfl
  | semicolon _ _ _ ih => exact Tree.cleanAll_cons.mpr ⟨Tree.clean_ofToken _, ih⟩
  | statement _ _ hclean _ _ ih => exact Tree.cleanAll_cons.mpr ⟨hclean, ih⟩

theorem paired (h : r.Pairs) : Paired nodes := by
  induction hreads with
  | halt => exact .nil
  | @semicolon _ i _ _ _ _ hi _ ih =>
    have hmark : Paired [i.leaf] := i.leaf_paired hi rfl
    exact hmark.cons ih
  | @statement _ i rest _ _ _ _ _ hnode hclean _ _ ih =>
    have hpaired := statement_paired h s (i :: rest)
    rw [hnode] at hpaired
    exact (hpaired hclean).cons ih

end ReadsStatements

theorem statementList_paired (h : r.Pairs) (s : Scope) (closer : Token.Kind) (rounds : Nat)
    (ts : List Item) (hclean : cleanAll (r.statementList s closer rounds ts).1 = true) :
    Paired (r.statementList s closer rounds ts).1 :=
  (readsStatements_of_clean hclean).paired h

theorem step_pairs (h : r.Pairs) : r.step.Pairs where
  expr s level := expression_paired h s level
  statements s closer ts := statementList_paired h s closer ts.length ts

theorem upTo_pairs (n : Nat) : (upTo n).Pairs := by
  induction n with
  | zero => exact ⟨fun _ _ _ => nofun, fun _ _ _ _ => .nil⟩
  | succ n ih => exact step_pairs ih

end Rules

end PolicyEditor.Grammar
