import PolicyEditor.Proofs.Grammar.Pairing

/-!
Declarations without error nodes pair up the brackets that they read. So in a text whose tree has no
error node all brackets pair up, and all of its tokens are tokens of the language.
-/

namespace PolicyEditor.Grammar

open PolicyEditor.Tree (tokens cleanAll)

namespace Rules

variable {r : Rules}

theorem pathTail_paired (h : r.Pairs) (s : Scope) (rounds : Nat) (ts : List Item) :
    cleanAll (r.pathTail s rounds ts).1 = true → Paired (r.pathTail s rounds ts).1 := by
  induction rounds generalizing ts with
  | zero => exact fun _ => .nil
  | succ rounds ih =>
    cases ts with
    | nil => exact fun _ => .nil
    | cons i rest =>
      simp only [pathTail]
      split
      · exact fun _ => .nil
      split
      case isTrue hi =>
        cases rest with
        | nil => exact fun _ => .nil
        | cons j next =>
          simp only
          split
          case isTrue hj =>
            intro hclean
            have hmore := (Tree.cleanAll_cons.mp (Tree.cleanAll_cons.mp hclean).2).2
            have hdot : Paired [i.leaf] := i.leaf_paired hi rfl
            have hname : Paired [j.nameLeaf] := .leaf _ (isPlain_of_isName hj)
            exact hdot.cons (hname.cons (ih next hmore))
          case isFalse => exact fun _ => .nil
      split
      case isTrue hi =>
        intro hclean
        rw [Tree.cleanAll_append, Bool.and_eq_true] at hclean
        have hindex := index_paired h.expr s (by rw [hi]; rfl) rest hclean.1
        exact hindex.append (ih _ hclean.2)
      case isFalse => exact fun _ => .nil

theorem declaredPath_paired (h : r.Pairs) (s : Scope) : PairsOne (r.declaredPath s) := by
  intro ts
  cases ts with
  | nil =>
    intro hclean
    cases hclean
  | cons i rest =>
    rw [declaredPath]
    split
    case isTrue =>
      intro hclean
      cases hclean
    case isFalse hi =>
      intro hclean
      have htail := (Tree.cleanAll_cons.mp (Tree.cleanAll_of_clean_enclose hclean)).2
      simp only [Bool.or_eq_true, Bool.not_eq_true', not_or, Bool.not_eq_false] at hi
      have hname : Paired [i.nameLeaf] := .leaf _ (isPlain_of_isName hi.2)
      exact (hname.cons (pathTail_paired h s _ rest htail)).node _ _

theorem alias?_paired (s : Scope) (ts : List Item) :
    cleanAll (alias? s ts).1 = true → Paired (alias? s ts).1 := by
  cases ts with
  | nil => exact fun _ => .nil
  | cons i rest =>
    rw [alias?]
    split
    case isTrue hi =>
      intro hclean
      have hkind : i.kind = .keyword .asKw := by
        simp only [Bool.and_eq_true, decide_eq_true_eq] at hi
        exact hi.1
      have hname := (Tree.cleanAll_cons.mp (Tree.cleanAll_cons.mp hclean).2).1
      have hword : Paired [i.leaf] := i.leaf_paired hkind rfl
      exact hword.cons (expect_paired rfl hname)
    case isFalse => exact fun _ => .nil

theorem ifBody_paired (h : r.Pairs) (s : Scope) : PairsOne (r.ifBody s) := by
  intro ts
  cases ts with
  | nil =>
    intro hclean
    have hnode := (Tree.cleanAll_cons.mp (Tree.cleanAll_of_clean_enclose hclean)).1
    exact (statement_paired h s.statement [] hnode).node _ _
  | cons i rest =>
    rw [ifBody]
    split
    case isTrue hi => exact bracedBody_paired h s (by rw [hi]; rfl) rest
    case isFalse =>
      intro hclean
      have hnode := (Tree.cleanAll_cons.mp (Tree.cleanAll_of_clean_enclose hclean)).1
      exact (statement_paired h s.statement (i :: rest) hnode).node _ _

theorem body?_paired (h : r.Pairs) (s : Scope) (ts : List Item) :
    cleanAll (r.body? s ts).1 = true → Paired (r.body? s ts).1 := by
  cases ts with
  | nil => exact fun _ => .nil
  | cons i rest =>
    rw [body?]
    split
    case isTrue hi =>
      intro hclean
      have hbody := (Tree.cleanAll_cons.mp (Tree.cleanAll_cons.mp hclean).2).1
      have hword : Paired [i.leaf] := i.leaf_paired hi rfl
      exact hword.cons (ifBody_paired h s rest hbody)
    split
    case isTrue hi =>
      intro hclean
      exact bracedBody_paired h s (by rw [hi]; rfl) rest (Tree.cleanAll_cons.mp hclean).1
    case isFalse => exact fun _ => .nil

theorem bodyOnLine?_paired (h : r.Pairs) (s : Scope) (ts : List Item) :
    cleanAll (r.bodyOnLine? s ts).1 = true → Paired (r.bodyOnLine? s ts).1 := by
  cases ts with
  | nil => exact fun _ => .nil
  | cons i rest =>
    rw [bodyOnLine?]
    split
    · exact fun _ => .nil
    · exact body?_paired h s (i :: rest)

theorem parameters_paired (h : r.Pairs) (s : Scope) (ts : List Item) :
    cleanAll (parameters r s ts).1 = true → Paired (parameters r s ts).1 := by
  cases ts with
  | nil => exact fun _ => .nil
  | cons i rest =>
    rw [parameters]
    split
    case isTrue hi =>
      intro hclean
      have hkind : i.kind = .mark .lparen := by
        simp only [Bool.and_eq_true, decide_eq_true_eq] at hi
        exact hi.1
      have hargs := (Tree.cleanAll_cons.mp hclean).1
      exact arguments_paired h.expr s (by rw [hkind]; rfl) rest hargs
    case isFalse => exact fun _ => .nil

theorem isPlain_of_givesValue {k : Token.Kind} (hk : givesValue k = true) : isPlain k = true := by
  simp only [givesValue, Bool.or_eq_true, beq_iff_eq] at hk
  rcases hk with rfl | rfl <;> rfl

theorem tail_paired (h : r.Pairs) (s : Scope) (ts : List Item) :
    cleanAll (r.tail s ts).1 = true → Paired (r.tail s ts).1 := by
  cases ts with
  | nil => exact fun _ => .nil
  | cons i rest =>
    rw [tail]
    split
    · exact fun _ => .nil
    split
    case isTrue hi =>
      intro hclean
      obtain ⟨hvalue, hbody⟩ := Tree.cleanAll_cons.mp (Tree.cleanAll_cons.mp hclean).2
      have hsign : isPlain i.kind = true := by
        simp only [Bool.or_eq_true, decide_eq_true_eq] at hi
        rcases hi with hi | hi
        · rw [hi]; rfl
        · exact isPlain_of_givesValue hi
      have hrest := (h.expr _ _ _ hvalue).cons (bodyOnLine?_paired h s _ hbody)
      exact (i.leaf_paired rfl hsign).cons hrest
    case isFalse => exact body?_paired h s (i :: rest)

theorem head_paired (h : r.Pairs) (s : Scope) : PairsOne (r.head s) := by
  intro ts hclean
  rw [head_eq] at hclean ⊢
  have hparts := Tree.cleanAll_of_clean_enclose hclean
  rw [List.cons_append] at hparts
  obtain ⟨hname, hrest⟩ := Tree.cleanAll_cons.mp hparts
  rw [Tree.cleanAll_append, Bool.and_eq_true] at hrest
  have hpath := pathTail_paired h s _ _ hrest.1
  have hargs := parameters_paired h s _ hrest.2
  exact ((expect_paired rfl hname).cons (hpath.append hargs)).node _ _

theorem value?_paired (h : r.Pairs) (s : Scope) (ts : List Item) :
    cleanAll (r.value? s ts).1 = true → Paired (r.value? s ts).1 := by
  cases ts with
  | nil => exact fun _ => .nil
  | cons i rest =>
    rw [value?]
    split
    case isTrue hi =>
      intro hclean
      have hvalue := (Tree.cleanAll_cons.mp (Tree.cleanAll_cons.mp hclean).2).1
      exact (i.leaf_paired rfl (isPlain_of_givesValue hi)).cons (h.expr _ _ _ hvalue)
    case isFalse => exact fun _ => .nil

theorem alternative_paired (h : r.Pairs) (s : Scope) {word : Item} (hword : isPlain word.kind = true)
    (rest : List Item) (hclean : (r.alternative s word rest).1.clean = true) :
    Paired [(r.alternative s word rest).1] := by
  have hparts := Tree.cleanAll_of_clean_enclose hclean
  rw [List.cons_append] at hparts
  have hrest := (Tree.cleanAll_cons.mp hparts).2
  rw [Tree.cleanAll_append, Bool.and_eq_true] at hrest
  have hvalue := value?_paired h s _ hrest.1
  have hbody := body?_paired h s _ hrest.2
  exact ((word.leaf_paired rfl hword).cons (hvalue.append hbody)).node _ _

theorem alternatives_paired (h : r.Pairs) (s : Scope) (rounds : Nat) (ts : List Item) :
    cleanAll (r.alternatives s rounds ts).1 = true → Paired (r.alternatives s rounds ts).1 := by
  induction rounds generalizing ts with
  | zero => exact fun _ => .nil
  | succ rounds ih =>
    cases ts with
    | nil => exact fun _ => .nil
    | cons i rest =>
      rw [alternatives]
      split
      case isTrue hi =>
        intro hclean
        obtain ⟨hnode, hmore⟩ := Tree.cleanAll_cons.mp hclean
        exact (alternative_paired h s (by rw [hi]; rfl) rest hnode).cons (ih _ hmore)
      case isFalse => exact fun _ => .nil

theorem ruleAfter_paired (h : r.Pairs) (s : Scope) {before : List Tree} (hbefore : Paired before)
    (ts : List Item) (hclean : (r.ruleAfter s before ts).1.clean = true) :
    Paired [(r.ruleAfter s before ts).1] := by
  have hparts := Tree.cleanAll_of_clean_enclose hclean
  rw [Tree.cleanAll_append, Bool.and_eq_true, Tree.cleanAll_append, Bool.and_eq_true] at hparts
  obtain ⟨⟨-, hrule⟩, hothers⟩ := hparts
  obtain ⟨hhead, htail⟩ := Tree.cleanAll_cons.mp hrule
  have hbody := (head_paired h s ts hhead).cons (tail_paired h s _ htail)
  exact ((hbefore.append hbody).append (alternatives_paired h s _ _ hothers)).node _ _

theorem declaration_paired (h : r.Pairs) (s : Scope) (i : Item) (rest : List Item) :
    (r.declaration s i rest).1.clean = true → Paired [(r.declaration s i rest).1] := by
  rw [declaration]
  split
  case h_1 hi =>
    intro hclean
    have hparts := (Tree.cleanAll_cons.mp (Tree.cleanAll_of_clean_enclose hclean)).2
    have hword : Paired [i.leaf] := i.leaf_paired hi rfl
    have hpath := declaredPath_paired h s rest (Tree.cleanAll_cons.mp hparts).1
    exact (hword.cons hpath).node _ _
  case h_2 hi =>
    intro hclean
    have hparts := (Tree.cleanAll_cons.mp (Tree.cleanAll_of_clean_enclose hclean)).2
    have hword : Paired [i.leaf] := i.leaf_paired hi rfl
    obtain ⟨hpath, hname⟩ := Tree.cleanAll_cons.mp hparts
    have hrest := (declaredPath_paired h s rest hpath).cons (alias?_paired s _ hname)
    exact (hword.cons hrest).node _ _
  case h_3 hi => exact ruleAfter_paired h s (i.leaf_paired hi rfl) rest
  case h_4 => exact ruleAfter_paired h s .nil (i :: rest)
  case h_5 =>
    intro hclean
    cases hclean

theorem declarations_paired (h : r.Pairs) (s : Scope) (rounds : Nat) (ts : List Item) :
    cleanAll (r.declarations s rounds ts) = true → Paired (r.declarations s rounds ts) := by
  induction rounds generalizing ts with
  | zero => exact fun _ => .nil
  | succ rounds ih =>
    cases ts with
    | nil => exact fun _ => .nil
    | cons i rest =>
      have hnode := declaration_paired h s i rest
      rcases hp : r.declaration s i rest with ⟨node, after⟩
      rw [hp] at hnode
      simp only [declarations, hp]
      cases after with
      | nil => exact fun hclean => hnode (Tree.cleanAll_cons.mp hclean).1
      | cons j next =>
        simp only
        split
        · intro hclean
          exact (hnode (Tree.cleanAll_cons.mp hclean).1).cons (ih _ (Tree.cleanAll_cons.mp hclean).2)
        -- The rest of a line is an error node of its own.
        · intro hclean
          have hwrong := (Tree.cleanAll_cons.mp (Tree.cleanAll_cons.mp hclean).2).1
          rw [not_clean_restOfLine] at hwrong
          cases hwrong

end Rules

end PolicyEditor.Grammar
