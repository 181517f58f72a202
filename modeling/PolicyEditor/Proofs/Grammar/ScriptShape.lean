import PolicyEditor.Proofs.Grammar.ExpressionShape

/-!
Every node of every tree has the shape of its kind, however malformed the text is: declarations are
well formed, so the scripts over them are, and so is every node in them.
-/

namespace PolicyEditor.Grammar

open PolicyEditor.Tree (Formed facesOf facesOf_append)

abbrev YieldsPairs (cs : List Tree) : Prop :=
  YieldsAll (Bracketed none) cs

section

variable {p : Face → Bool} {t : Tree} {cs ds : List Tree}

theorem YieldsAll.append (h : YieldsPairs cs) (h' : YieldsPairs ds) : YieldsPairs (cs ++ ds) := by
  refine ⟨h.formed.append h'.formed, ?_⟩
  rw [facesOf_append]
  exact h.faces.append h'.faces

theorem Yields.pairs (h : Yields false p t) (hp : p t.face = true → t.face.isLevel = true) :
    YieldsPairs [t] :=
  h.all fun hface => .level (hp hface) .nil

theorem Yields.cons_pairs (h : Yields false p t) (hp : p t.face = true → t.face.isLevel = true)
    (hcs : YieldsPairs cs) : YieldsPairs (t :: cs) :=
  YieldsAll.append (h.pairs hp) hcs

theorem YieldsPairs.nil : YieldsPairs [] :=
  YieldsAll.nil .nil

end

theorem Indexed.bracketed {fs : List Face} (h : Indexed fs) : Bracketed none fs := by
  obtain ⟨opener, value, closer, rfl, hopener, hvalue, hcloser⟩ := h
  refine Bracketed.group [value] rfl hopener ?_ hcloser
  exact List.forall_mem_cons.mpr ⟨Face.isLevel_of_isExpr hvalue, List.forall_mem_nil _⟩

namespace Rules

variable {r : Rules}

theorem pathTail_yields (h : r.Shapes) (s : Scope) (rounds : Nat) (ts : List Item) :
    YieldsPairs (r.pathTail s rounds ts).1 := by
  induction rounds generalizing ts with
  | zero => exact .nil
  | succ rounds ih =>
    cases ts with
    | nil => exact .nil
    | cons i rest =>
      simp only [pathTail]
      split
      · exact .nil
      split
      case isTrue hi =>
        cases rest with
        | nil => exact .nil
        | cons j next =>
          simp only
          split
          case isTrue hj =>
            have hdot : Yields false _ i.leaf := Item.leaf_yields hi rfl
            have hname : Yields false _ j.nameLeaf := Item.nameLeaf_yields hj
            exact hdot.cons_pairs (Face.isLevel_of_isToken rfl)
              (hname.cons_pairs Face.isLevel_of_isName (ih next))
          case isFalse => exact .nil
      split
      case isTrue hi =>
        have hindex := (index_yields h.expr s hi rest).mono fun _ => Indexed.bracketed
        exact YieldsAll.append hindex (ih _)
      case isFalse => exact .nil

theorem declaredPath_yields (h : r.Shapes) (s : Scope) (ts : List Item) :
    Yields true Face.isLevel (r.declaredPath s ts).1 := by
  cases ts with
  | nil => exact missing_yields rfl s []
  | cons i rest =>
    rw [declaredPath]
    split
    case isTrue => exact missing_yields rfl s (i :: rest)
    case isFalse hi =>
      simp only [Bool.or_eq_true, Bool.not_eq_true', not_or, Bool.not_eq_false] at hi
      have hname : Yields false _ i.nameLeaf := Item.nameLeaf_yields hi.2
      have hpath := hname.cons_pairs Face.isLevel_of_isName
        (pathTail_yields h s rest.length rest)
      exact .node (.of_path hpath.faces) hpath.formed rfl _

theorem package_yields (h : r.Shapes) (s : Scope) {word : Item}
    (hword : word.kind = .keyword .packageKw) (rest : List Item) :
    Yields false Face.isLevel (r.package s word rest).1 := by
  have hleaf : Yields true _ word.leaf := Item.leaf_yields hword rfl
  have hpath := declaredPath_yields h s rest
  refine .free .packageDeclaration rfl ?_ (hleaf.cons hpath.formed) rfl _
  rw [hleaf.faces_cons, hpath.faces_cons]
  exact .level (Face.isLevel_of_isToken rfl hleaf.face) (.level hpath.face .nil)

theorem alias?_yields (s : Scope) (ts : List Item) :
    Formed true (alias? s ts).1 ∧ Bracketed none (facesOf (alias? s ts).1) := by
  cases ts with
  | nil => exact ⟨.nil true, .nil⟩
  | cons i rest =>
    rw [alias?]
    split
    case isTrue hi =>
      have hkind : i.kind = .keyword .asKw := by
        simp only [Bool.and_eq_true, decide_eq_true_eq] at hi
        exact hi.1
      have hword : Yields true _ i.leaf := Item.leaf_yields hkind rfl
      have hname : Yields true _ (expect .identifier s rest).1 := expect_yields rfl s rest
      refine ⟨hword.cons hname.formed, ?_⟩
      simp only
      rw [hword.faces_cons, hname.faces_cons]
      exact .level (Face.isLevel_of_isToken rfl hword.face)
        (.level (Face.isLevel_of_isExpected rfl hname.face) .nil)
    case isFalse => exact ⟨.nil true, .nil⟩

theorem importOf_yields (h : r.Shapes) (s : Scope) {word : Item}
    (hword : word.kind = .keyword .importKw) (rest : List Item) :
    Yields false Face.isLevel (r.importOf s word rest).1 := by
  have hleaf : Yields true _ word.leaf := Item.leaf_yields hword rfl
  have hpath := declaredPath_yields h s rest
  obtain ⟨hformed, hfaces⟩ := alias?_yields s (r.declaredPath s rest).2
  refine .free .importStatement rfl ?_ (hleaf.cons (hpath.cons hformed)) rfl _
  rw [hleaf.faces_cons, hpath.faces_cons]
  exact .level (Face.isLevel_of_isToken rfl hleaf.face) (.level hpath.face hfaces)

theorem ifBody_yields (h : r.Shapes) (s : Scope) :
    YieldsOne (Face.isNode .body) (r.ifBody s) := by
  intro ts
  have hsingle : ∀ us, Yields false (Face.isNode .body) (.enclose .body
      (s.here (r.statement s.statement us).2) [(r.statement s.statement us).1]) := fun us =>
    have hnode := statement_yields h s.statement us
    .free .body rfl (hnode.pairs Face.isLevel_of_isNode).faces hnode.formed rfl _
  cases ts with
  | nil => exact hsingle []
  | cons i rest =>
    rw [ifBody]
    split
    case isTrue hi => exact bracedBody_yields h s hi rest
    case isFalse => exact hsingle (i :: rest)

theorem body?_yields (h : r.Shapes) (s : Scope) (ts : List Item) :
    YieldsPairs (r.body? s ts).1 := by
  cases ts with
  | nil => exact .nil
  | cons i rest =>
    rw [body?]
    split
    case isTrue hi =>
      have hword : Yields false _ i.leaf := Item.leaf_yields hi rfl
      exact hword.cons_pairs (Face.isLevel_of_isToken rfl)
        ((ifBody_yields h s rest).pairs Face.isLevel_of_isNode)
    split
    case isTrue hi => exact (bracedBody_yields h s hi rest).pairs Face.isLevel_of_isNode
    case isFalse => exact .nil

theorem bodyOnLine?_yields (h : r.Shapes) (s : Scope) (ts : List Item) :
    YieldsPairs (r.bodyOnLine? s ts).1 := by
  cases ts with
  | nil => exact .nil
  | cons i rest =>
    rw [bodyOnLine?]
    split
    · exact .nil
    · exact body?_yields h s (i :: rest)

theorem parameters_yields (h : r.Shapes) (s : Scope) (ts : List Item) :
    YieldsPairs (parameters r s ts).1 := by
  cases ts with
  | nil => exact .nil
  | cons i rest =>
    rw [parameters]
    split
    case isTrue hi =>
      have hkind : i.kind = .mark .lparen := by
        simp only [Bool.and_eq_true, decide_eq_true_eq] at hi
        exact hi.1
      exact (arguments_yields h.expr s hkind rest).pairs Face.isLevel_of_isNode
    case isFalse => exact .nil

theorem givesValue_cases {k : Token.Kind} (hk : givesValue k = true) :
    k = .operator .assign ∨ k = .operator .unify := by
  simpa [givesValue] using hk

theorem tail_yields (h : r.Shapes) (s : Scope) (ts : List Item) :
    YieldsPairs (r.tail s ts).1 := by
  cases ts with
  | nil => exact .nil
  | cons i rest =>
    rw [tail]
    split
    · exact .nil
    split
    case isTrue hi =>
      have hkind : i.kind.isTrivia = false ∧ isPlain i.kind = true := by
        rw [Bool.or_eq_true, decide_eq_true_eq] at hi
        rcases hi with hi | hi
        · rw [hi]
          exact ⟨rfl, rfl⟩
        · rcases givesValue_cases hi with hi | hi <;> rw [hi] <;> exact ⟨rfl, rfl⟩
      have hsign : Yields false _ i.leaf := Item.leaf_yields rfl hkind.1
      have hvalue := h.expr s setOpLevel rest
      exact hsign.cons_pairs (Face.isLevel_of_isToken hkind.2)
        (hvalue.cons_pairs Face.isLevel_of_isExprAt (bodyOnLine?_yields h s _))
    case isFalse => exact body?_yields h s (i :: rest)

theorem head_yields (h : r.Shapes) (s : Scope) :
    YieldsOne (Face.isNode .ruleHead) (r.head s) := by
  intro ts
  have hname : Yields false _ (expect .identifier s ts).1 := expect_yields rfl s ts
  have hpath := pathTail_yields h s (expect .identifier s ts).2.length (expect .identifier s ts).2
  have hargs := parameters_yields h s
    (r.pathTail s (expect .identifier s ts).2.length (expect .identifier s ts).2).2
  have hall := YieldsAll.append (hname.cons_pairs (Face.isLevel_of_isExpected rfl) hpath) hargs
  rw [head_eq]
  exact .free .ruleHead rfl hall.faces hall.formed rfl _

theorem value?_yields (h : r.Shapes) (s : Scope) (ts : List Item) :
    YieldsPairs (r.value? s ts).1 := by
  cases ts with
  | nil => exact .nil
  | cons i rest =>
    rw [value?]
    split
    case isTrue hi =>
      have hkind : i.kind.isTrivia = false ∧ isPlain i.kind = true := by
        rcases givesValue_cases hi with hi | hi <;> rw [hi] <;> exact ⟨rfl, rfl⟩
      have hsign : Yields false _ i.leaf := Item.leaf_yields rfl hkind.1
      exact hsign.cons_pairs (Face.isLevel_of_isToken hkind.2)
        ((h.expr s setOpLevel rest).pairs Face.isLevel_of_isExprAt)
    case isFalse => exact .nil

theorem alternative_yields (h : r.Shapes) (s : Scope) {word : Item}
    (hword : word.kind = .keyword .elseKw) (rest : List Item) :
    Yields false (Face.isNode .elseClause) (r.alternative s word rest).1 := by
  have hleaf : Yields false _ word.leaf := Item.leaf_yields hword rfl
  have hvalue := value?_yields h s rest
  have hbody := body?_yields h s (r.value? s rest).2
  have hall := YieldsAll.append
    (hleaf.cons_pairs (Face.isLevel_of_isToken rfl) hvalue) hbody
  exact .free .elseClause rfl hall.faces hall.formed rfl _

theorem alternatives_yields (h : r.Shapes) (s : Scope) (rounds : Nat) (ts : List Item) :
    YieldsPairs (r.alternatives s rounds ts).1 := by
  induction rounds generalizing ts with
  | zero => exact .nil
  | succ rounds ih =>
    cases ts with
    | nil => exact .nil
    | cons i rest =>
      rw [alternatives]
      split
      case isTrue hi =>
        exact (alternative_yields h s hi rest).cons_pairs Face.isLevel_of_isNode (ih _)
      case isFalse => exact .nil

theorem ruleAfter_yields (h : r.Shapes) (s : Scope) {before : List Tree}
    (hbefore : YieldsPairs before) (ts : List Item) :
    Yields false Face.isLevel (r.ruleAfter s before ts).1 := by
  have hhead := head_yields h s ts
  have htail := tail_yields h s (r.head s ts).2
  have hothers := alternatives_yields h s (r.tail s (r.head s ts).2).2.length
    (r.tail s (r.head s ts).2).2
  have hall := (hbefore.append (hhead.cons_pairs Face.isLevel_of_isNode htail)).append hothers
  exact .free .rule rfl hall.faces hall.formed rfl _

theorem declaration_yields (h : r.Shapes) (s : Scope) (i : Item) (rest : List Item) :
    Yields false Face.isLevel (r.declaration s i rest).1 := by
  rw [declaration]
  split
  case h_1 hi => exact package_yields h s hi rest
  case h_2 hi => exact importOf_yields h s hi rest
  case h_3 hi =>
    have hword : Yields false _ i.leaf := Item.leaf_yields hi rfl
    exact ruleAfter_yields h s (hword.pairs (Face.isLevel_of_isToken rfl)) rest
  case h_4 => exact ruleAfter_yields h s .nil (i :: rest)
  case h_5 => exact restOfLine_yields s [] i rest

theorem declarations_yields (h : r.Shapes) (s : Scope) (rounds : Nat) (ts : List Item) :
    YieldsPairs (r.declarations s rounds ts) := by
  induction rounds generalizing ts with
  | zero => exact .nil
  | succ rounds ih =>
    cases ts with
    | nil => exact .nil
    | cons i rest =>
      have hnode := declaration_yields h s i rest
      rcases hp : r.declaration s i rest with ⟨node, after⟩
      rw [hp] at hnode
      simp only [declarations, hp]
      cases after with
      | nil => exact hnode.pairs id
      | cons j next =>
        simp only
        split
        · exact hnode.cons_pairs id (ih (j :: next))
        · exact hnode.cons_pairs id ((restOfLine_yields s [] j next).cons_pairs id (ih _))

end Rules

/-! ### Whole texts -/

theorem formed_parse (source : String) : Formed false [parse source] := by
  have hall := Rules.declarations_yields
    (Rules.upTo_shapes ((items (Token.scan source.toList)).length + 1))
    { lines := true, bars := false, eof := source.toList.length }
    (items (Token.scan source.toList)).length (items (Token.scan source.toList))
  exact hall.formed.dressScript hall.faces (fun _ hu => (List.mem_filter.mp hu).2) _

theorem leftover_yields (s : Scope) (ts : List Item) :
    YieldsPairs (ts.map fun i => misplaced s [i]) := by
  induction ts with
  | nil => exact .nil
  | cons i rest ih =>
    have hwrong : Yields false Face.isLevel (misplaced s [i]) := misplaced_yields rfl s i []
    exact hwrong.cons_pairs id ih

theorem formed_parseExpression (source : String) : Formed false [parseExpression source] := by
  let s : Scope := { lines := false, bars := false, eof := source.toList.length }
  let ts := items (Token.scan source.toList)
  have hnode := (Rules.upTo_shapes (ts.length + 1)).expr s assignLevel ts
  have hall := hnode.cons_pairs Face.isLevel_of_isExprAt
    (leftover_yields s ((Rules.upTo (ts.length + 1)).expr s assignLevel ts).2)
  exact hall.formed.dressScript hall.faces (fun _ hu => (List.mem_filter.mp hu).2) _

end PolicyEditor.Grammar

namespace PolicyEditor.Tree

/-- Every node of the tree has the shape of its kind; only a path that a package or an import
declares is a reference of another shape. -/
def Shapely (tree : Tree) : Prop :=
  ∀ p ∈ tree.walk [], p.1.isLeaf = false →
    (p.1.kind = .refExpression → ∀ parent ∈ p.2.getLast?, parent.kind.declares = false) →
    Shape p.1.kind p.1.faces

theorem Formed.shapely {tree : Tree} (h : Formed false [tree]) : tree.Shapely := by
  intro p hp hnode hpath
  refine ((h.walk p hp).fits hnode).shape ?_
  rw [Bool.and_eq_false_iff, beq_eq_false_iff_ne]
  by_cases hkind : p.1.kind = .refExpression
  · left
    have hparent := hpath hkind
    cases hlast : p.2.getLast? with
    | none => rfl
    | some parent => exact hparent parent hlast
  · exact .inr hkind

end PolicyEditor.Tree

namespace PolicyEditor.Grammar

/-- Whatever the text, every node of its tree has the shape of its kind. -/
theorem parse_shapely (source : String) :
    (parse source).Shapely ∧ (parseExpression source).Shapely :=
  ⟨(formed_parse source).shapely, (formed_parseExpression source).shapely⟩

end PolicyEditor.Grammar
