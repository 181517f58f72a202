import PolicyEditor.Proofs.Expression.Layout

/-!
The grammar reads a printed expression back. A rule is given the items of an expression and more
after them; it makes the tree of the expression and goes on as if that were what it had read first.
-/

namespace PolicyEditor.Grammar

open PolicyEditor (Expr Sketch Lexeme)
open PolicyEditor.Sketch (markItem)

/-- Where line breaks mean nothing and no head of a comprehension is read. -/
def inline (eof : Nat) : Scope :=
  { lines := false, bars := false, eof := eof }

@[simp] theorem stops_inline (eof : Nat) (i : Item) : (inline eof).stops i = false := rfl

@[simp] theorem bracketed_inline (eof : Nat) : (inline eof).bracketed = inline eof := rfl

def EndsOperand (rest : List Item) : Prop :=
  ∀ i ∈ rest.head?, i.kind ≠ .mark .dot ∧ i.kind ≠ .mark .lbracket ∧ i.kind ≠ .mark .lparen

/-- What follows an expression does not belong to it if operators bind at least as tightly as a
level. -/
def EndsExpr (level : Nat) (rest : List Item) : Prop :=
  EndsOperand rest ∧ ∀ i ∈ rest.head?, ∀ b, binding? i.kind = some b → b.level < level

theorem EndsExpr.mono {l m : Nat} {rest : List Item} (h : EndsExpr l rest) (hle : l ≤ m) :
    EndsExpr m rest :=
  ⟨h.1, fun i hi b hb => Nat.lt_of_lt_of_le (h.2 i hi b hb) hle⟩

theorem endsExpr_nil (level : Nat) : EndsExpr level [] :=
  ⟨nofun, nofun⟩

theorem EndsOperand.of_binding {i : Item} {b : Binding} (h : binding? i.kind = some b)
    (rest : List Item) : EndsOperand (i :: rest) := by
  rintro _ ⟨rfl⟩
  refine ⟨?_, ?_, ?_⟩ <;> intro hk <;> rw [hk] at h <;> cases h

/-- After a separator or a closing bracket an expression is over. -/
theorem endsExpr_mark {m : Mark} (hdot : m ≠ .dot) (hbracket : m ≠ .lbracket) (hparen : m ≠ .lparen)
    (level pos : Nat) (rest : List Item) : EndsExpr level (markItem pos m :: rest) := by
  constructor
  · rintro _ ⟨rfl⟩
    exact ⟨fun h => hdot (Token.Kind.mark.inj h), fun h => hbracket (Token.Kind.mark.inj h),
      fun h => hparen (Token.Kind.mark.inj h)⟩
  · rintro _ ⟨rfl⟩ b hb
    cases hb

theorem references_end {expr : ExprParser} {eof rounds : Nat} {base : Tree} {rest : List Item}
    (h : EndsOperand rest) : references expr (inline eof) rounds base rest = (base, rest) := by
  cases rounds with
  | zero => rfl
  | succ rounds =>
    cases rest with
    | nil => rfl
    | cons i rest =>
      obtain ⟨hdot, hbracket, hparen⟩ := h i rfl
      simp only [references, stops_inline, Bool.false_eq_true, if_false]

theorem binaryTail_end {expr : ExprParser} {eof rounds level : Nat} {left : Tree}
    {rest : List Item} (h : EndsExpr level rest) :
    binaryTail expr (inline eof) level rounds left rest = (left, rest) := by
  cases rounds with
  | zero => rfl
  | succ rounds =>
    cases rest with
    | nil => rfl
    | cons i rest =>
      rw [binaryTail]
      split
      · rfl
      · rename_i b hb
        rw [if_pos]
        simp only [h.2 i rfl b hb, decide_true, Bool.true_or]

/-- An operator with its right operand wraps what came before. -/
theorem binaryTail_step {expr : ExprParser} {eof rounds level : Nat} {left right : Tree}
    {i : Item} {rest after : List Item} {b : Binding} (hb : binding? i.kind = some b)
    (hlevel : level ≤ b.level) (h : expr (inline eof) (b.level + 1) rest = (right, after)) :
    binaryTail expr (inline eof) level (rounds + 1) left (i :: rest) =
      binaryTail expr (inline eof) level rounds
        (.enclose b.node ((inline eof).here after) [left, i.leaf, right]) after := by
  have hstays : ¬ (b.level < level ∨ ((i.kind == .operator .pipe) && (inline eof).bars) = true) := by
    simp only [inline, Bool.and_false, Bool.false_eq_true, or_false]
    exact Nat.not_lt.mpr hlevel
  simp only [binaryTail, hb, stops_inline, Bool.or_false, Bool.or_eq_true, decide_eq_true_eq, hstays,
    if_false, h]

/-! ### One expression -/

/-- How the rules read an expression: as an operand, as an operand with signs before it, and as an
expression, whatever follows that does not belong to it. `references` and `binaryTail` are what goes
on after an operand and after an expression. -/
structure ReadsBack (eof : Nat) (e : Expr) : Prop where
  operand : Expr.operandLevel ≤ e.level → ∀ n pos rest, (e.sketch.items pos ++ rest).length ≤ n →
    ∃ rounds, rest.length ≤ rounds ∧
      (Rules.upTo n).operand (inline eof) (e.sketch.items pos ++ rest) =
        references (Rules.upTo n).expr (inline eof) rounds (e.sketch.place pos) rest
  signed : unaryLevel ≤ e.level → ∀ n pos rest, (e.sketch.items pos ++ rest).length ≤ n →
    EndsOperand rest →
      unaryWith ((Rules.upTo n).operand (inline eof)) (inline eof) (e.sketch.items pos ++ rest) =
        (e.sketch.place pos, rest)
  expression : ∀ n pos rest level, (e.sketch.items pos ++ rest).length ≤ n → level ≤ e.level →
    EndsExpr (e.level + 1) rest → ∃ rounds, rest.length ≤ rounds ∧
      (Rules.upTo n).expression (inline eof) level (e.sketch.items pos ++ rest) =
        binaryTail (Rules.upTo n).expr (inline eof) level rounds (e.sketch.place pos) rest

variable {eof : Nat} {e : Expr}

theorem ReadsBack.expr (h : ReadsBack eof e) {n level : Nat} {rest : List Item} (pos : Nat)
    (hlength : (e.sketch.items pos ++ rest).length < n) (hlevel : level ≤ e.level)
    (hrest : EndsExpr level rest) :
    (Rules.upTo n).expr (inline eof) level (e.sketch.items pos ++ rest) =
      (e.sketch.place pos, rest) := by
  obtain ⟨n, rfl⟩ : ∃ m, n = m + 1 := ⟨n - 1, by omega⟩
  obtain ⟨rounds, -, hexpr⟩ := h.expression n pos rest level (by omega) hlevel
    (hrest.mono (Nat.le_succ_of_le hlevel))
  exact hexpr.trans (binaryTail_end hrest)

/-- An expression that takes signs before it is read as an expression too. -/
theorem ReadsBack.of_signed
    (hoperand : Expr.operandLevel ≤ e.level → ∀ n pos rest, (e.sketch.items pos ++ rest).length ≤ n →
      ∃ rounds, rest.length ≤ rounds ∧
        (Rules.upTo n).operand (inline eof) (e.sketch.items pos ++ rest) =
          references (Rules.upTo n).expr (inline eof) rounds (e.sketch.place pos) rest)
    (hsigned : ∀ n pos rest, (e.sketch.items pos ++ rest).length ≤ n → EndsOperand rest →
      unaryWith ((Rules.upTo n).operand (inline eof)) (inline eof) (e.sketch.items pos ++ rest) =
        (e.sketch.place pos, rest)) : ReadsBack eof e where
  operand := hoperand
  signed _ := hsigned
  expression n pos rest level hlength _ hrest :=
    ⟨rest.length, Nat.le_refl _, by rw [Rules.expression, hsigned n pos rest hlength hrest.1]⟩

theorem unaryWith_begins {operand : List Item → Parsed} {i : Item} (h : Expr.BeginsOperand i.kind)
    (s : Scope) (rest : List Item) : unaryWith operand s (i :: rest) = operand (i :: rest) := by
  rw [unaryWith, if_neg]
  intro hsign
  simp only [Bool.and_eq_true, Bool.or_eq_true, decide_eq_true_eq, beq_iff_eq] at hsign
  rcases hsign.1 with hk | hk <;> rw [hk] at h <;> rcases h with h | h <;> cases h

/-- An operand is read where an expression is expected too. -/
theorem ReadsBack.of_operand (hbound : e.wellBound = true) (hlevel : e.level = Expr.operandLevel)
    (h : ∀ n pos rest, (e.sketch.items pos ++ rest).length ≤ n → ∃ rounds, rest.length ≤ rounds ∧
      (Rules.upTo n).operand (inline eof) (e.sketch.items pos ++ rest) =
        references (Rules.upTo n).expr (inline eof) rounds (e.sketch.place pos) rest) :
    ReadsBack eof e := by
  refine .of_signed (fun _ => h) fun n pos rest hlength hrest => ?_
  obtain ⟨rounds, -, hoperand⟩ := h n pos rest hlength
  obtain ⟨l, ls, heq, hbegins⟩ := e.beginsOperand hbound (Nat.le_of_eq hlevel.symm)
  rw [references_end hrest] at hoperand
  simp only [Sketch.items, heq, Lexeme.layOut, List.map_cons, List.cons_append] at hoperand ⊢
  exact (unaryWith_begins (i := .inLine (l.place pos)) hbegins _ _).trans hoperand

/-! ### The rules one by one -/

theorem enclose_here (k : NodeKind) (a b : Nat) (c : Tree) (cs : List Tree) :
    Tree.enclose k a (c :: cs) = Tree.enclose k b (c :: cs) := by
  simp only [Tree.enclose, List.head?_cons, Option.map_some, Option.getD_some,
    List.getLast?_cons]

theorem expect_mark (m : Mark) (s : Scope) (pos : Nat) (rest : List Item) :
    expect (.mark m) s (markItem pos m :: rest) = ((markItem pos m).leaf, rest) := by
  have hkind : (markItem pos m).kind = .mark m := rfl
  rw [expect, if_pos hkind]

theorem neverOperand_of_begins {k : Token.Kind} (h : Expr.BeginsOperand k) :
    neverOperand k = false := by
  rcases h with h | h
  · unfold Token.Kind.isLiteral at h
    split at h <;> first | (cases h; done) | rfl
  · unfold Token.Kind.isOpener at h
    split at h <;> first | (cases h; done) | rfl

theorem reads_literal (value : Literal) : ReadsBack eof (.literal value) := by
  refine .of_operand rfl rfl fun n pos rest _ => ⟨rest.length, Nat.le_refl _, ?_⟩
  have hnever : neverOperand value.lexeme.kind = false :=
    neverOperand_of_begins (.inl value.literal)
  simp only [Expr.sketch, Sketch.items_leaf, List.cons_append, List.nil_append]
  rw [Rules.operand, if_neg, if_pos]
  · rfl
  · exact value.literal
  · simp only [stops_inline, Bool.or_false]
    exact ne_true_of_eq_false hnever

theorem reads_unary {sign : UnaryOperator} (h : ReadsBack eof e) (hlevel : unaryLevel ≤ e.level) :
    ReadsBack eof (.unary sign e) := by
  refine .of_signed (fun hlevel => absurd hlevel (Nat.not_succ_le_self unaryLevel))
    fun n pos rest hlength hrest => ?_
  simp only [Expr.sketch, Sketch.items_node, Sketch.itemsOf_cons, Sketch.items_leaf,
    Sketch.itemsOf_nil, List.cons_append, List.nil_append, List.append_nil] at hlength ⊢
  have hsign : (Item.inLine (sign.lexeme.place pos)).kind = sign.lexeme.kind := rfl
  have hread := h.signed hlevel n _ rest (Nat.le_of_succ_le hlength) hrest
  rw [unaryWith, if_pos]
  · rw [hread]
    simp only [Sketch.place, Sketch.placeAll]
    rw [enclose_here _ _ pos]
    rfl
  · simp only [stops_inline, Bool.not_false, Bool.and_true, hsign, Bool.or_eq_true,
      decide_eq_true_eq, beq_iff_eq]
    exact sign.sign

theorem reads_binary {l r : Expr} {operator : BinaryOperator} (hl : ReadsBack eof l)
    (hr : ReadsBack eof r) (hleft : operator.binding.level ≤ l.level)
    (hright : operator.binding.level < r.level) : ReadsBack eof (.binary l operator r) where
  operand hlevel := by
    have hlt := level_lt_unaryLevel operator.binds
    simp only [Expr.level, Expr.operandLevel] at hlevel
    omega
  signed hlevel := by
    have hlt := level_lt_unaryLevel operator.binds
    simp only [Expr.level] at hlevel
    omega
  expression n pos rest level hlength hlevel hrest := by
    simp only [Expr.sketch, Sketch.items_node, Sketch.itemsOf_cons, Sketch.items_leaf,
      Sketch.itemsOf_nil, List.cons_append, List.nil_append, List.append_nil, List.append_assoc]
      at hlength ⊢
    simp only [Expr.level] at hlevel hrest
    have hbinds : binding? (Item.inLine (operator.lexeme.place
        (pos + Lexeme.span l.sketch.lexemes))).kind = some operator.binding := operator.binds
    -- The left operand first; then the operator is the next thing to go on with.
    obtain ⟨rounds, hrounds, hexpr⟩ := hl.expression n pos _ level hlength
      (Nat.le_trans hlevel hleft) ⟨.of_binding hbinds _, fun i hi b hb => by
        cases hi
        rw [show b = operator.binding from Option.some.inj (hb.symm.trans hbinds)]
        exact Nat.lt_succ_of_le hleft⟩
    obtain ⟨rounds, rfl⟩ : ∃ m, rounds = m + 1 := ⟨rounds - 1, by
      simp only [List.length_cons] at hrounds
      omega⟩
    simp only [List.length_cons, List.length_append] at hrounds hlength
    refine ⟨rounds, by omega, hexpr.trans ?_⟩
    have hread := hr.expr
      (pos + Lexeme.span l.sketch.lexemes + Lexeme.span (Sketch.leaf operator.lexeme).lexemes)
      (show (r.sketch.items _ ++ rest).length < n by rw [List.length_append]; omega) hright hrest
    rw [binaryTail_step hbinds hlevel hread, enclose_here _ _ pos]
    rfl

theorem assignLevel_le (e : Expr) : assignLevel ≤ e.level := by
  cases e with
  | binary l operator r =>
    have hbinds := operator.binds
    unfold binding? at hbinds
    split at hbinds <;> simp only [Option.some.injEq, reduceCtorEq] at hbinds <;>
      simp only [Expr.level, ← hbinds] <;> decide
  | _ => exact Nat.succ_le_succ (Nat.zero_le _)

/-- An expression before a separator or a closing bracket that ends it. -/
theorem ReadsBack.expr_mark (h : ReadsBack eof e) {n level : Nat} {m : Mark} {pos p : Nat}
    {rest : List Item} (hlength : (e.sketch.items pos ++ markItem p m :: rest).length < n)
    (hlevel : level ≤ e.level) (hdot : m ≠ .dot) (hbracket : m ≠ .lbracket) (hparen : m ≠ .lparen) :
    (Rules.upTo n).expr (inline eof) level (e.sketch.items pos ++ markItem p m :: rest) =
      (e.sketch.place pos, markItem p m :: rest) :=
  h.expr pos hlength hlevel (endsExpr_mark hdot hbracket hparen level p rest)

section

variable {r : Rules} {pos p : Nat} {content rest : List Item} {node value : Tree}

theorem references_of_eq {p : Parsed} (h : p = (node, rest)) :
    references r.expr (inline eof) p.2.length p.1 p.2 =
      references r.expr (inline eof) rest.length node rest := by
  rw [h]

theorem operand_lparen (h : r.parens (inline eof) (markItem pos .lparen) content = (node, rest)) :
    r.operand (inline eof) (markItem pos .lparen :: content) =
      references r.expr (inline eof) rest.length node rest :=
  references_of_eq h

theorem operand_lbracket
    (h : r.brackets (inline eof) (markItem pos .lbracket) content = (node, rest)) :
    r.operand (inline eof) (markItem pos .lbracket :: content) =
      references r.expr (inline eof) rest.length node rest :=
  references_of_eq h

theorem operand_lbrace
    (h : r.braces (inline eof) (markItem pos .lbrace) content = (node, rest)) :
    r.operand (inline eof) (markItem pos .lbrace :: content) =
      references r.expr (inline eof) rest.length node rest :=
  references_of_eq h

theorem parens_eq
    (h : r.expr (inline eof) assignLevel content = (value, markItem p .rparen :: rest)) :
    r.parens (inline eof) (markItem pos .lparen) content =
      (.enclose .parenExpression pos
        [(markItem pos .lparen).leaf, value, (markItem p .rparen).leaf], rest) := by
  rw [Rules.parens, bracketed_inline, h]
  simp only [expect_mark]
  rw [enclose_here _ _ pos]

theorem objectItem_eq {key : Tree} {more : List Item}
    (hkey : r.expr (inline eof) setOpLevel content = (key, markItem p .colon :: more))
    (hvalue : r.expr (inline eof) setOpLevel more = (value, rest)) :
    r.objectItem (inline eof) content =
      (.enclose .objectItem pos [key, (markItem p .colon).leaf, value], rest) := by
  rw [Rules.objectItem, hkey]
  simp only [expect_mark, hvalue]
  rw [enclose_here _ _ pos]

theorem references_member {expr : ExprParser} {rounds : Nat} {base : Tree} {name : Item}
    (hname : name.kind = .identifier) (hline : name.newline = false) :
    references expr (inline eof) (rounds + 1) base (markItem p .dot :: name :: rest) =
      references expr (inline eof) rounds
        (.enclose .refExpression pos [base, (markItem p .dot).leaf, name.nameLeaf]) rest := by
  have hkind : (markItem p .dot).kind = .mark .dot := rfl
  have hisName : (name.kind.isName && !name.newline) = true := by
    rw [hname, hline]
    rfl
  simp only [references, stops_inline, hkind, hisName, Bool.false_eq_true, if_false, if_true]
  rw [enclose_here _ _ pos]

theorem references_index {rounds q : Nat} {base : Tree}
    (h : r.expr (inline eof) assignLevel content = (value, markItem q .rbracket :: rest)) :
    references r.expr (inline eof) (rounds + 1) base (markItem p .lbracket :: content) =
      references r.expr (inline eof) rounds
        (.enclose .refExpression pos
          [base, (markItem p .lbracket).leaf, value, (markItem q .rbracket).leaf]) rest := by
  have hkind : (markItem p .lbracket).kind = .mark .lbracket := rfl
  simp only [references, stops_inline, hkind, Bool.false_eq_true, if_false, index,
    bracketed_inline, h, expect_mark]
  rw [enclose_here _ _ pos]

theorem references_call {rounds : Nat} {base args : Tree}
    (h : arguments r.expr (inline eof) (markItem p .lparen) content = (args, rest)) :
    references r.expr (inline eof) (rounds + 1) base (markItem p .lparen :: content) =
      references r.expr (inline eof) rounds (.enclose .callExpression pos [base, args]) rest := by
  have hkind : (markItem p .lparen).kind = .mark .lparen := rfl
  simp only [references, stops_inline, hkind, Bool.false_eq_true, if_false, h]
  rw [enclose_here _ _ pos]

end

theorem reads_paren (h : ReadsBack eof e) (hbound : e.wellBound = true) :
    ReadsBack eof (.paren e) := by
  refine .of_operand hbound rfl fun n pos rest hlength => ⟨rest.length, Nat.le_refl _, ?_⟩
  simp only [Expr.sketch, Sketch.items_node, Sketch.itemsOf_cons, Sketch.items_mark,
    Sketch.itemsOf_nil, List.cons_append, List.nil_append, List.append_assoc] at hlength ⊢
  have hread := h.expr_mark (Nat.lt_of_succ_le hlength) (assignLevel_le e) (by decide) (by decide)
    (by decide)
  exact operand_lparen (parens_eq hread)

/-- What goes on after an operand is read with it: one round of `references` takes it. -/
theorem reads_after {base whole : Expr} {k : NodeKind} {tail : List Sketch}
    (h : ReadsBack eof base) (hlevel : Expr.operandLevel ≤ base.level)
    (hbound : whole.wellBound = true) (hwhole : whole.level = Expr.operandLevel)
    (hsketch : whole.sketch = .node k (base.sketch :: tail))
    (htail : ∀ n p, 0 < (Sketch.itemsOf p tail).length ∧ ∀ pos rest rounds,
      (Sketch.itemsOf p tail ++ rest).length < n + 1 →
      references (Rules.upTo n).expr (inline eof) (rounds + 1) (base.sketch.place pos)
          (Sketch.itemsOf p tail ++ rest) =
        references (Rules.upTo n).expr (inline eof) rounds
          (.enclose k pos (base.sketch.place pos :: Sketch.placeAll p tail)) rest) :
    ReadsBack eof whole := by
  refine .of_operand hbound hwhole fun n pos rest hlength => ?_
  rw [hsketch] at hlength ⊢
  simp only [Sketch.items_node, Sketch.itemsOf_cons, List.append_assoc] at hlength ⊢
  obtain ⟨rounds, hrounds, hoperand⟩ := h.operand hlevel n pos _ hlength
  obtain ⟨hpos, hmore⟩ := htail n (pos + Lexeme.span base.sketch.lexemes)
  rw [List.length_append] at hrounds hlength
  obtain ⟨rounds, rfl⟩ : ∃ m, rounds = m + 1 := ⟨rounds - 1, by omega⟩
  exact ⟨rounds, by omega, hoperand.trans (hmore pos rest rounds (by omega))⟩

theorem reads_member {base : Expr} {name : Identifier} (h : ReadsBack eof base)
    (hbound : (Expr.member base name).wellBound = true) : ReadsBack eof (.member base name) := by
  have hbase := hbound
  simp only [Expr.wellBound, Bool.and_eq_true, decide_eq_true_eq] at hbase
  refine reads_after h hbase.1 hbound rfl rfl fun n p => ⟨Nat.succ_pos _, fun pos rest rounds _ => ?_⟩
  have hname : ∀ q, (Item.inLine (name.lexeme.place q)).kind = .identifier :=
    fun _ => name.identifier
  have hleaf : ∀ q, (Item.inLine (name.lexeme.place q)).nameLeaf = .ofToken (name.lexeme.place q) :=
    fun q => by
      have hkind : (name.lexeme.place q).kind = .identifier := name.identifier
      rw [Tree.ofToken, hkind]
      rfl
  simp only [Sketch.itemsOf_cons, Sketch.items_mark, Sketch.items_leaf, Sketch.itemsOf_nil,
    List.cons_append, List.nil_append]
  rw [references_member (hname _) rfl, hleaf]
  rfl

theorem reads_index {base key : Expr} (h : ReadsBack eof base) (hkey : ReadsBack eof key)
    (hbound : (Expr.index base key).wellBound = true) : ReadsBack eof (.index base key) := by
  have hbase := hbound
  simp only [Expr.wellBound, Bool.and_eq_true, decide_eq_true_eq] at hbase
  refine reads_after h hbase.1.1 hbound rfl rfl fun n p =>
    ⟨Nat.succ_pos _, fun pos rest rounds hlength => ?_⟩
  simp only [Sketch.itemsOf_cons, Sketch.items_mark, Sketch.itemsOf_nil, List.cons_append,
    List.nil_append, List.append_assoc] at hlength ⊢
  have hread := hkey.expr_mark (Nat.lt_of_succ_lt_succ hlength) (assignLevel_le key) (by decide)
    (by decide) (by decide)
  exact references_index hread

/-! ### Lists -/

/-- What a rule for one element of a list makes of it before a comma or the closing bracket. -/
def ReadsOne (one : List Item → Parsed) (closer : Mark) (n : Nat) (c : Sketch) : Prop :=
  (∃ l ls, c.lexemes = l :: ls ∧ l.kind ≠ .mark closer) ∧
    ∀ m, m = .comma ∨ m = closer → ∀ pos p rest,
      (c.items pos ++ markItem p m :: rest).length < n →
        one (c.items pos ++ markItem p m :: rest) = (c.place pos, markItem p m :: rest)

theorem separated_one {one : List Item → Parsed} {closer m : Mark} {n rounds pos p : Nat}
    {c : Sketch} {rest : List Item} (h : ReadsOne one closer n c) (hm : m = .comma ∨ m = closer)
    (hlength : (c.items pos ++ markItem p m :: rest).length < n) :
    separated one (.mark closer) (rounds + 1) (c.items pos ++ markItem p m :: rest) =
      if m = .comma then
        (c.place pos :: (markItem p m).leaf :: (separated one (.mark closer) rounds rest).1,
          (separated one (.mark closer) rounds rest).2)
      else ([c.place pos], markItem p m :: rest) := by
  obtain ⟨⟨l, ls, hfirst, hl⟩, hone⟩ := h
  have hread := hone m hm pos p rest hlength
  have hkind : (Item.inLine (l.place pos)).kind ≠ .mark closer := hl
  have hmark : (markItem p m).kind = .mark .comma ↔ m = .comma :=
    ⟨fun heq => Token.Kind.mark.inj heq, fun heq => congrArg Token.Kind.mark heq⟩
  simp only [Sketch.items, hfirst, Lexeme.layOut, List.map_cons, List.cons_append] at hread ⊢
  rw [separated, if_neg hkind, hread]
  simp only [hmark]

theorem separated_commas {one : List Item → Parsed} {closer : Mark} {n : Nat}
    {cs : List Sketch} (h : ∀ c ∈ cs, ReadsOne one closer n c) (hcloser : closer ≠ .comma)
    {rounds pos p : Nat} {rest : List Item}
    (hrounds : (Sketch.itemsOf pos (Sketch.commas cs)).length < rounds)
    (hlength : (Sketch.itemsOf pos (Sketch.commas cs) ++ markItem p closer :: rest).length < n) :
    separated one (.mark closer) rounds
        (Sketch.itemsOf pos (Sketch.commas cs) ++ markItem p closer :: rest) =
      (Sketch.placeAll pos (Sketch.commas cs), markItem p closer :: rest) := by
  obtain ⟨rounds, rfl⟩ : ∃ m, rounds = m + 1 := ⟨rounds - 1, by omega⟩
  match cs with
  | [] =>
    have hkind : (markItem p closer).kind = .mark closer := rfl
    rw [Sketch.commas_nil, Sketch.itemsOf_nil, List.nil_append, separated, if_pos hkind]
    rfl
  | [c] =>
    simp only [Sketch.commas_single, Sketch.itemsOf_cons, Sketch.itemsOf_nil, List.append_nil]
      at hlength ⊢
    rw [separated_one (h c List.mem_cons_self) (.inr rfl) hlength, if_neg hcloser]
    rfl
  | c :: d :: cs =>
    simp only [Sketch.commas_cons_cons, Sketch.itemsOf_cons, Sketch.items_mark, List.cons_append,
      List.nil_append, List.append_assoc, List.length_append, List.length_cons]
      at hrounds hlength ⊢
    obtain ⟨hc, hcs⟩ := List.forall_mem_cons.mp h
    rw [separated_one hc (.inl rfl) (by
      simp only [List.length_append, List.length_cons]
      omega), if_pos rfl, separated_commas hcs hcloser (by omega) (by
      simp only [List.length_append, List.length_cons]
      omega)]
    rfl

/-- A list in brackets is read as one node over brackets, elements and commas. -/
theorem collection_listing {one : List Item → Parsed} {opener closer : Mark} {n : Nat}
    {cs : List Sketch} (h : ∀ c ∈ cs, ReadsOne one closer n c) (hcloser : closer ≠ .comma)
    {pos p q : Nat} {k : NodeKind} {rest : List Item}
    (hlength : (Sketch.itemsOf p (Sketch.commas cs) ++ markItem q closer :: rest).length < n) :
    Rules.collection k one (.mark closer) (inline eof) (markItem pos opener)
        (Sketch.itemsOf p (Sketch.commas cs) ++ markItem q closer :: rest) =
      (.enclose k pos ((markItem pos opener).leaf ::
        (Sketch.placeAll p (Sketch.commas cs) ++ [(markItem q closer).leaf])), rest) := by
  rw [Rules.collection, separated_commas h hcloser (by
    rw [List.length_append, List.length_cons]
    omega) hlength]
  simp only [expect_mark]
  rw [List.cons_append, enclose_here _ _ pos]

theorem items_listing (k : NodeKind) (opener closer : Mark) (cs : List Sketch) (pos : Nat) :
    ∃ p q, (Sketch.listing k opener closer cs).items pos =
        markItem pos opener :: (Sketch.itemsOf p (Sketch.commas cs) ++ [markItem q closer]) ∧
      (Sketch.listing k opener closer cs).place pos =
        .enclose k pos ((markItem pos opener).leaf ::
          (Sketch.placeAll p (Sketch.commas cs) ++ [(markItem q closer).leaf])) := by
  refine ⟨pos + Lexeme.span (Sketch.mark opener).lexemes,
    pos + Lexeme.span (Sketch.mark opener).lexemes +
      Lexeme.span (Sketch.lexemesOf (Sketch.commas cs)), ?_, ?_⟩
  · simp only [Sketch.listing, Sketch.items_node, Sketch.itemsOf_cons, Sketch.items_mark,
      Sketch.itemsOf_append, Sketch.itemsOf_nil, List.cons_append, List.nil_append]
  · simp only [Sketch.listing, Sketch.place, Sketch.placeAll, Sketch.placeAll_append]
    rfl

theorem not_begins_closer {k : Token.Kind} (h : Expr.BeginsExpr k) : k.isCloser = false := by
  rcases h with (h | h) | rfl | rfl
  · exact (Expr.not_bracket_of_isLiteral h).2
  · unfold Token.Kind.isOpener at h
    split at h <;> first | (cases h; done) | rfl
  · rfl
  · rfl

/-- What separates or closes the elements of a list ends them. -/
theorem ends_element {closer m : Mark} (hcloser : (Token.Kind.mark closer).isCloser = true)
    (hm : m = .comma ∨ m = closer) : m ≠ .dot ∧ m ≠ .lbracket ∧ m ≠ .lparen := by
  rcases hm with rfl | rfl
  · decide
  · revert hcloser
    cases m <;> decide

theorem readsOne_expr {closer : Mark} {n level : Nat} (h : ReadsBack eof e)
    (hlevel : level ≤ e.level) (hcloser : (Token.Kind.mark closer).isCloser = true) :
    ReadsOne ((Rules.upTo n).expr (inline eof) level) closer n e.sketch := by
  obtain ⟨l, ls, hfirst, hbegins⟩ := e.beginsExpr
  refine ⟨⟨l, ls, hfirst, fun hkind => ?_⟩, fun m hm pos p rest hlength => ?_⟩
  · have hnot := not_begins_closer hbegins
    rw [hkind, hcloser] at hnot
    cases hnot
  · obtain ⟨hdot, hbracket, hparen⟩ := ends_element hcloser hm
    exact h.expr_mark hlength hlevel hdot hbracket hparen

theorem readsOne_member {m : Expr × Expr} {n : Nat} (hkey : ReadsBack eof m.1)
    (hvalue : ReadsBack eof m.2) (hkeyLevel : Expr.elementLevel ≤ m.1.level)
    (hvalueLevel : Expr.elementLevel ≤ m.2.level) :
    ReadsOne ((Rules.upTo n).objectItem (inline eof)) .rbrace n (Expr.memberSketch m) := by
  obtain ⟨l, ls, hfirst, hbegins⟩ := m.1.beginsExpr
  refine ⟨⟨l, _, Sketch.lexemes_first _ _ hfirst, fun hkind => ?_⟩,
    fun mark hmark pos p rest hlength => ?_⟩
  · have hnot := not_begins_closer hbegins
    rw [hkind] at hnot
    cases hnot
  · obtain ⟨hdot, hbracket, hparen⟩ := ends_element rfl hmark
    simp only [Expr.memberSketch, Sketch.items_node, Sketch.itemsOf_cons, Sketch.items_mark,
      Sketch.itemsOf_nil, List.cons_append, List.nil_append, List.append_assoc] at hlength ⊢
    have hreadKey := hkey.expr_mark hlength (Nat.le_of_succ_le hkeyLevel) (by decide)
      (by decide) (by decide)
    simp only [List.length_append, List.length_cons] at hlength
    have hlengthValue : (m.2.sketch.items (pos + Lexeme.span m.1.sketch.lexemes +
        Lexeme.span (Sketch.mark .colon).lexemes) ++ markItem p mark :: rest).length < n := by
      simp only [List.length_append, List.length_cons]
      omega
    have hreadValue := hvalue.expr_mark hlengthValue (Nat.le_of_succ_le hvalueLevel) hdot hbracket
      hparen
    exact objectItem_eq hreadKey hreadValue

theorem reads_call {base : Expr} {args : List Expr} (h : ReadsBack eof base)
    (hargs : ∀ e ∈ args, ReadsBack eof e) (hbound : (Expr.call base args).wellBound = true) :
    ReadsBack eof (.call base args) := by
  have hbase := hbound
  simp only [Expr.wellBound, Bool.and_eq_true, decide_eq_true_eq] at hbase
  refine reads_after h hbase.1.1 hbound rfl rfl fun n p => ?_
  obtain ⟨q, last, hitems, hplace⟩ :=
    items_listing .argumentList .lparen .rparen (Expr.sketches args) p
  simp only [Sketch.itemsOf_cons, Sketch.itemsOf_nil, List.append_nil, hitems, List.cons_append,
    List.append_assoc, List.nil_append]
  refine ⟨Nat.succ_pos _, fun pos rest rounds hlength => ?_⟩
  have hone : ∀ c ∈ Expr.sketches args,
      ReadsOne ((Rules.upTo n).expr (inline eof) assignLevel) .rparen n c := by
    intro c hc
    obtain ⟨e, he, rfl⟩ := List.mem_map.mp (Expr.sketches_eq _ ▸ hc)
    exact readsOne_expr (hargs e he) (assignLevel_le e) rfl
  simp only [Sketch.placeAll, hplace]
  exact references_call (collection_listing hone (by decide) (Nat.lt_of_succ_lt_succ hlength))

theorem reads_array {elements : List Expr} (h : ∀ e ∈ elements, ReadsBack eof e)
    (hbound : (Expr.array elements).wellBound = true) : ReadsBack eof (.array elements) := by
  refine .of_operand hbound rfl fun n pos rest hlength => ⟨rest.length, Nat.le_refl _, ?_⟩
  simp only [Expr.wellBound, Expr.allWellBound_iff] at hbound
  obtain ⟨q, last, hitems, hplace⟩ :=
    items_listing .array .lbracket .rbracket (Expr.sketches elements) pos
  simp only [Expr.sketch, hitems, hplace, List.cons_append, List.append_assoc, List.nil_append]
    at hlength ⊢
  have hone : ∀ c ∈ Expr.sketches elements,
      ReadsOne ((Rules.upTo n).expr (inline eof) assignLevel) .rbracket n c := by
    intro c hc
    obtain ⟨e, he, rfl⟩ := List.mem_map.mp (Expr.sketches_eq _ ▸ hc)
    exact readsOne_expr (h e he) (assignLevel_le e) rfl
  have hnests : Nests NoBar (Sketch.itemsOf q (Sketch.commas (Expr.sketches elements))) := by
    refine Expr.nests_commas Expr.allows_noBar (fun c hc => ?_) q
    obtain ⟨e, he, rfl⟩ := List.mem_map.mp (Expr.sketches_eq _ ▸ hc)
    exact e.nests Expr.allows_noBar (Nat.le_refl _) (hbound e he).2 (hbound e he).1
  refine operand_lbracket ?_
  rw [Rules.brackets, classifyBracket_array hnests rfl]
  exact collection_listing hone (by decide) (Nat.lt_of_succ_le hlength)

theorem reads_set {first : Expr} {others : List Expr}
    (h : ∀ e ∈ first :: others, ReadsBack eof e)
    (hbound : (Expr.set first others).wellBound = true) : ReadsBack eof (.set first others) := by
  refine .of_operand hbound rfl fun n pos rest hlength => ⟨rest.length, Nat.le_refl _, ?_⟩
  have hall : ∀ e ∈ first :: others, Expr.elementLevel ≤ e.level ∧ e.wellBound = true := by
    simp only [Expr.wellBound, Bool.and_eq_true, decide_eq_true_eq, Expr.allWellBound_iff] at hbound
    exact List.forall_mem_cons.mpr hbound
  obtain ⟨q, last, hitems, hplace⟩ :=
    items_listing .set .lbrace .rbrace (Expr.sketches (first :: others)) pos
  have hsketch : (Expr.set first others).sketch =
      .listing .set .lbrace .rbrace (Expr.sketches (first :: others)) := rfl
  simp only [hsketch, hitems, hplace, List.cons_append, List.append_assoc, List.nil_append]
    at hlength ⊢
  have hone : ∀ c ∈ Expr.sketches (first :: others),
      ReadsOne ((Rules.upTo n).expr (inline eof) assignLevel) .rbrace n c := by
    intro c hc
    obtain ⟨e, he, rfl⟩ := List.mem_map.mp (Expr.sketches_eq _ ▸ hc)
    exact readsOne_expr (h e he) (assignLevel_le e) rfl
  have hnests : Nests Quiet (Sketch.itemsOf q (Sketch.commas (Expr.sketches (first :: others)))) := by
    refine Expr.nests_commas Expr.allows_quiet (fun c hc => ?_) q
    obtain ⟨e, he, rfl⟩ := List.mem_map.mp (Expr.sketches_eq _ ▸ hc)
    exact e.nests Expr.allows_quiet (Nat.le_refl _) (hall e he).2 (hall e he).1
  have hne : Sketch.itemsOf q (Sketch.commas (Expr.sketches (first :: others))) ≠ [] := by
    obtain ⟨more, hmore⟩ := Sketch.commas_cons first.sketch (Expr.sketches others)
    obtain ⟨l, ls, hfirst, -⟩ := first.beginsExpr
    rw [Expr.sketches, hmore, Sketch.itemsOf_cons, Sketch.items, hfirst]
    exact List.cons_ne_nil _ _
  refine operand_lbrace ?_
  rw [Rules.braces, classifyBrace_set hnests hne rfl]
  exact collection_listing hone (by decide) (Nat.lt_of_succ_le hlength)

/-- Members make an object, whatever stands in them: the first colon tells. -/
theorem classifyBrace_members {ms : List (Expr × Expr)}
    (h : Expr.membersWellBound ms = true) (q last : Nat) (rest : List Item) :
    classifyBrace (Sketch.itemsOf q (Sketch.commas (Expr.memberSketches ms)) ++
      markItem last .rbrace :: rest) = .object := by
  have hall := Expr.membersWellBound_iff.mp h
  have hkey : ∀ m ∈ ms, ∀ pos, Nests NoBar (m.1.sketch.items pos) := fun m hm =>
    m.1.nests Expr.allows_noBar (Nat.le_refl _) (hall m hm).1.2 (hall m hm).1.1
  have hvalue : ∀ m ∈ ms, ∀ pos, Nests NoBar (m.2.sketch.items pos) := fun m hm =>
    m.2.nests Expr.allows_noBar (Nat.le_refl _) (hall m hm).2.2 (hall m hm).2.1
  have hcolon : ∀ i : Item, i.newline = false → i.kind = .mark .colon → NoBar i :=
    fun i _ hi hbar => by rw [hi] at hbar; cases hbar
  match ms with
  | [] => exact classifyBrace_empty rfl rest
  | [m] =>
    simp only [Expr.memberSketches, Sketch.commas_single, Sketch.itemsOf_cons, Sketch.items_node,
      Sketch.items_mark, Sketch.itemsOf_nil, List.append_nil, List.append_assoc, List.cons_append,
      List.nil_append]
    exact classifyBrace_object (hkey m List.mem_cons_self _) rfl (hvalue m List.mem_cons_self _)
      rfl rest
  | m :: m' :: ms =>
    have hothers : ∀ pos, Nests NoBar (Sketch.itemsOf pos
        (Sketch.commas (Expr.memberSketches (m' :: ms)))) := by
      refine Expr.nests_commas Expr.allows_noBar fun c hc => ?_
      obtain ⟨o, ho, rfl⟩ := List.mem_map.mp (Expr.memberSketches_eq _ ▸ hc)
      exact Expr.nests_member hcolon (hkey o (List.mem_cons_of_mem _ ho))
        (hvalue o (List.mem_cons_of_mem _ ho))
    have hvalues : ∀ pos p, Nests NoBar (m.2.sketch.items pos ++ markItem p .comma ::
        Sketch.itemsOf (p + Lexeme.span (Sketch.mark .comma).lexemes)
          (Sketch.commas (Expr.memberSketches (m' :: ms)))) := fun pos p =>
      (hvalue m List.mem_cons_self pos).append
        (Expr.nests_mark Expr.allows_noBar .comma rfl rfl p (hothers _))
    have hmark : ∀ pos, (markItem pos .colon).kind = .mark .colon := fun _ => rfl
    have hclose : (markItem last .rbrace).kind.isCloser = true := rfl
    have hclosed := fun at? pos p =>
      classifyBrace_object (hkey m List.mem_cons_self q) (hmark at?) (hvalues pos p) hclose rest
    simp only [Expr.memberSketches, Sketch.commas_cons_cons, Sketch.itemsOf_cons, Sketch.items_node,
      Sketch.items_mark, Sketch.itemsOf_nil, List.append_nil, List.append_assoc, List.cons_append,
      List.nil_append] at hclosed ⊢
    exact hclosed _ _ _

theorem reads_object {members : List (Expr × Expr)}
    (h : ∀ m ∈ members, ReadsBack eof m.1 ∧ ReadsBack eof m.2)
    (hbound : (Expr.object members).wellBound = true) : ReadsBack eof (.object members) := by
  refine .of_operand hbound rfl fun n pos rest hlength => ⟨rest.length, Nat.le_refl _, ?_⟩
  simp only [Expr.wellBound] at hbound
  have hall := Expr.membersWellBound_iff.mp hbound
  obtain ⟨q, last, hitems, hplace⟩ :=
    items_listing .object .lbrace .rbrace (Expr.memberSketches members) pos
  simp only [Expr.sketch, hitems, hplace, List.cons_append, List.append_assoc, List.nil_append]
    at hlength ⊢
  have hone : ∀ c ∈ Expr.memberSketches members,
      ReadsOne ((Rules.upTo n).objectItem (inline eof)) .rbrace n c := by
    intro c hc
    obtain ⟨m, hm, rfl⟩ := List.mem_map.mp (Expr.memberSketches_eq _ ▸ hc)
    exact readsOne_member (h m hm).1 (h m hm).2 (hall m hm).1.1 (hall m hm).2.1
  refine operand_lbrace ?_
  rw [Rules.braces, classifyBrace_members hbound]
  exact collection_listing hone (by decide) (Nat.lt_of_succ_le hlength)

/-! ### Every expression -/

theorem reads_back (e : Expr) (h : e.wellBound = true) : ReadsBack eof e := by
  induction e using Expr.induction with
  | literal value => exact reads_literal value
  | unary sign e ih =>
    simp only [Expr.wellBound, Bool.and_eq_true, decide_eq_true_eq] at h
    exact reads_unary (ih h.2) h.1
  | binary l operator r ihl ihr =>
    simp only [Expr.wellBound, Bool.and_eq_true, decide_eq_true_eq] at h
    exact reads_binary (ihl h.1.2) (ihr h.2) h.1.1.1 h.1.1.2
  | paren e ih => exact reads_paren (ih h) h
  | member base name ih =>
    have hbase := h
    simp only [Expr.wellBound, Bool.and_eq_true] at hbase
    exact reads_member (ih hbase.2) h
  | index base key ihBase ihKey =>
    have hparts := h
    simp only [Expr.wellBound, Bool.and_eq_true] at hparts
    exact reads_index (ihBase hparts.1.2) (ihKey hparts.2) h
  | call base arguments ihBase ih =>
    have hparts := h
    simp only [Expr.wellBound, Bool.and_eq_true, Expr.allWellBound_iff] at hparts
    exact reads_call (ihBase hparts.1.2) (fun e he => ih e he (hparts.2 e he).2) h
  | array elements ih =>
    have hparts := h
    simp only [Expr.wellBound, Expr.allWellBound_iff] at hparts
    exact reads_array (fun e he => ih e he (hparts e he).2) h
  | set first others ih =>
    have hparts := h
    simp only [Expr.wellBound, Bool.and_eq_true, Expr.allWellBound_iff] at hparts
    have hall : ∀ e ∈ first :: others, e.wellBound = true :=
      List.forall_mem_cons.mpr ⟨hparts.1.2, fun e he => (hparts.2 e he).2⟩
    exact reads_set (fun e he => ih e he (hall e he)) h
  | object members ih =>
    have hparts := h
    simp only [Expr.wellBound, Expr.membersWellBound_iff] at hparts
    exact reads_object (fun m hm =>
      ⟨(ih m hm).1 (hparts m hm).1.2, (ih m hm).2 (hparts m hm).2.2⟩) h

end PolicyEditor.Grammar
