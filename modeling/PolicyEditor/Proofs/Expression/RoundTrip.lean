import PolicyEditor.Grammar.Script
import PolicyEditor.Proofs.Expression.Printing
import PolicyEditor.Proofs.Expression.Reading
import PolicyEditor.Proofs.Tree.Clean

/-!
A printed expression is parsed back: no error, and without the spaces the very tree that was
printed.
-/

namespace PolicyEditor

open PolicyEditor.Grammar

namespace Sketch

mutual

def proper : Sketch → Bool
  | .leaf _ => true
  | .node k cs => k != .error && !k.isTrivia && properAll cs

def properAll : List Sketch → Bool
  | [] => true
  | c :: cs => proper c && properAll cs

end

theorem properAll_append (cs ds : List Sketch) :
    properAll (cs ++ ds) = (properAll cs && properAll ds) := by
  induction cs with
  | nil => rfl
  | cons c cs ih => simp only [List.cons_append, properAll, ih, Bool.and_assoc]

theorem properAll_commas : ∀ {cs : List Sketch}, properAll cs = true → properAll (commas cs) = true
  | [], _ => rfl
  | [_], h => h
  | c :: d :: cs, h => by
    rw [properAll, Bool.and_eq_true] at h
    rw [commas_cons_cons, properAll, h.1, properAll, properAll_commas h.2]
    rfl

theorem properAll_iff {cs : List Sketch} : properAll cs = true ↔ ∀ c ∈ cs, c.proper = true := by
  induction cs with
  | nil => exact ⟨nofun, fun _ => rfl⟩
  | cons c cs ih => simp only [properAll, Bool.and_eq_true, ih, List.forall_mem_cons]

theorem proper_listing {k : NodeKind} {opener closer : Mark} {cs : List Sketch}
    (hk : (k != .error && !k.isTrivia) = true) (h : ∀ c ∈ cs, c.proper = true) :
    (listing k opener closer cs).proper = true := by
  have hcommas := properAll_commas (properAll_iff.mpr h)
  simp only [listing, proper, properAll, properAll_append, hk, hcommas, Bool.true_and]
  rfl

mutual

/-- A proper tree is clean wherever its leaves are, and there is nothing to take off it. -/
theorem place_proper (pos : Nat) : ∀ c : Sketch, c.proper = true →
    (c.place pos).clean = true ∧ (c.place pos).bare = c.place pos ∧ (c.place pos).isTrivia = false
  | .leaf l, _ =>
    ⟨Tree.clean_ofToken _, rfl, (Tree.isTrivia_ofToken (l.place pos)).trans l.stands.visible.2⟩
  | .node k cs, h => by
    simp only [proper, Bool.and_eq_true, Bool.not_eq_true'] at h
    obtain ⟨hclean, hbare⟩ := placeAll_proper pos cs h.2
    refine ⟨?_, ?_, h.1.2⟩
    · simp only [place, Tree.clean_enclose, h.1.1, hclean, Bool.and_self]
    · simp only [place, Tree.enclose, Tree.bare, hbare]

theorem placeAll_proper (pos : Nat) : ∀ cs : List Sketch, properAll cs = true →
    Tree.cleanAll (placeAll pos cs) = true ∧ Tree.bareList (placeAll pos cs) = placeAll pos cs
  | [], _ => ⟨rfl, rfl⟩
  | c :: cs, h => by
    simp only [properAll, Bool.and_eq_true] at h
    obtain ⟨hclean, hbare, htrivia⟩ := place_proper pos c h.1
    obtain ⟨hcleanAll, hbareAll⟩ := placeAll_proper (pos + Lexeme.span c.lexemes) cs h.2
    constructor
    · simp only [placeAll, Tree.cleanAll, hclean, hcleanAll, Bool.and_self]
    · simp only [placeAll, Tree.bareList, htrivia, Bool.false_eq_true, if_false, hbare, hbareAll]

end

end Sketch

theorem Expr.proper_sketch (e : Expr) : e.sketch.proper = true := by
  have hmark : ∀ m, (Sketch.mark m).proper = true := fun _ => rfl
  have hleaf : ∀ l, (Sketch.leaf l).proper = true := fun _ => rfl
  induction e using Expr.induction with
  | literal value => rfl
  | unary sign e ih => simp only [sketch, Sketch.proper, Sketch.properAll, ih]; rfl
  | binary l operator r ihl ihr =>
    have hnode : (operator.binding.node != .error && !operator.binding.node.isTrivia) = true := by
      have hbinds := operator.binds
      unfold binding? at hbinds
      split at hbinds <;> simp only [Option.some.injEq, reduceCtorEq] at hbinds <;>
        rw [← hbinds] <;> rfl
    simp only [sketch, Sketch.proper, Sketch.properAll, hnode, ihl, ihr, Bool.and_self]
  | paren e ih => simp only [sketch, Sketch.proper, Sketch.properAll, ih]; rfl
  | member base name ih => simp only [sketch, Sketch.proper, Sketch.properAll, ih]; rfl
  | index base key ihBase ihKey =>
    simp only [sketch, Sketch.proper, Sketch.properAll, ihBase, ihKey]
    rfl
  | call base arguments ihBase ih =>
    have hargs : (Sketch.listing .argumentList .lparen .rparen (sketches arguments)).proper = true :=
      Sketch.proper_listing rfl fun c hc => by
        obtain ⟨e, he, rfl⟩ := List.mem_map.mp (sketches_eq _ ▸ hc)
        exact ih e he
    simp only [sketch, Sketch.proper, Sketch.properAll, ihBase, hargs]
    rfl
  | array elements ih =>
    refine Sketch.proper_listing rfl fun c hc => ?_
    obtain ⟨e, he, rfl⟩ := List.mem_map.mp (sketches_eq _ ▸ hc)
    exact ih e he
  | set first others ih =>
    refine Sketch.proper_listing rfl fun c hc => ?_
    have hc : c ∈ sketches (first :: others) := hc
    obtain ⟨e, he, rfl⟩ := List.mem_map.mp (sketches_eq _ ▸ hc)
    exact ih e he
  | object members ih =>
    refine Sketch.proper_listing rfl fun c hc => ?_
    obtain ⟨m, hm, rfl⟩ := List.mem_map.mp (memberSketches_eq _ ▸ hc)
    simp only [memberSketch, Sketch.proper, Sketch.properAll, (ih m hm).1, (ih m hm).2]
    rfl

namespace Grammar

variable {r : Rules} {eof : Nat} {t : Token} {rest : List Item}

/-- Line breaks before the first item mean nothing where none of them can end an expression. -/
theorem operand_flags (h : neverOperand t.kind = false) (newline breaks : Bool) :
    r.operand (inline eof) (⟨t, newline, breaks⟩ :: rest) =
      r.operand (inline eof) (.inLine t :: rest) := by
  have hnever : ∀ a b, (neverOperand (Item.kind ⟨t, a, b⟩) || (inline eof).stops ⟨t, a, b⟩) = false :=
    fun a b => by rw [stops_inline, Bool.or_false]; exact h
  simp only [Rules.operand, Item.inLine, hnever, Bool.false_eq_true, if_false]
  rfl

theorem expression_flags (h : neverOperand t.kind = false) (newline breaks : Bool) (level : Nat) :
    r.expression (inline eof) level (⟨t, newline, breaks⟩ :: rest) =
      r.expression (inline eof) level (.inLine t :: rest) := by
  have hoperand : r.operand (inline eof) (⟨t, newline, breaks⟩ :: rest) = _ :=
    operand_flags h newline breaks
  simp only [Rules.expression, unaryWith, hoperand]
  rfl

theorem neverOperand_of_beginsExpr {k : Token.Kind} (h : Expr.BeginsExpr k) :
    neverOperand k = false := by
  rcases h with h | rfl | rfl
  · exact neverOperand_of_begins h
  · rfl
  · rfl

/-- The grammar reads the items of a printed expression to their end. -/
theorem expr_items (e : Expr) (h : e.wellBound = true) (eof : Nat) :
    (Rules.upTo ((items (Lexeme.spaced 0 e.sketch.lexemes)).length + 1)).expr (inline eof)
      assignLevel (items (Lexeme.spaced 0 e.sketch.lexemes)) = (e.tree, []) := by
  obtain ⟨l, ls, hlexemes, hbegins⟩ := e.beginsExpr
  have hitems : e.sketch.items 0 =
      .inLine (l.place 0) :: (Lexeme.layOut (l.chars.length + 1) ls).map .inLine := by
    rw [Sketch.items, hlexemes, Lexeme.layOut, Nat.zero_add]
    rfl
  have hback : ReadsBack eof e := reads_back e h
  have hread := hback.expr 0 (Nat.lt_succ_self _) (assignLevel_le e)
    (endsExpr_nil assignLevel)
  rw [List.append_nil, hitems] at hread
  -- The first item stands at the beginning of a line, and nothing else tells it from one within.
  rw [hlexemes, Lexeme.items_spaced]
  exact (expression_flags (neverOperand_of_beginsExpr hbegins) true true assignLevel).trans hread

theorem parseExpressionChars_of_expr {source : List Char} {tree : Tree}
    (h : (Rules.upTo ((items (Token.scan source)).length + 1)).expr (inline source.length)
      assignLevel (items (Token.scan source)) = (tree, [])) :
    parseExpressionChars source =
      Tree.dressScript source.length ((Token.scan source).filter Token.isTrivia) [tree] := by
  have hparse : parseExpressionChars source =
      (fun p : Parsed => Tree.dressScript source.length ((Token.scan source).filter Token.isTrivia)
        (p.1 :: p.2.map fun i => misplaced (inline source.length) [i]))
      ((Rules.upTo ((items (Token.scan source)).length + 1)).expr (inline source.length)
        assignLevel (items (Token.scan source))) := rfl
  rw [hparse, h]
  rfl

/-- An expression is parsed back from its print. -/
theorem parseExpression_text (e : Expr) (h : e.wellBound = true) :
    (parseExpression e.text).ofKind .error = [] ∧
      (parseExpression e.text).bare = .node .script 0 e.text.length [e.tree] := by
  obtain ⟨hclean, hbare, htrivia⟩ := Sketch.place_proper 0 e.sketch e.proper_sketch
  have hparse : parseExpression e.text = Tree.dressScript e.text.length
      ((Lexeme.spaced 0 e.sketch.lexemes).filter Token.isTrivia) [e.tree] := by
    have hread := expr_items e h (Lexeme.print e.sketch.lexemes).length
    rw [← Lexeme.scan_print] at hread ⊢
    rw [parseExpression, Expr.text, String.toList_ofList, parseExpressionChars_of_expr hread,
      String.length_ofList]
  rw [hparse]
  constructor
  · rw [Tree.ofKind_error_eq_nil_iff, Tree.clean_dressScript]
    simp only [Tree.cleanAll, Expr.tree, hclean, Bool.and_self]
  · rw [Tree.bare_dressScript _ fun u hu => (List.mem_filter.mp hu).2]
    simp only [Tree.bareList, Expr.tree, htrivia, Bool.false_eq_true, if_false, hbare]

/-- The sum of a name and a signed product of another: three levels of binding. -/
def sample : Expr :=
  .binary (name 'a' (by decide)) ⟨⟨.operator .plus, ['+'], .sign (.operator .plus)⟩, _, rfl⟩
    (.binary (.unary ⟨⟨.operator .minus, ['-'], .sign (.operator .minus)⟩, .inl rfl⟩
        (name 'b' (by decide)))
      ⟨⟨.operator .star, ['*'], .sign (.operator .star)⟩, _, rfl⟩
      (.paren (name 'c' (by decide))))
where
  name (c : Char) (h : Text.isNameStart c = true) : Expr :=
    .literal ⟨⟨.identifier, [c], .identifier ⟨c, [], rfl, h, nofun⟩ fun word heq => by
      cases word <;> cases heq⟩, rfl⟩

example : sample.text = "a + - b * ( c )" := by decide

theorem parseExpression_text_sample : sample.wellBound = true ∧
    (parseExpression sample.text).ofKind .error = [] ∧
    (parseExpression sample.text).bare = .node .script 0 sample.text.length [sample.tree] :=
  ⟨by decide, parseExpression_text sample (by decide)⟩

end Grammar

end PolicyEditor
