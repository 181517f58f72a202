import PolicyEditor.Proofs.Expression.Syntax
import PolicyEditor.Proofs.Grammar.Nesting

/-!
The items of a printed expression: how they lie side by side, with what they begin, and how the
brackets among them nest.
-/

namespace PolicyEditor

open PolicyEditor.Grammar

def Grammar.Item.inLine (t : Token) : Item :=
  ⟨t, false, false⟩

namespace Sketch

def items (pos : Nat) (k : Sketch) : List Item :=
  (Lexeme.layOut pos k.lexemes).map .inLine

def itemsOf (pos : Nat) (cs : List Sketch) : List Item :=
  (Lexeme.layOut pos (lexemesOf cs)).map .inLine

def markItem (pos : Nat) (m : Mark) : Item :=
  .inLine ((Lexeme.mark m).place pos)

end Sketch

theorem Lexeme.span_append (a b : List Lexeme) : span (a ++ b) = span a + span b := by
  induction a with
  | nil => exact (Nat.zero_add _).symm
  | cons l a ih => simp only [List.cons_append, span, ih, Nat.add_assoc]

theorem Lexeme.layOut_append (pos : Nat) (a b : List Lexeme) :
    layOut pos (a ++ b) = layOut pos a ++ layOut (pos + span a) b := by
  induction a generalizing pos with
  | nil => rfl
  | cons l a ih => simp only [List.cons_append, layOut, span, ih, Nat.add_assoc]

namespace Sketch

variable (pos : Nat)

@[simp] theorem items_leaf (l : Lexeme) : (leaf l).items pos = [.inLine (l.place pos)] := rfl

@[simp] theorem items_mark (m : Mark) : (mark m).items pos = [markItem pos m] := rfl

@[simp] theorem items_node (k : NodeKind) (cs : List Sketch) :
    (node k cs).items pos = itemsOf pos cs := rfl

@[simp] theorem itemsOf_nil : itemsOf pos [] = [] := rfl

@[simp] theorem itemsOf_cons (c : Sketch) (cs : List Sketch) :
    itemsOf pos (c :: cs) = c.items pos ++ itemsOf (pos + Lexeme.span c.lexemes) cs := by
  simp only [itemsOf, items, lexemesOf, Lexeme.layOut_append, List.map_append]

theorem lexemes_first {c : Sketch} {l : Lexeme} {ls : List Lexeme} (k : NodeKind)
    (cs : List Sketch) (h : c.lexemes = l :: ls) :
    (node k (c :: cs)).lexemes = l :: (ls ++ lexemesOf cs) := by
  simp only [lexemes, lexemesOf, h, List.cons_append]

theorem lexemesOf_append (cs ds : List Sketch) :
    lexemesOf (cs ++ ds) = lexemesOf cs ++ lexemesOf ds := by
  induction cs with
  | nil => rfl
  | cons c cs ih => simp only [List.cons_append, lexemesOf, ih, List.append_assoc]

theorem itemsOf_append (cs ds : List Sketch) :
    itemsOf pos (cs ++ ds) = itemsOf pos cs ++ itemsOf (pos + Lexeme.span (lexemesOf cs)) ds := by
  simp only [itemsOf, lexemesOf_append, Lexeme.layOut_append, List.map_append]

theorem placeAll_append (cs ds : List Sketch) :
    placeAll pos (cs ++ ds) =
      placeAll pos cs ++ placeAll (pos + Lexeme.span (lexemesOf cs)) ds := by
  induction cs generalizing pos with
  | nil => rfl
  | cons c cs ih =>
    simp only [List.cons_append, placeAll, ih, lexemesOf, Lexeme.span_append, Nat.add_assoc]

@[simp] theorem commas_nil : commas [] = [] := rfl

@[simp] theorem commas_single (c : Sketch) : commas [c] = [c] := rfl

@[simp] theorem commas_cons_cons (c d : Sketch) (ds : List Sketch) :
    commas (c :: d :: ds) = c :: mark .comma :: commas (d :: ds) := rfl

theorem commas_cons (c : Sketch) (cs : List Sketch) : ∃ more, commas (c :: cs) = c :: more := by
  cases cs with
  | nil => exact ⟨[], rfl⟩
  | cons d ds => exact ⟨_, rfl⟩

end Sketch

namespace Expr

/-! ### The first item -/

/-- Tokens with which an operand without a sign begins. -/
def BeginsOperand (k : Token.Kind) : Prop :=
  k.isLiteral = true ∨ k.isOpener = true

def BeginsExpr (k : Token.Kind) : Prop :=
  BeginsOperand k ∨ k = .operator .minus ∨ k = .operator .bang

theorem beginsExpr : ∀ e : Expr, ∃ l ls, e.sketch.lexemes = l :: ls ∧ BeginsExpr l.kind
  | .literal value => ⟨value.lexeme, [], rfl, .inl (.inl value.literal)⟩
  | .unary sign _ => ⟨sign.lexeme, _, rfl, .inr sign.sign⟩
  | .binary l _ _ | .member l _ | .index l _ | .call l _ => by
    obtain ⟨first, more, heq, hbegins⟩ := beginsExpr l
    exact ⟨first, _, Sketch.lexemes_first _ _ heq, hbegins⟩
  | .paren _ | .array _ | .set _ _ | .object _ => ⟨.mark _, _, rfl, .inl (.inr rfl)⟩

theorem beginsOperand : ∀ e : Expr, e.wellBound = true → operandLevel ≤ e.level →
    ∃ l ls, e.sketch.lexemes = l :: ls ∧ BeginsOperand l.kind
  | .literal value, _, _ => ⟨value.lexeme, [], rfl, .inl value.literal⟩
  | .unary _ _, _, hlevel => absurd hlevel (Nat.not_succ_le_self unaryLevel)
  | .binary _ operator _, _, hlevel => by
    have hlt := level_lt_unaryLevel operator.binds
    simp only [level, operandLevel] at hlevel
    omega
  | .member l _, h, _ | .index l _, h, _ | .call l _, h, _ => by
    simp only [wellBound, Bool.and_eq_true, decide_eq_true_eq] at h
    obtain ⟨first, more, heq, hbegins⟩ := beginsOperand l (by tauto) (by tauto)
    exact ⟨first, _, Sketch.lexemes_first _ _ heq, hbegins⟩
  | .paren _, _, _ | .array _, _, _ | .set _ _, _, _ | .object _, _, _ =>
    ⟨.mark _, _, rfl, .inr rfl⟩

/-! ### Brackets -/

/-- Tokens outside brackets in an expression that binds at least as tightly as `least`, and the
comma that separates such expressions. -/
inductive TopLevel (least : Nat) : Token.Kind → Prop where
  | literal {k : Token.Kind} : k.isLiteral = true → TopLevel least k
  | opener {k : Token.Kind} : k.isOpener = true → TopLevel least k
  | binary {k : Token.Kind} {b : Binding} : binding? k = some b → least ≤ b.level → TopLevel least k
  | bang : TopLevel least (.operator .bang)
  | dot : TopLevel least (.mark .dot)
  | comma : TopLevel least (.mark .comma)

theorem TopLevel.quiet {k : Token.Kind} (h : TopLevel elementLevel k) :
    k ≠ .operator .pipe ∧ k ≠ .mark .colon ∧ marksStatement k = false := by
  cases h with
  | literal h =>
    unfold Token.Kind.isLiteral at h
    split at h <;> first | (cases h; done) | decide
  | opener h =>
    unfold Token.Kind.isOpener at h
    split at h <;> first | (cases h; done) | decide
  | binary h hlevel =>
    unfold binding? at h
    split at h <;> simp only [Option.some.injEq, reduceCtorEq] at h <;> subst h <;>
      first | decide | exact absurd hlevel (by decide)
  | bang | dot | comma => decide

theorem not_bracket_of_isLiteral {k : Token.Kind} (h : k.isLiteral = true) :
    k.isOpener = false ∧ k.isCloser = false := by
  unfold Token.Kind.isLiteral at h
  split at h <;> first | (cases h; done) | decide

theorem not_bracket_of_binding {k : Token.Kind} {b : Binding} (h : binding? k = some b) :
    k.isOpener = false ∧ k.isCloser = false := by
  unfold binding? at h
  split at h <;> first | (cases h; done) | decide

def Allows (least : Nat) (P : Item → Prop) : Prop :=
  ∀ i : Item, i.newline = false → TopLevel least i.kind → P i

theorem allows_true (least : Nat) : Allows least fun _ => True :=
  fun _ _ _ => trivial

theorem allows_quiet : Allows elementLevel Quiet :=
  fun _ hnewline h => ⟨h.quiet.1, h.quiet.2.1, h.quiet.2.2, hnewline⟩

theorem allows_noBar : Allows elementLevel NoBar :=
  fun _ hnewline h => (allows_quiet _ hnewline h).bar

section

variable {P : Item → Prop} {least : Nat}

theorem nests_lexeme (hP : Allows least P) {l : Lexeme} (h : TopLevel least l.kind)
    (hbracket : l.kind.isOpener = false ∧ l.kind.isCloser = false) (pos : Nat) {rest : List Item}
    (hrest : Nests P rest) : Nests P (.inLine (l.place pos) :: rest) :=
  .plain hbracket.1 hbracket.2 (hP _ rfl h) hrest

theorem nests_mark (hP : Allows least P) {m : Mark} (h : TopLevel least (.mark m))
    (hopen : (Token.Kind.mark m).isOpener = false) (hclose : (Token.Kind.mark m).isCloser = false)
    (pos : Nat) {rest : List Item} (hrest : Nests P rest) :
    Nests P (Sketch.markItem pos m :: rest) :=
  nests_lexeme hP h ⟨hopen, hclose⟩ pos hrest

theorem nests_listing (hP : Allows least P) {opener closer : Mark}
    (hopen : (Token.Kind.mark opener).isOpener = true)
    (hclose : (Token.Kind.mark closer).isCloser = true) (k : NodeKind) {cs : List Sketch}
    (h : ∀ pos, Balanced (Sketch.itemsOf pos (Sketch.commas cs))) (pos : Nat) :
    Nests P ((Sketch.listing k opener closer cs).items pos) := by
  simp only [Sketch.listing, Sketch.items_node, Sketch.itemsOf_cons, Sketch.items_mark,
    Sketch.itemsOf_append, Sketch.itemsOf_nil, List.cons_append, List.nil_append]
  exact .group hopen hclose (hP _ rfl (.opener hopen)) (h _) .nil

end

/-- Expressions between commas nest as each of them does. -/
theorem nests_commas {P : Item → Prop} {least : Nat} (hP : Allows least P) {cs : List Sketch}
    (h : ∀ c ∈ cs, ∀ pos, Nests P (c.items pos)) (pos : Nat) :
    Nests P (Sketch.itemsOf pos (Sketch.commas cs)) := by
  match cs with
  | [] => exact .nil
  | [c] =>
    rw [Sketch.commas_single, Sketch.itemsOf_cons]
    exact (h c List.mem_cons_self pos).append .nil
  | c :: d :: cs =>
    rw [Sketch.commas_cons_cons, Sketch.itemsOf_cons, Sketch.itemsOf_cons, Sketch.items_mark]
    obtain ⟨hc, hcs⟩ := List.forall_mem_cons.mp h
    exact (hc pos).append (nests_mark hP .comma rfl rfl _ (nests_commas hP hcs _))

/-- A member nests as its key and its value do; its colon stands outside brackets. -/
theorem nests_member {P : Item → Prop}
    (hcolon : ∀ i : Item, i.newline = false → i.kind = .mark .colon → P i) {m : Expr × Expr}
    (hkey : ∀ pos, Nests P (m.1.sketch.items pos))
    (hvalue : ∀ pos, Nests P (m.2.sketch.items pos)) (pos : Nat) :
    Nests P ((memberSketch m).items pos) := by
  simp only [memberSketch, Sketch.items_node, Sketch.itemsOf_cons, Sketch.items_mark,
    Sketch.itemsOf_nil, List.cons_append, List.nil_append, List.append_nil]
  exact (hkey _).append (.plain rfl rfl (hcolon _ rfl rfl) (hvalue _))

/-- The brackets of an expression pair up, and what stands outside of them binds as tightly as the
expression. A minus may be a sign, which binds tighter than it tells, so the bound is not above that
of a minus. -/
theorem nests (e : Expr) {P : Item → Prop} {least : Nat} (hP : Allows least P)
    (hleast : least ≤ elementLevel) (h : e.wellBound = true) (hlevel : least ≤ e.level) (pos : Nat) :
    Nests P (e.sketch.items pos) := by
  induction e using Expr.induction generalizing P least pos with
  | literal value =>
    exact nests_lexeme hP (.literal value.literal) (not_bracket_of_isLiteral value.literal) pos .nil
  | unary sign e ih =>
    simp only [wellBound, Bool.and_eq_true, decide_eq_true_eq] at h
    simp only [sketch, Sketch.items_node, Sketch.itemsOf_cons, Sketch.items_leaf,
      Sketch.itemsOf_nil, List.cons_append, List.nil_append, List.append_nil]
    have htop : TopLevel least sign.lexeme.kind ∧
        sign.lexeme.kind.isOpener = false ∧ sign.lexeme.kind.isCloser = false := by
      rcases sign.sign with hsign | hsign <;> rw [hsign]
      · exact ⟨.binary rfl (Nat.le_trans hleast (by decide)), rfl, rfl⟩
      · exact ⟨.bang, rfl, rfl⟩
    exact nests_lexeme hP htop.1 htop.2 pos (ih hP hleast h.2 (Nat.le_trans hlevel h.1) _)
  | binary l operator r ihl ihr =>
    simp only [wellBound, Bool.and_eq_true, decide_eq_true_eq] at h
    obtain ⟨⟨⟨hl, hr⟩, hboundl⟩, hboundr⟩ := h
    simp only [level] at hlevel
    simp only [sketch, Sketch.items_node, Sketch.itemsOf_cons, Sketch.items_leaf,
      Sketch.itemsOf_nil, List.cons_append, List.nil_append, List.append_nil]
    exact (ihl hP hleast hboundl (Nat.le_trans hlevel hl) _).append
      (nests_lexeme hP (.binary operator.binds hlevel) (not_bracket_of_binding operator.binds) _
        (ihr hP hleast hboundr (Nat.le_trans hlevel (Nat.le_of_lt hr)) _))
  | paren e ih =>
    simp only [sketch, Sketch.items_node, Sketch.itemsOf_cons, Sketch.items_mark,
      Sketch.itemsOf_nil, List.cons_append, List.nil_append]
    -- Inside brackets an expression may bind as loosely as it likes.
    exact .group rfl rfl (hP _ rfl (.opener rfl))
      (ih (allows_true 0) (Nat.zero_le _) h (Nat.zero_le _) _) .nil
  | member base name ih =>
    simp only [wellBound, Bool.and_eq_true, decide_eq_true_eq] at h
    simp only [sketch, Sketch.items_node, Sketch.itemsOf_cons, Sketch.items_mark,
      Sketch.items_leaf, Sketch.itemsOf_nil, List.cons_append, List.nil_append]
    have hname : name.lexeme.kind.isLiteral = true := by rw [name.identifier]; rfl
    exact (ih hP hleast h.2 (Nat.le_trans hlevel h.1) _).append
      (nests_mark hP .dot rfl rfl _
        (nests_lexeme hP (.literal hname) (not_bracket_of_isLiteral hname) _ .nil))
  | index base key ihBase ihKey =>
    simp only [wellBound, Bool.and_eq_true, decide_eq_true_eq] at h
    simp only [sketch, Sketch.items_node, Sketch.itemsOf_cons, Sketch.items_mark,
      Sketch.itemsOf_nil, List.cons_append, List.nil_append]
    exact (ihBase hP hleast h.1.2 (Nat.le_trans hlevel h.1.1) _).append
      (.group rfl rfl (hP _ rfl (.opener rfl))
        (ihKey (allows_true 0) (Nat.zero_le _) h.2 (Nat.zero_le _) _) .nil)
  | call base arguments ihBase ih =>
    simp only [wellBound, Bool.and_eq_true, decide_eq_true_eq, allWellBound_iff] at h
    simp only [sketch, Sketch.items_node, Sketch.itemsOf_cons, Sketch.itemsOf_nil,
      List.append_nil]
    refine (ihBase hP hleast h.1.2 (Nat.le_trans hlevel h.1.1) _).append
      (nests_listing hP rfl rfl _ (nests_commas (allows_true 0) fun c hc => ?_) _)
    obtain ⟨e, he, rfl⟩ := List.mem_map.mp (sketches_eq _ ▸ hc)
    exact ih e he (allows_true 0) (Nat.zero_le _) (h.2 e he).2 (Nat.zero_le _)
  | array elements ih =>
    simp only [wellBound, allWellBound_iff] at h
    refine nests_listing hP rfl rfl _ (nests_commas (allows_true 0) fun c hc => ?_) pos
    obtain ⟨e, he, rfl⟩ := List.mem_map.mp (sketches_eq _ ▸ hc)
    exact ih e he (allows_true 0) (Nat.zero_le _) (h e he).2 (Nat.zero_le _)
  | set first others ih =>
    have hall : ∀ e ∈ first :: others, e.wellBound = true := by
      simp only [wellBound, Bool.and_eq_true, allWellBound_iff] at h
      exact List.forall_mem_cons.mpr ⟨h.1.2, fun e he => (h.2 e he).2⟩
    refine nests_listing hP rfl rfl _ (nests_commas (allows_true 0) fun c hc => ?_) pos
    have hc : c ∈ sketches (first :: others) := hc
    obtain ⟨e, he, rfl⟩ := List.mem_map.mp (sketches_eq _ ▸ hc)
    exact ih e he (allows_true 0) (Nat.zero_le _) (hall e he) (Nat.zero_le _)
  | object members ih =>
    simp only [wellBound, membersWellBound_iff] at h
    refine nests_listing hP rfl rfl _ (nests_commas (allows_true 0) fun c hc => ?_) pos
    obtain ⟨m, hm, rfl⟩ := List.mem_map.mp (memberSketches_eq _ ▸ hc)
    exact nests_member (fun _ _ _ => trivial)
      ((ih m hm).1 (allows_true 0) (Nat.zero_le _) (h m hm).1.2 (Nat.zero_le _))
      ((ih m hm).2 (allows_true 0) (Nat.zero_le _) (h m hm).2.2 (Nat.zero_le _))

end Expr

end PolicyEditor
