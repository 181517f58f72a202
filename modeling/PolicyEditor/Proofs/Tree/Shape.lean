import PolicyEditor.Proofs.Grammar.Pairing

/-!
Shapes of nodes: which children a node of a kind has, in which order, when blanks and comments are
left out. Of a child only its face counts: the token of a leaf, the kind of any other node and
whether it holds anything.
-/

namespace PolicyEditor

namespace NodeKind

def isBinary : NodeKind → Bool
  | .assignExpression | .setOpExpression | .compareExpression | .arithExpression => true
  | _ => false

/-- What references and arguments can follow, if it is more than one token. -/
def isComposite : NodeKind → Bool
  | .parenExpression | .callExpression | .refExpression => true
  | .array | .set | .object | .body => true
  | .arrayComprehension | .setComprehension | .objectComprehension => true
  | _ => false

/-- Nodes whose children have no fixed places. -/
def isFree : NodeKind → Bool
  | .script | .packageDeclaration | .importStatement | .rule | .ruleHead | .elseClause => true
  | .body | .someDeclaration | .everyExpression | .error => true
  | _ => false

/-- Nodes that give a path a name of its own: a reference right under them is a declared path. -/
def declares : NodeKind → Bool
  | .packageDeclaration | .importStatement => true
  | _ => false

end NodeKind

/-- What a parent sees of a child. -/
inductive Face where
  | leaf (kind : NodeKind) (token : Token)
  | node (kind : NodeKind) (empty : Bool)
  deriving DecidableEq

namespace Face

/-- An error node without children stands for a piece that is missing. -/
def missing : Face := .node .error true

def isToken (k : Token.Kind) : Face → Bool
  | .leaf l t => l == .ofToken k && t.kind == k
  | .node _ _ => false

/-- A token of this kind, or the placeholder for it. -/
def isExpected (k : Token.Kind) (f : Face) : Bool :=
  f.isToken k || f == missing

def isName : Face → Bool
  | .leaf k t => k == .identifier && t.kind.isName
  | .node _ _ => false

/-- What references and arguments can follow. -/
def isBase : Face → Bool
  | .leaf k t => k == .ofToken t.kind && t.kind.isLiteral
  | .node k _ => k.isComposite

/-- An operand with or without a sign; what is missing or misplaced stands for one. -/
def isOperand : Face → Bool
  | .leaf k t => isBase (.leaf k t)
  | .node k _ => k.isComposite || k == .unaryExpression || k == .error

/-- An expression at a level: no binary operator stands beyond the last level of these. -/
def isExprAt (level : Nat) : Face → Bool
  | .leaf k t => isBase (.leaf k t)
  | .node k e => isOperand (.node k e) || (level < Grammar.unaryLevel && k.isBinary)

def isExpr : Face → Bool :=
  isExprAt Grammar.assignLevel

def isNode (kind : NodeKind) : Face → Bool
  | .leaf _ _ => false
  | .node k e => k == kind && !e

def isClause (f : Face) : Bool :=
  f.isExpr || f.isNode .someDeclaration || f.isNode .everyExpression || f.isNode .negation

def isLevel : Face → Bool
  | .leaf _ t => Grammar.isPlain t.kind
  | .node _ _ => true

end Face

/-! ### The shape of each kind -/

/-- Items with commas between; a comma may stand last. -/
inductive Separated (item : Face → Bool) : List Face → Prop where
  | nil : Separated item []
  | last {f : Face} : item f = true → Separated item [f]
  | cons {f comma : Face} {fs : List Face} : item f = true → comma.isToken (.mark .comma) = true →
      Separated item fs → Separated item (f :: comma :: fs)

structure Enclosure where
  opener : Mark
  closer : Mark
  item : Face → Bool

def NodeKind.collection? : NodeKind → Option Enclosure
  | .array => some ⟨.lbracket, .rbracket, Face.isExpr⟩
  | .set => some ⟨.lbrace, .rbrace, Face.isExpr⟩
  | .object => some ⟨.lbrace, .rbrace, Face.isNode .objectItem⟩
  | .argumentList => some ⟨.lparen, .rparen, Face.isExpr⟩
  | _ => none

def NodeKind.comprehension? : NodeKind → Option Enclosure
  | .arrayComprehension => some ⟨.lbracket, .rbracket, Face.isExpr⟩
  | .setComprehension => some ⟨.lbrace, .rbrace, Face.isExpr⟩
  | .objectComprehension => some ⟨.lbrace, .rbrace, Face.isNode .objectItem⟩
  | _ => none

/-- The children that a node of a kind can have, blanks and comments left out. A declared path is a
reference too, but of another shape. -/
inductive Shape : NodeKind → List Face → Prop where
  | binary {left sign right : Face} {k : Token.Kind} {b : Grammar.Binding} :
      left.isExpr = true → Grammar.binding? k = some b → sign.isToken k = true →
      right.isExpr = true → Shape b.node [left, sign, right]
  | unary {sign operand : Face} {k : Token.Kind} : k = .operator .minus ∨ k = .operator .bang →
      sign.isToken k = true → operand.isOperand = true → Shape .unaryExpression [sign, operand]
  | paren {opener value closer : Face} : opener.isToken (.mark .lparen) = true →
      value.isExpr = true → closer.isExpected (.mark .rparen) = true →
      Shape .parenExpression [opener, value, closer]
  | call {callee arguments : Face} : callee.isBase = true →
      arguments.isNode .argumentList = true → Shape .callExpression [callee, arguments]
  | member {base dot name : Face} : base.isBase = true → dot.isToken (.mark .dot) = true →
      name.isName = true ∨ name = .missing → Shape .refExpression [base, dot, name]
  | index {base opener value closer : Face} : base.isBase = true →
      opener.isToken (.mark .lbracket) = true → value.isExpr = true →
      closer.isExpected (.mark .rbracket) = true →
      Shape .refExpression [base, opener, value, closer]
  | objectItem {key colon value : Face} : key.isExpr = true →
      colon.isExpected (.mark .colon) = true → value.isExpr = true →
      Shape .objectItem [key, colon, value]
  | collection {k : NodeKind} {e : Enclosure} {opener closer : Face} {parts : List Face} :
      k.collection? = some e → opener.isToken (.mark e.opener) = true → Separated e.item parts →
      closer.isExpected (.mark e.closer) = true → Shape k (opener :: parts ++ [closer])
  | comprehension {k : NodeKind} {e : Enclosure} {opener head bar closer : Face} {empty : Bool} :
      k.comprehension? = some e → opener.isToken (.mark e.opener) = true → e.item head = true →
      bar.isExpected (.operator .pipe) = true → closer.isExpected (.mark e.closer) = true →
      Shape k [opener, head, bar, .node .body empty, closer]
  | withModifier {word target as value : Face} : word.isToken (.keyword .withKw) = true →
      target.isOperand = true → as.isExpected (.keyword .asKw) = true → value.isExpr = true →
      Shape .withModifier [word, target, as, value]
  | negation {word value : Face} : word.isToken (.keyword .notKw) = true → value.isExpr = true →
      Shape .negation [word, value]
  | statement {clause : Face} {modifiers : List Face} : clause.isClause = true →
      (∀ m ∈ modifiers, m.isNode .withModifier = true) → Shape .statement (clause :: modifiers)
  | free {k : NodeKind} {fs : List Face} : k.isFree = true → Shape k fs

/-! ### Brackets among the children -/

def Token.Kind.counterpart? : Token.Kind → Option Token.Kind
  | .mark .lparen => some (.mark .rparen)
  | .mark .lbracket => some (.mark .rbracket)
  | .mark .lbrace => some (.mark .rbrace)
  | _ => none

/-- Children whose brackets follow each other in pairs: each opening one is closed by its
counterpart or by the placeholder for it. The first argument is the bracket that is open. -/
inductive Bracketed : Option Token → List Face → Prop where
  | nil : Bracketed none []
  | level {o : Option Token} {f : Face} {fs : List Face} : f.isLevel = true → Bracketed o fs →
      Bracketed o (f :: fs)
  | opener {k : NodeKind} {t : Token} {fs : List Face} : t.kind.isOpener = true →
      Bracketed (some t) fs → Bracketed none (.leaf k t :: fs)
  | closer {k : NodeKind} {o t : Token} {fs : List Face} :
      o.kind.counterpart? = some t.kind → Bracketed none fs → Bracketed (some o) (.leaf k t :: fs)
  | missing {o : Token} {fs : List Face} : Bracketed none fs →
      Bracketed (some o) (.missing :: fs)

theorem isOpener_of_counterpart? {k l : Token.Kind} (h : k.counterpart? = some l) :
    k.isOpener = true := by
  unfold Token.Kind.counterpart? at h
  split at h <;> first | rfl | cases h

namespace Face

variable {f : Face} {k : Token.Kind}

theorem isToken_iff : f.isToken k = true ↔ ∃ t, f = .leaf (.ofToken k) t ∧ t.kind = k := by
  cases f with
  | leaf l t =>
    simp only [isToken, Bool.and_eq_true, beq_iff_eq, leaf.injEq]
    constructor
    · exact fun h => ⟨t, ⟨h.1, rfl⟩, h.2⟩
    · rintro ⟨_, ⟨hl, rfl⟩, ht⟩
      exact ⟨hl, ht⟩
  | node => simp only [isToken, Bool.false_eq_true, reduceCtorEq, false_and, exists_false]

theorem isExpected_iff : f.isExpected k = true ↔ f.isToken k = true ∨ f = missing := by
  simp only [isExpected, Bool.or_eq_true, beq_iff_eq]

theorem isLevel_of_isToken (hk : Grammar.isPlain k = true) (h : f.isToken k = true) :
    f.isLevel = true := by
  obtain ⟨t, rfl, rfl⟩ := isToken_iff.mp h
  exact hk

theorem isLevel_of_isExpected (hk : Grammar.isPlain k = true) (h : f.isExpected k = true) :
    f.isLevel = true := by
  rcases isExpected_iff.mp h with h | rfl
  · exact isLevel_of_isToken hk h
  · rfl

theorem isLevel_of_isBase (h : f.isBase = true) : f.isLevel = true := by
  cases f with
  | leaf l t => exact Grammar.isPlain_of_isLiteral (Bool.and_eq_true_iff.mp h).2
  | node => rfl

theorem isLevel_of_isOperand (h : f.isOperand = true) : f.isLevel = true := by
  cases f with
  | leaf l t => exact isLevel_of_isBase h
  | node => rfl

theorem isLevel_of_isExpr (h : f.isExpr = true) : f.isLevel = true := by
  cases f with
  | leaf l t => exact isLevel_of_isBase h
  | node => rfl

theorem isLevel_of_isNode {kind : NodeKind} (h : f.isNode kind = true) : f.isLevel = true := by
  cases f with
  | leaf => cases h
  | node => rfl

theorem isLevel_of_isClause (h : f.isClause = true) : f.isLevel = true := by
  cases f with
  | leaf l t =>
    have hexpr : isExpr (.leaf l t) = true := by simpa [isClause, isNode] using h
    exact isLevel_of_isExpr hexpr
  | node => rfl

theorem isLevel_of_isName (h : f.isName = true) : f.isLevel = true := by
  cases f with
  | leaf l t => exact Grammar.isPlain_of_isName (Bool.and_eq_true_iff.mp h).2
  | node => cases h

end Face

namespace Bracketed

variable {o : Option Token} {fs gs : List Face}

theorem append (h : Bracketed o fs) (h' : Bracketed none gs) : Bracketed o (fs ++ gs) := by
  induction h with
  | nil => exact h'
  | level hf _ ih => exact .level hf ih
  | opener ht _ ih => exact .opener ht ih
  | closer ht _ ih => exact .closer ht ih
  | missing _ ih => exact .missing ih

theorem level_append (h : ∀ f ∈ fs, f.isLevel = true) (h' : Bracketed o gs) :
    Bracketed o (fs ++ gs) := by
  induction fs with
  | nil => exact h'
  | cons f fs ih =>
    obtain ⟨hf, hfs⟩ := List.forall_mem_cons.mp h
    exact .level hf (ih hfs)

theorem of_level (h : ∀ f ∈ fs, f.isLevel = true) : Bracketed none fs := by
  have hall := level_append h nil
  rwa [List.append_nil] at hall

/-- A bracket, what it holds, and its counterpart or the placeholder for it. -/
theorem group (fs : List Face) {opener closer : Face} {m n : Token.Kind} (hm : m.counterpart? = some n)
    (hopener : opener.isToken m = true) (hfs : ∀ f ∈ fs, f.isLevel = true)
    (hcloser : closer.isExpected n = true) : Bracketed none (opener :: fs ++ [closer]) := by
  obtain ⟨t, rfl, rfl⟩ := Face.isToken_iff.mp hopener
  apply Bracketed.opener (isOpener_of_counterpart? hm)
  apply level_append hfs
  rcases Face.isExpected_iff.mp hcloser with h | rfl
  · obtain ⟨u, rfl, rfl⟩ := Face.isToken_iff.mp h
    exact .closer hm .nil
  · exact .missing .nil

end Bracketed

namespace NodeKind

variable {k : NodeKind} {e : Enclosure}

theorem enclosure_of_collection? (h : k.collection? = some e) :
    (Token.Kind.mark e.opener).counterpart? = some (.mark e.closer) ∧
      ∀ f, e.item f = true → f.isLevel = true := by
  unfold collection? at h
  split at h <;> cases h
  · exact ⟨rfl, fun _ => Face.isLevel_of_isExpr⟩
  · exact ⟨rfl, fun _ => Face.isLevel_of_isExpr⟩
  · exact ⟨rfl, fun _ => Face.isLevel_of_isNode⟩
  · exact ⟨rfl, fun _ => Face.isLevel_of_isExpr⟩

theorem enclosure_of_comprehension? (h : k.comprehension? = some e) :
    (Token.Kind.mark e.opener).counterpart? = some (.mark e.closer) ∧
      ∀ f, e.item f = true → f.isLevel = true := by
  unfold comprehension? at h
  split at h <;> cases h
  · exact ⟨rfl, fun _ => Face.isLevel_of_isExpr⟩
  · exact ⟨rfl, fun _ => Face.isLevel_of_isExpr⟩
  · exact ⟨rfl, fun _ => Face.isLevel_of_isNode⟩

end NodeKind

theorem Separated.isLevel {item : Face → Bool} (hitem : ∀ f, item f = true → f.isLevel = true)
    {fs : List Face} (h : Separated item fs) : ∀ f ∈ fs, f.isLevel = true := by
  induction h with
  | nil => exact List.forall_mem_nil _
  | last hf => simpa using hitem _ hf
  | cons hf hcomma _ ih =>
    have hlevel := Face.isLevel_of_isToken rfl hcomma
    exact List.forall_mem_cons.mpr ⟨hitem _ hf, List.forall_mem_cons.mpr ⟨hlevel, ih⟩⟩

/-- Where the children have fixed places their brackets come in pairs. -/
theorem Shape.bracketed {k : NodeKind} {fs : List Face} (h : Shape k fs) (hk : k.isFree = false) :
    Bracketed none fs := by
  cases h with
  | binary hleft hbinding hsign hright =>
    have hplain := Face.isLevel_of_isToken (Grammar.isPlain_of_binding hbinding) hsign
    exact .level (Face.isLevel_of_isExpr hleft) (.level hplain
      (.level (Face.isLevel_of_isExpr hright) .nil))
  | unary hkind hsign hoperand =>
    have hplain := Face.isLevel_of_isToken (by rcases hkind with rfl | rfl <;> rfl) hsign
    exact .level hplain (.level (Face.isLevel_of_isOperand hoperand) .nil)
  | @paren opener value closer hopener hvalue hcloser =>
    exact Bracketed.group [value] rfl hopener
      (by simpa using Face.isLevel_of_isExpr hvalue) hcloser
  | call hcallee harguments =>
    exact .level (Face.isLevel_of_isBase hcallee) (.level (Face.isLevel_of_isNode harguments) .nil)
  | member hbase hdot hname =>
    have hplain := Face.isLevel_of_isToken rfl hdot
    have hlevel := hname.elim Face.isLevel_of_isName fun h => by rw [h]; rfl
    exact .level (Face.isLevel_of_isBase hbase) (.level hplain (.level hlevel .nil))
  | @index base opener value closer hbase hopener hvalue hcloser =>
    exact .level (Face.isLevel_of_isBase hbase) (Bracketed.group [value] rfl hopener
      (by simpa using Face.isLevel_of_isExpr hvalue) hcloser)
  | objectItem hkey hcolon hvalue =>
    have hplain := Face.isLevel_of_isExpected rfl hcolon
    exact .level (Face.isLevel_of_isExpr hkey) (.level hplain
      (.level (Face.isLevel_of_isExpr hvalue) .nil))
  | collection he hopener hparts hcloser =>
    obtain ⟨hcounterpart, hitem⟩ := NodeKind.enclosure_of_collection? he
    exact .group _ hcounterpart hopener (hparts.isLevel hitem) hcloser
  | @comprehension _ e opener head bar closer empty he hopener hhead hbar hcloser =>
    obtain ⟨hcounterpart, hitem⟩ := NodeKind.enclosure_of_comprehension? he
    refine Bracketed.group [head, bar, .node .body empty] hcounterpart hopener ?_ hcloser
    have hplain := Face.isLevel_of_isExpected rfl hbar
    simp only [List.forall_mem_cons, hitem head hhead, hplain]
    exact ⟨trivial, trivial, rfl, List.forall_mem_nil _⟩
  | withModifier hword htarget has hvalue =>
    exact .level (Face.isLevel_of_isToken rfl hword) (.level (Face.isLevel_of_isOperand htarget)
      (.level (Face.isLevel_of_isExpected rfl has) (.level (Face.isLevel_of_isExpr hvalue) .nil)))
  | negation hword hvalue =>
    exact .level (Face.isLevel_of_isToken rfl hword) (.level (Face.isLevel_of_isExpr hvalue) .nil)
  | statement hclause hmodifiers =>
    exact .level (Face.isLevel_of_isClause hclause)
      (.of_level fun m hm => Face.isLevel_of_isNode (hmodifiers m hm))
  | free h => rw [h] at hk; cases hk

theorem Shape.not_trivia {k : NodeKind} {fs : List Face} (h : Shape k fs) : k.isTrivia = false := by
  cases h with
  | binary _ hk _ _ =>
    unfold Grammar.binding? at hk
    split at hk <;> cases hk <;> rfl
  | collection he _ _ _ =>
    unfold NodeKind.collection? at he
    split at he <;> first | rfl | cases he
  | comprehension he _ _ _ _ =>
    unfold NodeKind.comprehension? at he
    split at he <;> first | rfl | cases he
  | free h =>
    unfold NodeKind.isFree at h
    split at h <;> first | rfl | cases h
  | _ => rfl

end PolicyEditor
