import PolicyEditor.Proofs.Tree.Formed
import PolicyEditor.Proofs.Tree.Heading

/-!
How operators group. Every binary node takes on its left operators that bind at least as tightly as
its own and on its right only tighter ones, signs stand over operands alone, references and calls
over neither, and some nodes hold no assignment. All of it can be said node by node, blanks and
comments left out.
-/

namespace PolicyEditor

namespace NodeKind

def takesNoAssignment : NodeKind → Bool
  | .objectItem | .rule | .elseClause => true
  | .someDeclaration | .everyExpression | .withModifier => true
  | _ => false

def groups (k : NodeKind) : Bool :=
  k.isBinary || k == .unaryExpression || k == .refExpression || k == .callExpression ||
    k.takesNoAssignment

theorem of_takesNoAssignment {k : NodeKind} (h : k.takesNoAssignment = true) :
    k.isBinary = false ∧ k ≠ .unaryExpression ∧ ¬ (k = .refExpression ∨ k = .callExpression) := by
  unfold takesNoAssignment at h
  split at h <;> first | exact ⟨rfl, nofun, nofun⟩ | cases h

theorem of_isBinary {k : NodeKind} (h : k.isBinary = true) :
    k ≠ .unaryExpression ∧ ¬ (k = .refExpression ∨ k = .callExpression) ∧
      k.takesNoAssignment = false ∧ k.isTrivia = false := by
  unfold isBinary at h
  split at h <;> first | exact ⟨nofun, nofun, rfl, rfl⟩ | cases h

end NodeKind

namespace Tree

open PolicyEditor.Grammar (Binding binding?)

def level? (t : Tree) : Option Nat :=
  match t.children with
  | [_, sign, _] =>
    (sign.token?.bind fun u => (binding? u.kind).filter fun b => b.node == t.kind).map Binding.level
  | _ => none

/-- No binary node, or one whose operator binds at least as tightly as a level. -/
def BindsFrom (level : Nat) (t : Tree) : Prop :=
  t.kind.isBinary = true → ∃ l, t.level? = some l ∧ level ≤ l

/-- The children of a node are grouped as the levels of the operators say. -/
structure Grouped (t : Tree) : Prop where
  binary : t.kind.isBinary = true → ∃ left sign right level, t.children = [left, sign, right] ∧
    t.level? = some level ∧ left.BindsFrom level ∧ right.BindsFrom (level + 1)
  unary : t.kind = .unaryExpression → ∃ sign operand, t.children = [sign, operand] ∧
    operand.kind.isBinary = false
  base : t.kind = .refExpression ∨ t.kind = .callExpression → ∃ base others,
    t.children = base :: others ∧ base.kind.isBinary = false ∧ base.kind ≠ .unaryExpression
  terms : t.kind.takesNoAssignment = true → ∀ c ∈ t.children, c.kind ≠ .assignExpression

/-! ### Levels -/

theorem bindsFrom_of_not_binary {t : Tree} (h : t.kind.isBinary = false) (level : Nat) :
    t.BindsFrom level := by
  intro hbinary
  rw [h] at hbinary
  cases hbinary

theorem assignLevel_of_binding {k : Token.Kind} {b : Binding} (h : binding? k = some b)
    (hnode : b.node = .assignExpression) : b.level = Grammar.assignLevel := by
  unfold binding? at h
  split at h <;> cases h <;> first | rfl | cases hnode

/-- Above the level of assignments there are none. -/
theorem BindsFrom.ne_assign {level : Nat} {t : Tree} (h : t.BindsFrom level)
    (hlevel : Grammar.setOpLevel ≤ level) : t.kind ≠ .assignExpression := by
  intro hkind
  obtain ⟨l, hl, hle⟩ := h (by rw [hkind]; rfl)
  unfold level? at hl
  split at hl
  · obtain ⟨b, hb, rfl⟩ := Option.map_eq_some_iff.mp hl
    obtain ⟨u, -, hu⟩ := Option.bind_eq_some_iff.mp hb
    obtain ⟨hbinding, hnode⟩ := Option.filter_eq_some_iff.mp hu
    have hsame : b.node = .assignExpression := (beq_iff_eq.mp hnode).trans hkind
    have hone := assignLevel_of_binding hbinding hsame
    unfold Grammar.assignLevel at hone
    unfold Grammar.setOpLevel at hlevel
    omega
  · cases hl

/-! ### Bare trees -/

theorem BindsFrom.ne_assign_of_bare {level : Nat} {t : Tree} (h : t.bare.BindsFrom level)
    (hlevel : Grammar.setOpLevel ≤ level) : t.kind ≠ .assignExpression :=
  kind_bare t ▸ h.ne_assign hlevel

/-- The children of a bare node are those of the node. -/
theorem exists_of_mem_bareList {c : Tree} : ∀ {cs : List Tree}, c ∈ bareList cs →
    ∃ d ∈ cs, c = bare d
  | [], h => absurd h List.not_mem_nil
  | d :: ds, h => by
    rw [bareList] at h
    split at h
    · obtain ⟨e, he, heq⟩ := exists_of_mem_bareList h
      exact ⟨e, List.mem_cons_of_mem _ he, heq⟩
    · rcases List.mem_cons.mp h with rfl | h
      · exact ⟨d, List.mem_cons_self, rfl⟩
      · obtain ⟨e, he, heq⟩ := exists_of_mem_bareList h
        exact ⟨e, List.mem_cons_of_mem _ he, heq⟩

theorem level?_node {k : Token.Kind} {b : Binding} (hb : binding? k = some b) {sign : Token}
    (hsign : sign.kind = k) (kind : NodeKind) {left right : Tree} (start stop : Nat) :
    level? (.node b.node start stop [left, .leaf kind sign, right]) = some b.level := by
  subst hsign
  simp only [level?, children, token?, Option.bind_some, hb]
  rw [Option.filter_some_pos (by exact beq_self_eq_true b.node)]
  rfl

/-! ### Nodes -/

theorem grouped_of_plain {t : Tree} (h : t.kind.groups = false) : Grouped t := by
  simp only [NodeKind.groups, Bool.or_eq_false_iff, beq_eq_false_iff_ne] at h
  obtain ⟨⟨⟨⟨hbinary, hunary⟩, href⟩, hcall⟩, hterms⟩ := h
  constructor
  case binary => rw [hbinary]; exact nofun
  case unary => exact fun heq => absurd heq hunary
  case base =>
    rintro (heq | heq)
    · exact absurd heq href
    · exact absurd heq hcall
  case terms => rw [hterms]; exact nofun

/-- A node over no operands holds whatever is grouped. -/
theorem Every.plain {k : NodeKind} (hk : k.groups = false) {cs : List Tree}
    (hcs : EveryOf Grouped cs) (here : Nat) : Every Grouped (.enclose k here cs) :=
  Every.enclose (grouped_of_plain hk) hcs

/-- Grouped nodes of which none is an assignment. -/
structure Terms (cs : List Tree) : Prop where
  grouped : EveryOf Grouped cs
  ne_assign : ∀ c ∈ cs, c.kind ≠ .assignExpression

theorem Terms.nil : Terms [] :=
  ⟨trivial, List.forall_mem_nil _⟩

theorem Terms.cons {c : Tree} (hc : Every Grouped c) (hne : c.kind ≠ .assignExpression)
    {cs : List Tree} (hcs : Terms cs) : Terms (c :: cs) :=
  ⟨⟨hc, hcs.grouped⟩, List.forall_mem_cons.mpr ⟨hne, hcs.ne_assign⟩⟩

theorem Terms.append {cs ds : List Tree} (hcs : Terms cs) (hds : Terms ds) : Terms (cs ++ ds) :=
  ⟨hcs.grouped.append hds.grouped, List.forall_mem_append.mpr ⟨hcs.ne_assign, hds.ne_assign⟩⟩

/-- A node that holds no assignment. -/
theorem Every.terms {k : NodeKind} (hk : k.takesNoAssignment = true) {cs : List Tree}
    (h : Terms cs) (here : Nat) : Every Grouped (.enclose k here cs) := by
  apply Every.enclose _ h.grouped
  have hkind : (bare (.enclose k here cs)).kind = k := rfl
  obtain ⟨hbinary, hunary, hbase⟩ := NodeKind.of_takesNoAssignment hk
  constructor
  case binary => rw [hkind, hbinary]; exact nofun
  case unary => rw [hkind]; exact fun h => absurd h hunary
  case base => rw [hkind]; exact fun h => absurd h hbase
  case terms =>
    intro _ c hc
    have hmem : c ∈ bareList cs := hc
    obtain ⟨d, hd, rfl⟩ := exists_of_mem_bareList hmem
    rw [kind_bare]
    exact h.ne_assign d hd

/-- A reference or a call over a base. -/
theorem Every.overBase {k : NodeKind} (hk : k = .refExpression ∨ k = .callExpression) {base : Tree}
    (hshown : base.isTrivia = false) (hbinary : base.kind.isBinary = false)
    (hunary : base.kind ≠ .unaryExpression) {cs : List Tree} (hcs : EveryOf Grouped (base :: cs))
    (here : Nat) : Every Grouped (.enclose k here (base :: cs)) := by
  apply Every.enclose _ hcs
  have hkind : (bare (.enclose k here (base :: cs))).kind = k := rfl
  constructor
  case binary => rw [hkind]; rcases hk with rfl | rfl <;> exact nofun
  case unary => rw [hkind]; rcases hk with rfl | rfl <;> exact nofun
  case base =>
    intro _
    refine ⟨bare base, bareList cs, bareList_cons hshown cs, ?_, ?_⟩
    · rw [kind_bare]
      exact hbinary
    · rw [kind_bare]
      exact hunary
  case terms => rw [hkind]; rcases hk with rfl | rfl <;> exact nofun

/-- A sign over an operand. -/
theorem Every.signed {sign operand : Tree} (hsign : sign.isTrivia = false)
    (hshown : operand.isTrivia = false) (hbinary : operand.kind.isBinary = false)
    (hcs : EveryOf Grouped [sign, operand]) (here : Nat) :
    Every Grouped (.enclose .unaryExpression here [sign, operand]) := by
  apply Every.enclose _ hcs
  constructor
  case binary => exact nofun
  case unary =>
    intro _
    refine ⟨bare sign, bare operand, ?_, ?_⟩
    · show bareList [sign, operand] = _
      rw [bareList_cons hsign, bareList_cons hshown]
      rfl
    · rw [kind_bare]
      exact hbinary
  case base => exact nofun
  case terms => exact nofun

end Tree

end PolicyEditor
