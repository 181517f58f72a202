import PolicyEditor.Proofs.Grammar.OperandCoverage
import PolicyEditor.Proofs.Grammar.OperandShape
import PolicyEditor.Proofs.Tree.Grouping

/-!
Operands and operators are grouped by the levels of their operators. What ends the operators of one
level is a looser operator, a bar, a line break or no operator at all; but for the first, each of
them ends the operators of the levels around it too. So the operator that goes on after an operand
never binds more tightly than the one before it.

Rules serve lists of fewer than `n` items; on longer ones they may stop anywhere, so all that is
said here is said of such lists.
-/

namespace PolicyEditor.Grammar

open PolicyEditor.Tree (BindsFrom Every EveryOf Grouped Terms bare everyOf_map_ofToken)

/-! ### Faces and kinds -/

theorem isBinary_ofToken (k : Token.Kind) : (NodeKind.ofToken k).isBinary = false := by
  cases k <;> rfl

theorem not_binary_of_isOperand {t : Tree} (h : t.face.isOperand = true) :
    t.kind.isBinary = false := by
  cases t with
  | leaf k u =>
    have hbase : (k == .ofToken u.kind && u.kind.isLiteral) = true := h
    show k.isBinary = false
    rw [beq_iff_eq.mp (Bool.and_eq_true_iff.mp hbase).1]
    exact isBinary_ofToken u.kind
  | node k a b cs =>
    have hkind : (k.isComposite || k == .unaryExpression || k == .error) = true := h
    show k.isBinary = false
    cases k <;> first | rfl | cases hkind

theorem ne_unary_of_isBase {t : Tree} (h : t.face.isBase = true) : t.kind ≠ .unaryExpression := by
  cases t with
  | leaf k u =>
    have hbase : (k == .ofToken u.kind && u.kind.isLiteral) = true := h
    show k ≠ .unaryExpression
    rw [beq_iff_eq.mp (Bool.and_eq_true_iff.mp hbase).1]
    cases u.kind <;> exact nofun
  | node k a b cs =>
    have hkind : k.isComposite = true := h
    show k ≠ .unaryExpression
    rintro rfl
    cases hkind

/-! ### Where operators end -/

/-- No operator of the level goes on here. -/
def Halts (s : Scope) (level : Nat) (ts : List Item) : Prop :=
  ∀ i ∈ ts.head?, ∀ b ∈ binding? i.kind,
    b.level < level ∨ (i.kind == .operator .pipe && s.bars) = true ∨ s.stops i = true

structure Climbs (s : Scope) (level : Nat) (p : Parsed) : Prop where
  grouped : Every Grouped p.1
  binds : (bare p.1).BindsFrom level
  halts : Halts s level p.2

structure Climbing (n : Nat) (expr : ExprParser) : Prop where
  covers : ComposesExpr Covers expr
  shapes : YieldsExpr expr
  climbs : ∀ s level ts, ts.length < n → Climbs s level (expr s level ts)

section

variable {n : Nat} {expr : ExprParser} {s : Scope}

theorem Climbing.length_le (h : Climbing n expr) (s : Scope) (level : Nat) (ts : List Item) :
    (expr s level ts).2.length ≤ ts.length :=
  Covers.length_le (h.covers s level ts)

/-! ### Pieces -/

theorem missing_grouped (s : Scope) (ts : List Item) : Every Grouped (missing s ts) := by
  have hnone : EveryOf Grouped [] := trivial
  exact Every.plain rfl hnone _

theorem leaf_grouped (i : Item) : Every Grouped i.leaf :=
  trivial

theorem leaves_grouped (is : List Item) : EveryOf Grouped (is.map Item.leaf) := by
  have hall := everyOf_map_ofToken (P := Grouped) (is.map Item.token)
  rwa [List.map_map] at hall

theorem misplaced_grouped (s : Scope) (is : List Item) : Every Grouped (misplaced s is) :=
  Every.plain rfl (leaves_grouped is) _

theorem expect_grouped (k : Token.Kind) (s : Scope) (ts : List Item) :
    Every Grouped (expect k s ts).1 := by
  cases ts with
  | nil => exact missing_grouped s []
  | cons i rest =>
    rw [expect]
    split
    · trivial
    · exact missing_grouped s (i :: rest)

theorem separated_grouped {one : List Item → Parsed} (hcovers : ComposesOne Covers s.eof one)
    (hone : ∀ ts, ts.length < n → Every Grouped (one ts).1) (closer : Token.Kind) (rounds : Nat)
    {ts : List Item} (hts : ts.length < n) :
    EveryOf Grouped (separated one closer rounds ts).1 := by
  induction rounds generalizing ts with
  | zero => trivial
  | succ rounds ih =>
    cases ts with
    | nil => trivial
    | cons i rest =>
      by_cases hc : i.kind = closer
      · simp only [separated, hc, if_true]
        trivial
      · have hnode := hone (i :: rest) hts
        have hle := Covers.length_le (hcovers (i :: rest))
        rcases hp : one (i :: rest) with ⟨node, after⟩
        rw [hp] at hnode hle
        simp only [separated, hc, if_false, hp]
        cases after with
        | nil => exact ⟨hnode, trivial⟩
        | cons j next =>
          by_cases hj : j.kind = .mark .comma
          · simp only [hj, if_true]
            have hnext : next.length < n := Nat.lt_of_lt_of_le hle (Nat.le_of_lt hts)
            exact ⟨hnode, trivial, ih hnext⟩
          · simp only [hj, if_false]
            exact ⟨hnode, trivial⟩

theorem leaf_ne_assign (i : Item) : i.leaf.kind ≠ .assignExpression := by
  show NodeKind.ofToken i.kind ≠ _
  cases i.kind <;> exact nofun

theorem enclose_ne_assign {k : NodeKind} (hk : k ≠ .assignExpression) (here : Nat)
    (cs : List Tree) : (Tree.enclose k here cs).kind ≠ .assignExpression := hk

theorem expect_ne_assign (k : Token.Kind) (s : Scope) (ts : List Item) :
    (expect k s ts).1.kind ≠ .assignExpression := by
  cases ts with
  | nil => exact enclose_ne_assign (by decide) _ []
  | cons i rest =>
    rw [expect]
    split
    · exact leaf_ne_assign i
    · exact enclose_ne_assign (by decide) _ []

/-- Above the level of assignments an expression is none. -/
theorem Climbing.ne_assign (h : Climbing n expr) (s : Scope) {level : Nat}
    (hlevel : setOpLevel ≤ level) {ts : List Item} (hts : ts.length < n) :
    (expr s level ts).1.kind ≠ .assignExpression :=
  (h.climbs s level ts hts).binds.ne_assign_of_bare hlevel

theorem terms_grouped (h : Climbing n expr) {level : Nat} (hlevel : setOpLevel ≤ level)
    (rounds : Nat) {ts : List Item} (hts : ts.length < n) :
    Terms (terms (expr s level) rounds ts).1 := by
  induction rounds generalizing ts with
  | zero => exact .nil
  | succ rounds ih =>
    have hnode := (h.climbs s level ts hts).grouped
    have hne := h.ne_assign s hlevel hts
    have hle := h.length_le s level ts
    rcases hp : expr s level ts with ⟨node, after⟩
    rw [hp] at hnode hne hle
    simp only [terms, hp]
    cases after with
    | nil => exact .cons hnode hne .nil
    | cons j next =>
      by_cases hj : j.kind = .mark .comma
      · simp only [hj, if_true]
        have hnext : next.length < n := Nat.lt_of_lt_of_le hle (Nat.le_of_lt hts)
        exact .cons hnode hne (.cons (leaf_grouped j) (leaf_ne_assign j) (ih hnext))
      · simp only [hj, if_false]
        exact .cons hnode hne .nil

/-- A collection of what is grouped. -/
theorem collection_grouped {kind : NodeKind} (hkind : kind.groups = false)
    {one : List Item → Parsed} (hcovers : ComposesOne Covers s.eof one)
    (hone : ∀ ts, ts.length < n → Every Grouped (one ts).1) (closer : Token.Kind) (opener : Item)
    {rest : List Item} (hrest : rest.length < n) :
    Every Grouped (Rules.collection kind one closer s opener rest).1 := by
  have hparts := separated_grouped hcovers hone closer rest.length hrest
  have hclose := expect_grouped closer s (separated one closer rest.length rest).2
  have hfront : EveryOf Grouped (opener.leaf :: (separated one closer rest.length rest).1) :=
    ⟨trivial, hparts⟩
  have hlast : EveryOf Grouped [(expect closer s (separated one closer rest.length rest).2).1] :=
    ⟨hclose, trivial⟩
  exact Every.plain hkind (hfront.append hlast) _

theorem arguments_grouped (h : Climbing n expr) (s : Scope) (opener : Item) {rest : List Item}
    (hrest : rest.length < n) : Every Grouped (arguments expr s opener rest).1 :=
  collection_grouped rfl (h.covers s.bracketed assignLevel)
    (fun ts hts => (h.climbs s.bracketed assignLevel ts hts).grouped) (.mark .rparen) opener hrest

theorem index_grouped (h : Climbing n expr) (s : Scope) (opener : Item) {rest : List Item}
    (hrest : rest.length < n) : EveryOf Grouped (index expr s opener rest).1 := by
  have hvalue := h.climbs s.bracketed assignLevel rest hrest
  exact ⟨trivial, hvalue.grouped, expect_grouped _ s _, trivial⟩

theorem member_grouped (s : Scope) (rest : List Item) : Every Grouped (member s rest).1 := by
  cases rest with
  | nil => exact missing_grouped s []
  | cons j next =>
    rw [member]
    split
    · trivial
    · exact missing_grouped s (j :: next)

theorem part_grouped (h : Climbing n expr) {i : Item} {rest : List Item} (hrest : rest.length < n)
    {q : NodeKind × ParsedList} (hpart : part expr s i rest = some q) :
    (q.1 = .refExpression ∨ q.1 = .callExpression) ∧ EveryOf Grouped q.2.1 := by
  unfold part at hpart
  split at hpart
  · cases hpart
  split at hpart
  · cases hpart
    exact ⟨.inl rfl, trivial, member_grouped s rest, trivial⟩
  split at hpart
  · cases hpart
    exact ⟨.inl rfl, index_grouped h s i hrest⟩
  split at hpart
  · cases hpart
    exact ⟨.inr rfl, arguments_grouped h s i hrest, trivial⟩
  · cases hpart

/-- What goes on with a base leaves a base, so no sign and no operator ever stands under it. -/
theorem references_grouped (h : Climbing n expr) (rounds : Nat) {base : Tree}
    (hbase : Yields false Face.isBase base) (hgrouped : Every Grouped base) {ts : List Item}
    (hts : ts.length ≤ n) : Every Grouped (references expr s rounds base ts).1 := by
  -- On the rounds: the node of one round is the base of the next.
  induction rounds generalizing base ts with
  | zero => exact hgrouped
  | succ rounds ih =>
    cases ts with
    | nil => exact hgrouped
    | cons i rest =>
      rcases hpart : part expr s i rest with _ | q
      · rw [references_none hpart]
        exact hgrouped
      · rw [references_some hpart]
        have hrest : rest.length < n := hts
        have hle := Covers.length_le (part_composes h.covers hpart)
        obtain ⟨hkind, hparts⟩ := part_grouped h hrest hpart
        apply ih (part_yields h.shapes hpart hbase)
        · exact Every.overBase hkind hbase.shown
            (not_binary_of_isOperand (Face.isOperand_of_isBase hbase.face))
            (ne_unary_of_isBase hbase.face) ⟨hgrouped, hparts⟩ _
        · omega

theorem unaryWith_grouped {operand : List Item → Parsed}
    (hshapes : YieldsOne Face.isOperand operand)
    (hoperand : ∀ ts, ts.length ≤ n → Every Grouped (operand ts).1) {ts : List Item}
    (hts : ts.length ≤ n) : Every Grouped (unaryWith operand s ts).1 := by
  induction ts with
  | nil => exact hoperand [] hts
  | cons i rest ih =>
    have hoperandOf := unaryWith_yields (s := s) hshapes rest
    rw [unaryWith]
    split
    case isTrue hi =>
      have hkind : i.kind = .operator .minus ∨ i.kind = .operator .bang := by
        simpa using (Bool.and_eq_true_iff.mp hi).1
      have hsign : i.leaf.isTrivia = false := by
        show (NodeKind.ofToken i.kind).isTrivia = false
        rcases hkind with h | h <;> rw [h] <;> rfl
      have hrest : rest.length ≤ n := Nat.le_of_succ_le hts
      exact Every.signed hsign hoperandOf.shown (not_binary_of_isOperand hoperandOf.face)
        ⟨trivial, ih hrest, trivial⟩ _
    case isFalse => exact hoperand (i :: rest) hts

/-- If an operator goes on here, it does not bind more tightly than the operand before it. -/
def Awaits (s : Scope) (left : Tree) (ts : List Item) : Prop :=
  ∀ i ∈ ts.head?, ∀ b ∈ binding? i.kind,
    (i.kind == .operator .pipe && s.bars) = true ∨ s.stops i = true ∨ (bare left).BindsFrom b.level

/-- The node of an operator and its operands. -/
theorem binary_grouped {i : Item} {b : Binding} (hb : binding? i.kind = some b) {left right : Tree}
    (hleft : left.isTrivia = false) (hright : right.isTrivia = false)
    (hlow : (bare left).BindsFrom b.level) (hhigh : (bare right).BindsFrom (b.level + 1))
    (hcs : EveryOf Grouped [left, i.leaf, right]) (here : Nat) :
    Every Grouped (.enclose b.node here [left, i.leaf, right]) ∧
      (bare (.enclose b.node here [left, i.leaf, right])).level? = some b.level ∧
      (Tree.enclose b.node here [left, i.leaf, right]).isTrivia = false := by
  obtain ⟨hkind, hbinary, hfree⟩ := binding_node hb
  have hsign : i.leaf.isTrivia = false := isTrivia_ofToken hkind
  have hchildren : (bare (.enclose b.node here [left, i.leaf, right])).children =
      [bare left, bare i.leaf, bare right] := by
    show Tree.bareList [left, i.leaf, right] = _
    rw [Tree.bareList_cons hleft, Tree.bareList_cons hsign, Tree.bareList_cons hright]
    rfl
  have hlevel : (bare (.enclose b.node here [left, i.leaf, right])).level? = some b.level := by
    rw [Tree.enclose, bare, Tree.bareList_cons hleft, Tree.bareList_cons hsign,
      Tree.bareList_cons hright]
    exact Tree.level?_node hb rfl _ _ _
  obtain ⟨hunary, hbase, hterms, hplain⟩ := NodeKind.of_isBinary hbinary
  refine ⟨Every.enclose ?_ hcs, hlevel, hplain⟩
  have hnode : (bare (.enclose b.node here [left, i.leaf, right])).kind = b.node := rfl
  constructor
  case binary => exact fun _ => ⟨_, _, _, _, hchildren, hlevel, hlow, hhigh⟩
  case unary => rw [hnode]; exact fun h => absurd h hunary
  case base => rw [hnode]; exact fun h => absurd h hbase
  case terms => rw [hnode, hterms]; exact nofun

theorem binaryTail_climbs (h : Climbing n expr) (level rounds : Nat) {left : Tree} {ts : List Item}
    (hrounds : ts.length ≤ rounds) (hts : ts.length ≤ n) (hshown : left.isTrivia = false)
    (hgrouped : Every Grouped left) (hbinds : (bare left).BindsFrom level)
    (hawaits : Awaits s left ts) : Climbs s level (binaryTail expr s level rounds left ts) := by
  -- On the rounds: the operand of the next operator is the node of this one.
  induction rounds generalizing left ts with
  | zero =>
    obtain rfl := List.eq_nil_of_length_eq_zero (Nat.le_zero.mp hrounds)
    exact ⟨hgrouped, hbinds, nofun⟩
  | succ rounds ih =>
    cases ts with
    | nil => exact ⟨hgrouped, hbinds, nofun⟩
    | cons i rest =>
      rw [List.length_cons] at hrounds hts
      rw [binaryTail]
      split
      case h_1 hnone =>
        refine ⟨hgrouped, hbinds, ?_⟩
        rintro _ ⟨⟩ b hb
        rw [hnone] at hb
        cases hb
      case h_2 b hb =>
        split
        case isTrue hstop =>
          refine ⟨hgrouped, hbinds, ?_⟩
          rintro _ ⟨⟩ c hc
          obtain rfl : b = c := Option.some.inj (hb.symm.trans hc)
          simpa [or_assoc] using hstop
        case isFalse hgo =>
          simp only [Bool.or_eq_true, decide_eq_true_eq, not_or] at hgo
          obtain ⟨⟨hlow, hbar⟩, hline⟩ := hgo
          have hright := h.climbs s (b.level + 1) rest (by omega)
          have hrightShown := (h.shapes s (b.level + 1) rest).shown
          have hle := h.length_le s (b.level + 1) rest
          have hleft : (bare left).BindsFrom b.level := by
            rcases hawaits i rfl b hb with hstop | hstop | hleft
            · exact absurd hstop hbar
            · exact absurd hstop hline
            · exact hleft
          obtain ⟨hnode, hlevel, hnodeShown⟩ := binary_grouped hb hshown hrightShown hleft
            hright.binds ⟨hgrouped, trivial, hright.grouped, trivial⟩
            (s.here (expr s (b.level + 1) rest).2)
          apply ih (by omega) (by omega) hnodeShown hnode
          · exact fun _ => ⟨b.level, hlevel, by omega⟩
          -- What ended the right operand ends this round too, unless it is a looser operator.
          · intro j hj c hc
            rcases hright.halts j hj c hc with hlooser | hstop | hstop
            · exact .inr (.inr fun _ => ⟨b.level, hlevel, by omega⟩)
            · exact .inl hstop
            · exact .inr (.inl hstop)

end

end PolicyEditor.Grammar
