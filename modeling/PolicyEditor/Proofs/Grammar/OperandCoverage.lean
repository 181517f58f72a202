import PolicyEditor.Grammar.Expression
import PolicyEditor.Proofs.Tree.Reading

/-!
What the pieces of the grammar make is put together from few parts: leaves of items one after
another, and nodes over what was made so far. Whatever holds of these parts and of what is put
together from them holds of every piece. Covering is such a property: the nodes that a rule makes
and the items that it leaves account for every item it was given, once and in order.
-/

namespace PolicyEditor

/-- Nodes that begin with the name under which something is declared. No expression or statement
holds one. -/
def NodeKind.isHeading : NodeKind → Bool
  | .packageDeclaration | .importStatement | .ruleHead => true
  | _ => false

namespace Grammar

open PolicyEditor.Tree (Reads startOf)

/-- What can be said of a rule: the end of the text, the items it is given, the nodes it makes and
the items it leaves. -/
abbrev Account :=
  (eof : Nat) → List Item → List Tree → List Item → Prop

/-- What holds of the parts that expressions and statements are made of, and of what is put together
from them. -/
class Composes (C : Account) : Prop where
  nil {eof : Nat} (ts : List Item) : C eof ts [] ts
  leaf {eof : Nat} {ts rest : List Item} {cs : List Tree} (i : Item) : C eof ts cs rest →
    C eof (i :: ts) (i.leaf :: cs) rest
  nameLeaf {eof : Nat} {ts rest : List Item} {cs : List Tree} (i : Item) : C eof ts cs rest →
    C eof (i :: ts) (i.nameLeaf :: cs) rest
  append {eof : Nat} {ts mid rest : List Item} {cs ds : List Tree} : C eof ts cs mid →
    C eof mid ds rest → C eof ts (cs ++ ds) rest
  enclose {s : Scope} {ts rest : List Item} {cs : List Tree} (k : NodeKind) :
    k.isHeading = false → C s.eof ts cs rest → C s.eof ts [.enclose k (s.here rest) cs] rest
  /-- What line breaks mean before the first item plays no part. -/
  settled {eof : Nat} {ts rest : List Item} {cs : List Tree} : C eof (settle ts) cs rest →
    C eof ts cs rest

def Covers (eof : Nat) (ts : List Item) (nodes : List Tree) (rest : List Item) : Prop :=
  Reads eof (ts.map Item.token) nodes (rest.map Item.token)

theorem here_eq_startOf (s : Scope) (ts : List Item) :
    s.here ts = startOf s.eof (ts.map Item.token) := by
  cases ts <;> rfl

theorem length_settle (ts : List Item) : (settle ts).length = ts.length := by
  cases ts <;> rfl

theorem settle_tokens (ts : List Item) : (settle ts).map Item.token = ts.map Item.token := by
  cases ts <;> rfl

namespace Covers

variable {eof : Nat} {ts mid rest : List Item} {cs ds : List Tree}

theorem nil (ts : List Item) : Covers eof ts [] ts :=
  Reads.nil _

theorem leaf (i : Item) (h : Covers eof ts cs rest) : Covers eof (i :: ts) (i.leaf :: cs) rest :=
  Reads.leaf _ _ h

theorem nameLeaf (i : Item) (h : Covers eof ts cs rest) :
    Covers eof (i :: ts) (i.nameLeaf :: cs) rest :=
  Reads.leaf _ _ h

theorem append (h : Covers eof ts cs mid) (h' : Covers eof mid ds rest) :
    Covers eof ts (cs ++ ds) rest :=
  Reads.append h h'

theorem enclose {s : Scope} (k : NodeKind) (h : Covers s.eof ts cs rest) :
    Covers s.eof ts [.enclose k (s.here rest) cs] rest := by
  rw [here_eq_startOf]
  exact Reads.enclosed k h

/-- The items of a statement are those of the text, whatever their line breaks mean. -/
theorem settled (h : Covers eof (settle ts) cs rest) : Covers eof ts cs rest := by
  rwa [Covers, settle_tokens] at h

theorem length_le (h : Covers eof ts cs rest) : rest.length ≤ ts.length := by
  have hle := Reads.length_le h
  rwa [List.length_map, List.length_map] at hle

end Covers

instance : Composes Covers where
  nil := .nil
  leaf := .leaf
  nameLeaf := .nameLeaf
  append := .append
  enclose k _ := .enclose k
  settled := .settled

open Composes (nil leaf nameLeaf append enclose settled)

variable {C : Account} [Composes C]

theorem missing_composes (s : Scope) (ts : List Item) : C s.eof ts [missing s ts] ts :=
  enclose .error rfl (nil ts)

theorem leaves_compose (eof : Nat) (is rest : List Item) :
    C eof (is ++ rest) (is.map Item.leaf) rest := by
  induction is with
  | nil => exact nil rest
  | cons i is ih => exact leaf i ih

theorem misplaced_composes (s : Scope) (i : Item) (is rest : List Item) :
    C s.eof (i :: is ++ rest) [misplaced s (i :: is)] rest :=
  enclose .error rfl (leaves_compose s.eof (i :: is) rest)

theorem expect_composes (kind : Token.Kind) (s : Scope) (ts : List Item) :
    C s.eof ts [(expect kind s ts).1] (expect kind s ts).2 := by
  cases ts with
  | nil => exact missing_composes s []
  | cons i rest =>
    by_cases h : i.kind = kind
    · simp only [expect, h, if_true]
      exact leaf i (nil rest)
    · simp only [expect, h, if_false]
      exact missing_composes s (i :: rest)

theorem expect_length_le (k : Token.Kind) (s : Scope) (ts : List Item) :
    (expect k s ts).2.length ≤ ts.length :=
  Covers.length_le (expect_composes (C := Covers) k s ts)

def ComposesOne (C : Account) (eof : Nat) (rule : List Item → Parsed) : Prop :=
  ∀ ts, C eof ts [(rule ts).1] (rule ts).2

theorem separated_composes {eof : Nat} {one : List Item → Parsed} (hone : ComposesOne C eof one)
    (closer : Token.Kind) (rounds : Nat) (ts : List Item) :
    C eof ts (separated one closer rounds ts).1 (separated one closer rounds ts).2 := by
  induction rounds generalizing ts with
  | zero => exact nil ts
  | succ rounds ih =>
    cases ts with
    | nil => exact nil []
    | cons i rest =>
      by_cases hc : i.kind = closer
      · simp only [separated, hc, if_true]
        exact nil (i :: rest)
      · have hnode := hone (i :: rest)
        rcases hp : one (i :: rest) with ⟨node, after⟩
        rw [hp] at hnode
        simp only [separated, hc, if_false, hp]
        cases after with
        | nil => exact hnode
        | cons j next =>
          by_cases hj : j.kind = .mark .comma
          · simp only [hj, if_true]
            exact append hnode (leaf j (ih next))
          · simp only [hj, if_false]
            exact hnode

theorem terms_composes {eof : Nat} {one : List Item → Parsed} (hone : ComposesOne C eof one)
    (rounds : Nat) (ts : List Item) :
    C eof ts (terms one rounds ts).1 (terms one rounds ts).2 := by
  induction rounds generalizing ts with
  | zero => exact nil ts
  | succ rounds ih =>
    have hnode := hone ts
    rcases hp : one ts with ⟨node, after⟩
    rw [hp] at hnode
    simp only [terms, hp]
    cases after with
    | nil => exact hnode
    | cons j next =>
      by_cases hj : j.kind = .mark .comma
      · simp only [hj, if_true]
        exact append hnode (leaf j (ih next))
      · simp only [hj, if_false]
        exact hnode

def ComposesExpr (C : Account) (expr : ExprParser) : Prop :=
  ∀ s level, ComposesOne C s.eof (expr s level)

theorem arguments_composes {expr : ExprParser} (hexpr : ComposesExpr C expr) (s : Scope)
    (opener : Item) (rest : List Item) :
    C s.eof (opener :: rest) [(arguments expr s opener rest).1]
      (arguments expr s opener rest).2 := by
  have hargs := separated_composes (hexpr s.bracketed assignLevel) (.mark .rparen) rest.length rest
  have hcloser := expect_composes (C := C) (.mark .rparen) s
    (separated (expr s.bracketed assignLevel) (.mark .rparen) rest.length rest).2
  exact enclose .argumentList rfl (append (leaf opener hargs) hcloser)

theorem index_composes {expr : ExprParser} (hexpr : ComposesExpr C expr) (s : Scope) (opener : Item)
    (rest : List Item) :
    C s.eof (opener :: rest) (index expr s opener rest).1 (index expr s opener rest).2 := by
  have hvalue := hexpr s.bracketed assignLevel rest
  have hcloser := expect_composes (C := C) (.mark .rbracket) s
    (expr s.bracketed assignLevel rest).2
  exact leaf opener (append hvalue hcloser)

/-! ### What a round of references reads -/

def member (s : Scope) : List Item → Parsed
  | [] => (missing s [], [])
  | j :: next =>
    if j.kind.isName && !j.newline then (j.nameLeaf, next) else (missing s (j :: next), j :: next)

/-- What goes on with an operand, if the item before it does: the node that it makes, its other
children, and the items that remain. -/
def part (expr : ExprParser) (s : Scope) (i : Item) (rest : List Item) :
    Option (NodeKind × ParsedList) :=
  if s.stops i then none
  else if i.kind = .mark .dot then
    some (.refExpression, [i.leaf, (member s rest).1], (member s rest).2)
  else if i.kind = .mark .lbracket then some (.refExpression, index expr s i rest)
  else if i.kind = .mark .lparen then
    some (.callExpression, [(arguments expr s i rest).1], (arguments expr s i rest).2)
  else none

theorem references_nil (expr : ExprParser) (s : Scope) (rounds : Nat) (base : Tree) :
    references expr s rounds base [] = (base, []) := by
  cases rounds <;> rfl

section

variable {expr : ExprParser} {s : Scope} {i : Item} {rest : List Item}

theorem references_none (h : part expr s i rest = none) (rounds : Nat) (base : Tree) :
    references expr s rounds base (i :: rest) = (base, i :: rest) := by
  cases rounds with
  | zero => rfl
  | succ rounds =>
    simp only [references]
    split
    · rfl
    case isFalse hstops =>
      rw [part, if_neg hstops] at h
      split
      case h_1 hi => rw [if_pos hi] at h; cases h
      case h_2 hi => rw [if_neg (by rw [hi]; decide), if_pos hi] at h; cases h
      case h_3 hi =>
        rw [if_neg (by rw [hi]; decide), if_neg (by rw [hi]; decide), if_pos hi] at h
        cases h
      case h_4 => rfl

variable {q : NodeKind × ParsedList} (h : part expr s i rest = some q)
include h

theorem references_some (rounds : Nat) (base : Tree) :
    references expr s (rounds + 1) base (i :: rest) =
      references expr s rounds (.enclose q.1 (s.here q.2.2) (base :: q.2.1)) q.2.2 := by
  unfold part at h
  split at h
  · cases h
  case isFalse hstops =>
    simp only [references, if_neg hstops]
    split at h
    case isTrue hi =>
      cases h
      simp only [hi]
      cases rest <;> rfl
    split at h
    case isTrue hi =>
      cases h
      simp only [hi]
    split at h
    case isTrue hi =>
      cases h
      simp only [hi]
    case isFalse => cases h

end

theorem member_composes (s : Scope) (rest : List Item) :
    C s.eof rest [(member s rest).1] (member s rest).2 := by
  cases rest with
  | nil => exact missing_composes s []
  | cons j next =>
    rw [member]
    split
    · exact nameLeaf j (nil next)
    · exact missing_composes s (j :: next)

theorem part_composes {expr : ExprParser} (hexpr : ComposesExpr C expr) {s : Scope} {i : Item}
    {rest : List Item} {q : NodeKind × ParsedList} (h : part expr s i rest = some q) :
    C s.eof (i :: rest) q.2.1 q.2.2 := by
  unfold part at h
  split at h
  · cases h
  split at h
  · cases h
    exact leaf i (member_composes s rest)
  split at h
  · cases h
    exact index_composes hexpr s i rest
  split at h
  · cases h
    exact arguments_composes hexpr s i rest
  · cases h

theorem part_length {expr : ExprParser} (hexpr : ComposesExpr Covers expr) {s : Scope} {i : Item}
    {rest : List Item} {q : NodeKind × ParsedList} (h : part expr s i rest = some q) :
    q.2.2.length ≤ rest.length := by
  unfold part at h
  split at h
  · cases h
  split at h
  · cases h
    exact (member_composes (C := Covers) s rest).length_le
  split at h
  · cases h
    have hvalue := (hexpr s.bracketed assignLevel rest).length_le
    exact Nat.le_trans (expect_length_le (.mark .rbracket) s _) hvalue
  split at h
  · cases h
    have hargs := (separated_composes (hexpr s.bracketed assignLevel) (.mark .rparen) rest.length
      rest).length_le
    exact Nat.le_trans (expect_length_le (.mark .rparen) s _) hargs
  · cases h

theorem isHeading_of_part {expr : ExprParser} {s : Scope} {i : Item} {rest : List Item}
    {q : NodeKind × ParsedList} (h : part expr s i rest = some q) : q.1.isHeading = false := by
  unfold part at h
  split at h
  · cases h
  split at h
  · cases h; rfl
  split at h
  · cases h; rfl
  split at h
  · cases h; rfl
  · cases h

/-- References wrap the operand before them. -/
theorem references_compose {expr : ExprParser} (hexpr : ComposesExpr C expr) (s : Scope)
    (rounds : Nat) {ts mid : List Item} {base : Tree} (hbase : C s.eof ts [base] mid) :
    C s.eof ts [(references expr s rounds base mid).1]
      (references expr s rounds base mid).2 := by
  -- On the rounds: the node of one round is the base of the next.
  induction rounds generalizing base mid with
  | zero => exact hbase
  | succ rounds ih =>
    cases mid with
    | nil => exact hbase
    | cons i rest =>
      rcases hpart : part expr s i rest with _ | q
      · rw [references_none hpart]
        exact hbase
      · rw [references_some hpart]
        have hparts := append hbase (part_composes hexpr hpart)
        exact ih (enclose _ (isHeading_of_part hpart) hparts)

theorem unaryWith_composes {s : Scope} {operand : List Item → Parsed}
    (hoperand : ComposesOne C s.eof operand) :
    ComposesOne C s.eof (unaryWith operand s) := by
  intro ts
  induction ts with
  | nil => exact hoperand []
  | cons i rest ih =>
    rw [unaryWith]
    split
    · exact enclose .unaryExpression rfl (leaf i ih)
    · exact hoperand (i :: rest)

theorem isHeading_of_binding {k : Token.Kind} {b : Binding} (h : binding? k = some b) :
    b.node.isHeading = false := by
  unfold binding? at h
  split at h <;> cases h <;> rfl

theorem binaryTail_composes {expr : ExprParser} (hexpr : ComposesExpr C expr) (s : Scope)
    (level rounds : Nat) {ts mid : List Item} {left : Tree} (hleft : C s.eof ts [left] mid) :
    C s.eof ts [(binaryTail expr s level rounds left mid).1]
      (binaryTail expr s level rounds left mid).2 := by
  -- Every operator wraps the operand before it, so what is covered grows at its end.
  induction rounds generalizing left mid with
  | zero => exact hleft
  | succ rounds ih =>
    cases mid with
    | nil => exact hleft
    | cons i rest =>
      rw [binaryTail]
      split
      · exact hleft
      case h_2 b hb =>
        split
        · exact hleft
        · exact ih (enclose _ (isHeading_of_binding hb) (append hleft (leaf i (hexpr s _ rest))))

end Grammar

end PolicyEditor
