import PolicyEditor.Proofs.Grammar.OperandExtension
import PolicyEditor.Proofs.Tree.Formed

/-!
Pieces of the grammar make well formed nodes, whatever they are given: lists between commas,
references, signs and operators. Each of them leaves one node in the place of an operand, be it the
placeholder for a missing one.
-/

namespace PolicyEditor

namespace Face

variable {f : Face} {level : Nat}

theorem isOperand_of_isBase (h : f.isBase = true) : f.isOperand = true := by
  cases f with
  | leaf => exact h
  | node k e =>
    have hk : k.isComposite = true := h
    simp only [isOperand, hk, Bool.true_or]

theorem isExprAt_of_isOperand (h : f.isOperand = true) : f.isExprAt level = true := by
  cases f with
  | leaf => exact h
  | node k e => rw [isExprAt, h, Bool.true_or]

theorem isExpr_of_isExprAt (h : f.isExprAt level = true) : f.isExpr = true := by
  cases f with
  | leaf => exact h
  | node k e =>
    rw [isExprAt, Bool.or_eq_true, Bool.and_eq_true] at h
    rcases h with h | h
    · exact isExprAt_of_isOperand h
    · show isExprAt Grammar.assignLevel (.node k e) = true
      rw [isExprAt, h.2]
      exact Bool.or_true _

theorem isOperand_of_isExprAt (h : f.isExprAt Grammar.unaryLevel = true) :
    f.isOperand = true := by
  cases f with
  | leaf => exact h
  | node k e => simpa [isExprAt] using h

theorem isLevel_of_isExprAt (h : f.isExprAt level = true) : f.isLevel = true :=
  isLevel_of_isExpr (isExpr_of_isExprAt h)

end Face

namespace Grammar

open PolicyEditor.Tree (Formed facesOf facesOf_append)

/-- A well formed node with a face of a certain kind. -/
structure Yields (declared : Bool) (p : Face → Bool) (t : Tree) : Prop where
  formed : Formed declared [t]
  shown : t.isTrivia = false
  face : p t.face = true

/-- Well formed nodes whose faces are in a certain order. -/
structure YieldsAll (P : List Face → Prop) (cs : List Tree) : Prop where
  formed : Formed false cs
  faces : P (facesOf cs)

def AllLevel (fs : List Face) : Prop :=
  ∀ f ∈ fs, f.isLevel = true

namespace Yields

variable {declared : Bool} {p q : Face → Bool} {t : Tree} {cs : List Tree}

theorem mono (h : Yields declared p t) (hpq : p t.face = true → q t.face = true) :
    Yields declared q t :=
  ⟨h.formed, h.shown, hpq h.face⟩

theorem cons (h : Yields declared p t) (hcs : Formed declared cs) : Formed declared (t :: cs) :=
  h.formed.append hcs

theorem faces_cons (h : Yields declared p t) (cs : List Tree) :
    facesOf (t :: cs) = t.face :: facesOf cs :=
  Tree.facesOf_cons h.shown cs

theorem node {k : NodeKind} (hfits : Fits declared k (facesOf cs)) (hcs : Formed k.declares cs)
    (hface : p (.node k cs.isEmpty) = true) (here : Nat) :
    Yields declared p (.enclose k here cs) where
  formed := .node hfits hcs (.nil declared)
  shown := hfits.not_trivia
  face := hface

/-- A node whose children have fixed places. -/
theorem shaped {k : NodeKind} (hshape : Shape k (facesOf cs)) (hfree : k.isFree = false)
    (hcs : Formed false cs) (hface : p (.node k cs.isEmpty) = true) (here : Nat) :
    Yields declared p (.enclose k here cs) := by
  have hdeclares : k.declares = false := by
    cases k <;> first | rfl | cases hfree
  exact .node (.of_shape hshape hfree) (hdeclares.symm ▸ hcs) hface here

/-- A node whose children have no fixed places. -/
theorem free (k : NodeKind) (hk : (k.isFree && k != .error) = true)
    (hbrackets : Bracketed none (facesOf cs)) (hcs : Formed k.declares cs)
    (hface : p (.node k cs.isEmpty) = true) (here : Nat) :
    Yields declared p (.enclose k here cs) := by
  rw [Bool.and_eq_true, bne_iff_ne] at hk
  exact .node (.of_free hbrackets hk.1 hk.2) hcs hface here

theorem all (h : Yields false p t) {P : List Face → Prop} (hP : p t.face = true → P [t.face]) :
    YieldsAll P [t] where
  formed := h.formed
  faces := by
    rw [h.faces_cons]
    exact hP h.face

end Yields

theorem YieldsAll.mono {P Q : List Face → Prop} {cs : List Tree} (h : YieldsAll P cs)
    (hPQ : ∀ fs, P fs → Q fs) : YieldsAll Q cs :=
  ⟨h.formed, hPQ _ h.faces⟩

theorem YieldsAll.nil {P : List Face → Prop} (hP : P []) : YieldsAll P [] :=
  ⟨.nil false, hP⟩

/-! ### Single tokens -/

theorem isTrivia_ofToken {k : Token.Kind} (hk : k.isTrivia = false) :
    (NodeKind.ofToken k).isTrivia = false := by
  cases k <;> first | rfl | cases hk

section

variable {declared : Bool} {p : Face → Bool} {i : Item} {k : Token.Kind}

theorem Item.leaf_yields (hi : i.kind = k) (hk : k.isTrivia = false) :
    Yields declared (Face.isToken k) i.leaf where
  formed := .leaf (Tree.isLeafOf_ofToken i.token) (.nil declared)
  shown := by
    show (NodeKind.ofToken i.kind).isTrivia = false
    rw [hi]
    exact isTrivia_ofToken hk
  face := by
    subst hi
    exact Face.isToken_iff.mpr ⟨i.token, rfl, rfl⟩

theorem Item.nameLeaf_yields (hi : i.kind.isName = true) :
    Yields declared Face.isName i.nameLeaf where
  formed := by
    refine .leaf ?_ (.nil declared)
    have hname : i.token.kind.isName = true := hi
    rw [isLeafOf, hname]
    simp only [beq_self_eq_true, Bool.and_self, Bool.or_true]
  shown := rfl
  face := hi

theorem missing_yields (hp : p .missing = true) (s : Scope) (ts : List Item) :
    Yields declared p (missing s ts) :=
  .node (.of_error fun _ hf => absurd hf List.not_mem_nil) (.nil false) hp _

theorem misplaced_yields (hp : p (.node .error false) = true) (s : Scope) (i : Item)
    (is : List Item) : Yields declared p (misplaced s (i :: is)) := by
  have hleaves : Formed false ((i :: is).map Item.leaf) := by
    have hall := Tree.Formed.of_tokens false ((i :: is).map Item.token)
    rwa [List.map_map] at hall
  refine .node (.of_error fun f hf => ?_) hleaves hp _
  obtain ⟨t, ht, rfl⟩ := List.mem_map.mp hf
  obtain ⟨j, -, rfl⟩ := List.mem_map.mp (List.mem_filter.mp ht).1
  rfl

theorem expect_yields (hk : k.isTrivia = false) (s : Scope) (ts : List Item) :
    Yields declared (Face.isExpected k) (expect k s ts).1 := by
  cases ts with
  | nil => exact missing_yields (by simp [Face.isExpected]) s []
  | cons i rest =>
    by_cases hi : i.kind = k
    · rw [expect, if_pos hi]
      exact (Item.leaf_yields hi hk).mono fun h => Face.isExpected_iff.mpr (.inl h)
    · rw [expect, if_neg hi]
      exact missing_yields (by simp [Face.isExpected]) s (i :: rest)

end

/-! ### Lists between commas -/

def YieldsOne (p : Face → Bool) (rule : List Item → Parsed) : Prop :=
  ∀ ts, Yields false p (rule ts).1

/-- An item and a comma before other items. -/
theorem Yields.comma {p : Face → Bool} {node : Tree} (hnode : Yields false p node) {j : Item}
    (hj : j.kind = .mark .comma) {cs : List Tree} (hcs : YieldsAll (Separated p) cs) :
    YieldsAll (Separated p) (node :: j.leaf :: cs) := by
  have hcomma : Yields false _ j.leaf := Item.leaf_yields hj rfl
  refine ⟨hnode.cons (hcomma.cons hcs.formed), ?_⟩
  rw [hnode.faces_cons, hcomma.faces_cons]
  exact .cons hnode.face hcomma.face hcs.faces

theorem separated_yields {p : Face → Bool} {one : List Item → Parsed} (hone : YieldsOne p one)
    (closer : Token.Kind) (rounds : Nat) (ts : List Item) :
    YieldsAll (Separated p) (separated one closer rounds ts).1 := by
  induction rounds generalizing ts with
  | zero => exact .nil .nil
  | succ rounds ih =>
    cases ts with
    | nil => exact .nil .nil
    | cons i rest =>
      by_cases hc : i.kind = closer
      · simp only [separated, hc, if_true]
        exact .nil .nil
      · have hnode := hone (i :: rest)
        rcases hp : one (i :: rest) with ⟨node, after⟩
        rw [hp] at hnode
        simp only [separated, hc, if_false, hp]
        cases after with
        | nil => exact hnode.all .last
        | cons j next =>
          by_cases hj : j.kind = .mark .comma
          · simp only [hj, if_true]
            exact hnode.comma hj (ih next)
          · simp only [hj, if_false]
            exact hnode.all .last

theorem terms_yields {p : Face → Bool} {one : List Item → Parsed} (hone : YieldsOne p one)
    (rounds : Nat) (ts : List Item) : YieldsAll (Separated p) (terms one rounds ts).1 := by
  induction rounds generalizing ts with
  | zero => exact .nil .nil
  | succ rounds ih =>
    have hnode := hone ts
    rcases hp : one ts with ⟨node, after⟩
    rw [hp] at hnode
    simp only [terms, hp]
    cases after with
    | nil => exact hnode.all .last
    | cons j next =>
      by_cases hj : j.kind = .mark .comma
      · simp only [hj, if_true]
        exact hnode.comma hj (ih next)
      · simp only [hj, if_false]
        exact hnode.all .last

/-- A node that lists items between brackets. -/
theorem collection_yields {k : NodeKind} {e : Enclosure} (he : k.collection? = some e)
    {one : List Item → Parsed} (hone : YieldsOne e.item one) (s : Scope) {opener : Item}
    (hopener : opener.kind = .mark e.opener) (rest : List Item) {p : Face → Bool}
    (hp : p (.node k false) = true) :
    Yields false p (Rules.collection k one (.mark e.closer) s opener rest).1 := by
  have hleaf : Yields false _ opener.leaf := Item.leaf_yields hopener rfl
  have hparts := separated_yields hone (.mark e.closer) rest.length rest
  have hcloser : Yields false _ (expect (.mark e.closer) s
      (separated one (.mark e.closer) rest.length rest).2).1 := expect_yields rfl s _
  have hfree : k.isFree = false := by
    unfold NodeKind.collection? at he
    split at he <;> first | rfl | cases he
  have hall := (hleaf.cons hparts.formed).append hcloser.formed
  refine .shaped ?_ hfree hall hp _
  rw [facesOf_append, hleaf.faces_cons, hcloser.faces_cons]
  exact .collection he hleaf.face hparts.faces hcloser.face

/-! ### References, signs and operators -/

def YieldsExpr (expr : ExprParser) : Prop :=
  ∀ s level, YieldsOne (Face.isExprAt level) (expr s level)

theorem arguments_yields {expr : ExprParser} (hexpr : YieldsExpr expr) (s : Scope) {opener : Item}
    (hopener : opener.kind = .mark .lparen) (rest : List Item) :
    Yields false (Face.isNode .argumentList) (arguments expr s opener rest).1 := by
  have he : NodeKind.collection? .argumentList = some ⟨.lparen, .rparen, Face.isExpr⟩ := rfl
  exact collection_yields he (hexpr s.bracketed assignLevel) s hopener rest rfl

def Indexed (fs : List Face) : Prop :=
  ∃ opener value closer, fs = [opener, value, closer] ∧ opener.isToken (.mark .lbracket) = true ∧
    value.isExpr = true ∧ closer.isExpected (.mark .rbracket) = true

theorem index_yields {expr : ExprParser} (hexpr : YieldsExpr expr) (s : Scope) {opener : Item}
    (hopener : opener.kind = .mark .lbracket) (rest : List Item) :
    YieldsAll Indexed (index expr s opener rest).1 := by
  have hleaf : Yields false _ opener.leaf := Item.leaf_yields hopener rfl
  have hvalue := hexpr s.bracketed assignLevel rest
  have hcloser : Yields false _ (expect (.mark .rbracket) s
      (expr s.bracketed assignLevel rest).2).1 := expect_yields rfl s _
  have hparts := hcloser.faces_cons []
  refine ⟨hleaf.cons (hvalue.cons hcloser.formed), _, _, _, ?_, hleaf.face, hvalue.face,
    hcloser.face⟩
  exact (hleaf.faces_cons _).trans (congrArg _ ((hvalue.faces_cons _).trans (congrArg _ hparts)))

/-- The name after a dot, or the placeholder for it. -/
theorem member_yields (s : Scope) (rest : List Item) :
    Yields false (fun f => f.isName || f == .missing) (member s rest).1 := by
  cases rest with
  | nil => exact missing_yields rfl s []
  | cons j next =>
    rw [member]
    split
    case isTrue hj =>
      apply (Item.nameLeaf_yields (Bool.and_eq_true_iff.mp hj).1).mono
      intro h
      rw [h, Bool.true_or]
    case isFalse => exact missing_yields rfl s (j :: next)

/-- What goes on with an operand makes an operand of it again. -/
theorem part_yields {expr : ExprParser} (hexpr : YieldsExpr expr) {s : Scope} {i : Item}
    {rest : List Item} {q : NodeKind × ParsedList} (h : part expr s i rest = some q) {base : Tree}
    (hbase : Yields false Face.isBase base) :
    Yields false Face.isBase (.enclose q.1 (s.here q.2.2) (base :: q.2.1)) := by
  unfold part at h
  split at h
  · cases h
  split at h
  case isTrue hi =>
    cases h
    have hdot : Yields false _ i.leaf := Item.leaf_yields hi rfl
    have hname := member_yields s rest
    refine .shaped ?_ rfl (hbase.cons (hdot.cons hname.formed)) rfl _
    rw [hbase.faces_cons, hdot.faces_cons, hname.faces_cons]
    exact .member hbase.face hdot.face (by simpa using hname.face)
  split at h
  case isTrue hi =>
    cases h
    have hindex := index_yields hexpr s hi rest
    refine .shaped ?_ rfl (hbase.cons hindex.formed) rfl _
    obtain ⟨opener, value, closer, hfaces, hopener, hvalue, hcloser⟩ := hindex.faces
    rw [hbase.faces_cons, hfaces]
    exact .index hbase.face hopener hvalue hcloser
  split at h
  case isTrue hi =>
    cases h
    have hargs := arguments_yields hexpr s hi rest
    refine .shaped ?_ rfl (hbase.cons hargs.formed) rfl _
    rw [hbase.faces_cons, hargs.faces_cons]
    exact .call hbase.face hargs.face
  · cases h

theorem references_yields {expr : ExprParser} (hexpr : YieldsExpr expr) (s : Scope) (rounds : Nat)
    {base : Tree} (hbase : Yields false Face.isBase base) (ts : List Item) :
    Yields false Face.isBase (references expr s rounds base ts).1 := by
  -- On the rounds: the node of one round is the base of the next.
  induction rounds generalizing base ts with
  | zero => exact hbase
  | succ rounds ih =>
    cases ts with
    | nil => exact hbase
    | cons i rest =>
      rcases hpart : part expr s i rest with _ | q
      · rw [references_none hpart]
        exact hbase
      · rw [references_some hpart]
        exact ih (part_yields hexpr hpart hbase) q.2.2

theorem unaryWith_yields {s : Scope} {operand : List Item → Parsed}
    (hoperand : YieldsOne Face.isOperand operand) :
    YieldsOne Face.isOperand (unaryWith operand s) := by
  intro ts
  induction ts with
  | nil => exact hoperand []
  | cons i rest ih =>
    rw [unaryWith]
    split
    case isTrue hi =>
      have hkind : i.kind = .operator .minus ∨ i.kind = .operator .bang := by
        simpa using (Bool.and_eq_true_iff.mp hi).1
      have hsign : Yields false _ i.leaf := Item.leaf_yields rfl (by
        rcases hkind with h | h <;> rw [h] <;> rfl)
      refine .shaped ?_ rfl (hsign.cons ih.formed) rfl _
      rw [hsign.faces_cons, ih.faces_cons]
      exact .unary hkind hsign.face ih.face
    case isFalse => exact hoperand (i :: rest)

theorem binding_node {k : Token.Kind} {b : Binding} (h : binding? k = some b) :
    k.isTrivia = false ∧ b.node.isBinary = true ∧ b.node.isFree = false := by
  unfold binding? at h
  split at h <;> cases h <;> exact ⟨rfl, rfl, rfl⟩

theorem binaryTail_yields {expr : ExprParser} (hexpr : YieldsExpr expr) (s : Scope)
    (level rounds : Nat) {left : Tree} (hleft : Yields false (Face.isExprAt level) left)
    (ts : List Item) :
    Yields false (Face.isExprAt level) (binaryTail expr s level rounds left ts).1 := by
  -- On the rounds: every operator wraps the operand before it.
  induction rounds generalizing left ts with
  | zero => exact hleft
  | succ rounds ih =>
    cases ts with
    | nil => exact hleft
    | cons i rest =>
      rw [binaryTail]
      split
      · exact hleft
      case h_2 b hb =>
        split
        · exact hleft
        case isFalse hstop =>
          apply ih
          obtain ⟨hkind, hbinary, hfree⟩ := binding_node hb
          have hsign : Yields false _ i.leaf := Item.leaf_yields rfl hkind
          have hright := hexpr s (b.level + 1) rest
          have hlevel : level < unaryLevel := by
            have hlow : ¬ b.level < level := by
              intro h
              exact hstop (by simp [h])
            exact Nat.lt_of_le_of_lt (Nat.le_of_not_lt hlow) (level_lt_unaryLevel hb)
          refine .shaped ?_ hfree (hleft.cons (hsign.cons hright.formed)) ?_ _
          · rw [hleft.faces_cons, hsign.faces_cons, hright.faces_cons]
            exact .binary (Face.isExpr_of_isExprAt hleft.face) hb hsign.face
              (Face.isExpr_of_isExprAt hright.face)
          · simp only [Face.isExprAt, hbinary, hlevel, decide_true, Bool.and_self, Bool.or_true]

end Grammar

end PolicyEditor
