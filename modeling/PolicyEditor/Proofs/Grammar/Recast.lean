import PolicyEditor.Grammar.Expression
import PolicyEditor.Proofs.Tree.Recast

/-!
What the grammar sees of a text: the kinds of the tokens and the line breaks before them. Tokens
without text or place make the same tree, and so do other kinds for tokens that are only names.

A name that is given another kind stands behind a dot, and both are bound: whoever takes the dot
takes the name. Only in error nodes tokens are taken one by one, so no bound one may be there.
-/

namespace PolicyEditor.Grammar

structure Recast where
  kind : Token → Token.Kind
  bound : Token → Bool
  kind_eq : ∀ t, bound t = false → kind t = t.kind

namespace Recast

variable (φ : Recast)

def item (i : Item) : Item :=
  { i with token := (φ.kind i.token).blank }

def tree (t : Tree) : Tree :=
  t.recast φ.kind

def scope (s : Scope) : Scope :=
  { s with eof := 0 }

def parsed (p : Parsed) : Parsed :=
  (φ.tree p.1, p.2.map φ.item)

def parsedList (p : ParsedList) : ParsedList :=
  (p.1.map φ.tree, p.2.map φ.item)

def Spares (cs : List Tree) : Prop :=
  Tree.SparesAll φ.bound cs

/-- Items that keep their kinds, but for names behind bound dots, with braces that are told to open
what they opened. -/
inductive Intact : List Item → Prop where
  | nil : Intact []
  | cons {i : Item} {rest : List Item} : φ.bound i.token = false →
      (i.kind = .mark .lbrace → classifyBrace (rest.map φ.item) = classifyBrace rest) →
      Intact rest → Intact (i :: rest)
  | member {i j : Item} {rest : List Item} : φ.bound i.token = true → i.kind = .mark .dot →
      φ.kind i.token = .mark .dot → j.kind.isName = true → (φ.kind j.token).isName = true →
      j.newline = false → Intact rest → Intact (i :: j :: rest)

variable {φ}

@[simp] theorem newline_item (i : Item) : (φ.item i).newline = i.newline := (rfl)

@[simp] theorem stops_scope (s : Scope) (i : Item) : (scope s).stops (φ.item i) = s.stops i := (rfl)

@[simp] theorem bracketed_scope (s : Scope) : (scope s).bracketed = scope s.bracketed := rfl

@[simp] theorem statement_scope (s : Scope) : (scope s).statement = scope s.statement := rfl

@[simp] theorem bars_scope (s : Scope) : (scope s).bars = s.bars := (rfl)

@[simp] theorem here_scope (s : Scope) (ts : List Item) : (scope s).here (ts.map φ.item) = 0 := by
  cases ts <;> rfl

@[simp] theorem tree_enclose (k : NodeKind) (here : Nat) (cs : List Tree) :
    φ.tree (.enclose k here cs) = .enclose k 0 (cs.map φ.tree) :=
  Tree.recast_enclose φ.kind k here cs

theorem leaf_item {i : Item} (h : (φ.item i).kind = i.kind) : (φ.item i).leaf = φ.tree i.leaf := by
  show Tree.leaf (.ofToken (φ.item i).kind) _ = .leaf (.ofToken i.kind) _
  rw [h]
  rfl

/-! ### Nodes without bound tokens in the wrong place -/

namespace Spares

variable {c : Tree} {cs ds : List Tree}

theorem cons_iff : φ.Spares (c :: cs) ↔ φ.Spares [c] ∧ φ.Spares cs := by
  simp only [Spares, Tree.SparesAll, and_true]

theorem append_iff : φ.Spares (cs ++ ds) ↔ φ.Spares cs ∧ φ.Spares ds :=
  Tree.SparesAll.append_iff

theorem children {k : NodeKind} {here : Nat} (h : φ.Spares [.enclose k here cs]) : φ.Spares cs :=
  h.1.2

theorem misplaced {s : Scope} {is : List Item} (h : φ.Spares [misplaced s is]) :
    ∀ i ∈ is, φ.bound i.token = false := by
  have htokens : Tree.topTokens (is.map Item.leaf) = is.map Item.token := by
    rw [Tree.topTokens, List.filterMap_map]
    exact congrFun (List.filterMap_eq_map (f := Item.token)) is
  intro i hi
  refine h.1.1 rfl i.token ?_
  rw [htokens]
  exact List.mem_map_of_mem hi

end Spares

/-! ### Items that stay what they are -/

theorem kind_item_of_unbound {i : Item} (h : φ.bound i.token = false) :
    (φ.item i).kind = i.kind :=
  φ.kind_eq i.token h

namespace Intact

variable {i : Item} {rest : List Item}

/-- Wherever a rule looks, it sees the same kind. -/
theorem kind_item (h : φ.Intact (i :: rest)) : (φ.item i).kind = i.kind := by
  cases h with
  | cons hi => exact kind_item_of_unbound hi
  | member _ hi hdot => exact hdot.trans hi.symm

theorem tail_of_unbound (h : φ.Intact (i :: rest)) (hi : φ.bound i.token = false) :
    φ.Intact rest := by
  cases h with
  | cons _ _ hrest => exact hrest
  | member hbound =>
    rw [hi] at hbound
    cases hbound

theorem tail (h : φ.Intact (i :: rest)) (hi : i.kind ≠ .mark .dot) : φ.Intact rest := by
  cases h with
  | cons _ _ hrest => exact hrest
  | member _ hdot => exact absurd hdot hi

theorem tail_of_eq (h : φ.Intact (i :: rest)) {k : Token.Kind} (hi : i.kind = k)
    (hk : k ≠ .mark .dot) : φ.Intact rest :=
  h.tail (hi ▸ hk)

theorem tail_of_isName (h : φ.Intact (i :: rest)) (hi : i.kind.isName = true) : φ.Intact rest := by
  refine h.tail fun hdot => ?_
  rw [hdot] at hi
  cases hi

theorem classifyBrace (h : φ.Intact (i :: rest)) (hi : i.kind = .mark .lbrace) :
    classifyBrace (rest.map φ.item) = Grammar.classifyBrace rest := by
  cases h with
  | cons _ hbrace => exact hbrace hi
  | member _ hdot =>
    rw [hi] at hdot
    cases hdot

theorem settle {ts : List Item} (h : φ.Intact ts) : φ.Intact (settle ts) := by
  cases h with
  | nil => exact .nil
  | cons hi hbrace hrest => exact .cons hi hbrace hrest
  | member hi hdot hdot' hname hname' hline hrest =>
    exact .member hi hdot hdot' hname hname' hline hrest

theorem settle_map (ts : List Item) : Grammar.settle (ts.map φ.item) =
    (Grammar.settle ts).map φ.item := by
  cases ts <;> rfl

end Intact

theorem barBeforeClose_skip {i : Item} (hopener : i.kind.isOpener = false)
    (hcloser : i.kind.isCloser = false) (hpipe : i.kind ≠ .operator .pipe) (depth : Nat)
    (rest : List Item) : barBeforeClose depth (i :: rest) = barBeforeClose depth rest := by
  simp only [barBeforeClose, hopener, hcloser, beq_eq_false_iff_ne.mpr hpipe, Bool.and_false,
    Bool.false_eq_true, if_false]

theorem barBeforeClose_name {i : Item} (h : i.kind.isName = true) (depth : Nat) (rest : List Item) :
    barBeforeClose depth (i :: rest) = barBeforeClose depth rest := by
  unfold Token.Kind.isName at h
  split at h
  case h_3 => cases h
  all_goals
    rename_i hi
    exact barBeforeClose_skip (by rw [hi]; rfl) (by rw [hi]; rfl) (by rw [hi]; exact nofun) depth rest

theorem Intact.barBeforeClose {ts : List Item} (h : φ.Intact ts) (depth : Nat) :
    barBeforeClose depth (ts.map φ.item) = Grammar.barBeforeClose depth ts := by
  induction h generalizing depth with
  | nil => rfl
  | cons hi _ _ ih =>
    simp only [List.map_cons, Grammar.barBeforeClose, kind_item_of_unbound hi, ih]
  | @member i j rest _ hdot hdot' hname hname' _ _ ih =>
    have hskip : ∀ k : Item, k.kind = .mark .dot → ∀ ts,
        Grammar.barBeforeClose depth (k :: ts) = Grammar.barBeforeClose depth ts := by
      exact fun k hk => barBeforeClose_skip (by rw [hk]; rfl) (by rw [hk]; rfl)
        (by rw [hk]; exact nofun) depth
    rw [List.map_cons, List.map_cons, hskip (φ.item i) hdot', hskip i hdot,
      barBeforeClose_name (i := φ.item j) hname', barBeforeClose_name hname, ih]

theorem Intact.classifyBracket {ts : List Item} (h : φ.Intact ts) :
    classifyBracket (ts.map φ.item) = Grammar.classifyBracket ts := by
  rw [Grammar.classifyBracket, h.barBeforeClose, Grammar.classifyBracket]

/-- A stretch of unbound items ends at the same one. -/
theorem Intact.span {ts : List Item} (h : φ.Intact ts) {p : Item → Bool}
    (hp : ∀ i : Item, (φ.item i).kind = i.kind → p (φ.item i) = p i)
    (hunbound : ∀ i ∈ ts.takeWhile p, φ.bound i.token = false) :
    (ts.map φ.item).takeWhile p = (ts.takeWhile p).map φ.item ∧
      (ts.map φ.item).dropWhile p = (ts.dropWhile p).map φ.item ∧ φ.Intact (ts.dropWhile p) := by
  induction ts with
  | nil => exact ⟨rfl, rfl, .nil⟩
  | cons i rest ih =>
    have hi := hp i h.kind_item
    by_cases hpi : p i = true
    · rw [List.takeWhile_cons_of_pos hpi] at hunbound
      obtain ⟨hhead, htail⟩ := List.forall_mem_cons.mp hunbound
      obtain ⟨htake, hdrop, hrest⟩ := ih (h.tail_of_unbound hhead) htail
      rw [List.map_cons, List.takeWhile_cons_of_pos (hi.trans hpi), List.takeWhile_cons_of_pos hpi,
        List.dropWhile_cons_of_pos (hi.trans hpi), List.dropWhile_cons_of_pos hpi, htake, hdrop]
      exact ⟨rfl, rfl, hrest⟩
    · have hneg : ¬ p (φ.item i) = true := fun hmapped => hpi (hi.symm.trans hmapped)
      rw [List.map_cons, List.takeWhile_cons_of_neg hneg, List.takeWhile_cons_of_neg hpi,
        List.dropWhile_cons_of_neg hneg, List.dropWhile_cons_of_neg hpi]
      exact ⟨rfl, rfl, h⟩

/-! ### What a rule makes of recast items -/

/-- The second result is the recast first one, and goes on with what is intact. -/
def Carries (φ : Recast) (p p' : Parsed) : Prop :=
  φ.Spares [p.1] → p' = φ.parsed p ∧ φ.Intact p.2

def CarriesList (φ : Recast) (p p' : ParsedList) : Prop :=
  φ.Spares p.1 → p' = φ.parsedList p ∧ φ.Intact p.2

/-- The second rule makes of recast items what the first one makes of the items. -/
def Casts (φ : Recast) (one one' : List Item → Parsed) : Prop :=
  ∀ ts, φ.Intact ts → φ.Carries (one ts) (one' (ts.map φ.item))

def CastsExpr (φ : Recast) (expr : ExprParser) : Prop :=
  ∀ s level, φ.Casts (expr s level) (expr (scope s) level)

theorem missing_recast (s : Scope) (ts : List Item) :
    missing (scope s) (ts.map φ.item) = φ.tree (missing s ts) := by
  rw [missing, missing, tree_enclose, here_scope]
  rfl

theorem carries_missing (s : Scope) {ts : List Item} (h : φ.Intact ts) :
    φ.Carries (missing s ts, ts) (missing (scope s) (ts.map φ.item), ts.map φ.item) := by
  refine fun _ => ⟨?_, h⟩
  rw [missing_recast]
  rfl

theorem misplaced_recast (s : Scope) {is : List Item}
    (h : ∀ i ∈ is, φ.bound i.token = false) :
    misplaced (scope s) (is.map φ.item) = φ.tree (misplaced s is) := by
  have hleaves : (is.map φ.item).map Item.leaf = (is.map Item.leaf).map φ.tree := by
    rw [List.map_map, List.map_map]
    exact List.map_congr_left fun i hi => leaf_item (kind_item_of_unbound (h i hi))
  rw [misplaced, misplaced, tree_enclose, here_scope, hleaves]

theorem carries_misplaced (s : Scope) {i : Item} {rest : List Item} (h : φ.Intact (i :: rest)) :
    φ.Carries (misplaced s [i], rest) (misplaced (scope s) [φ.item i], rest.map φ.item) := by
  intro hspares
  have hunbound := hspares.misplaced
  refine ⟨Prod.ext (misplaced_recast s hunbound) rfl, ?_⟩
  exact h.tail_of_unbound (hunbound i List.mem_cons_self)

theorem expect_recast (kind : Token.Kind) (s : Scope) {ts : List Item} (h : φ.Intact ts)
    (hkind : kind ≠ .mark .dot) :
    expect kind (scope s) (ts.map φ.item) = φ.parsed (expect kind s ts) ∧
      φ.Intact (expect kind s ts).2 := by
  cases ts with
  | nil => exact ⟨Prod.ext (missing_recast s []) rfl, .nil⟩
  | cons i rest =>
    rw [List.map_cons, expect, expect, h.kind_item]
    split
    case isTrue hi => exact ⟨Prod.ext (leaf_item h.kind_item) rfl, h.tail_of_eq hi hkind⟩
    case isFalse => exact ⟨Prod.ext (missing_recast s (i :: rest)) rfl, h⟩

end Recast

end PolicyEditor.Grammar
