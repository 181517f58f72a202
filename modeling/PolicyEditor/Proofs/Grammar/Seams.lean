import PolicyEditor.Proofs.Grammar.ScriptShape
import PolicyEditor.Proofs.Grammar.TriviaIndependence
import PolicyEditor.Proofs.Tree.Tiling

/-!
The ranges of a tree nest and abut, on every recovery path: each node covers just what its children
cover, these follow one another without a gap, and only the root begins or ends with blanks or
comments.
-/

namespace PolicyEditor.Tree

/-- The range of a node is made of those of its children: it starts where the first one starts and
ends where the last one ends, and each child starts where its left neighbour ends. A node without
children, other than a leaf, covers nothing. -/
structure Abutting (t : Tree) : Prop where
  first : ∀ c ∈ t.children.head?, t.start = c.start
  last : ∀ c ∈ t.children.getLast?, t.stop = c.stop
  next : t.children.IsChain fun c d => d.start = c.stop
  empty : t.isLeaf = false → t.children = [] → t.start = t.stop

/-- Ranges abut in the whole tree, and no node below the root begins or ends with a blank or a
comment. -/
structure Seamless (tree : Tree) : Prop where
  abutting : ∀ p ∈ tree.walk [], Abutting p.1
  trimmed : ∀ p ∈ tree.walk [], p.2 ≠ [] → Trimmed p.1.children

theorem Tiles.isChain {a b : Nat} {cs : List Tree} (h : Tiles a cs b) :
    cs.IsChain fun c d => d.start = c.stop := by
  induction cs generalizing a with
  | nil => exact .nil
  | cons c cs ih =>
    cases cs with
    | nil => exact .singleton c
    | cons d cs => exact .cons_cons h.2.2.1 (ih h.2.2)

theorem Tiles.abutting {k : NodeKind} {a b : Nat} {cs : List Tree} (h : Tiles a cs b) :
    Abutting (.node k a b cs) where
  first := by
    intro c hc
    obtain ⟨ds, rfl⟩ : ∃ ds, cs = c :: ds := List.head?_eq_some_iff.mp hc
    exact h.1.symm
  last := by
    intro c hc
    have hstop := h.stop
    rw [show cs.getLast? = some c from hc] at hstop
    exact hstop.symm
  next := h.isChain
  empty := by
    rintro - rfl
    exact h

theorem abutting_leaf (k : NodeKind) (t : Token) : Abutting (.leaf k t) where
  first := nofun
  last := nofun
  next := .nil
  empty := nofun

mutual

theorem Tiled.walk {above : List Tree} : ∀ {t : Tree}, Tiled t →
    ∀ p ∈ t.walk above, Abutting p.1 ∧ Trimmed p.1.children
  | .leaf k t, _ => by
    rw [Tree.walk]
    exact List.forall_mem_singleton.mpr ⟨abutting_leaf k t, nofun, nofun⟩
  | .node k a b cs, h => by
    rw [Tree.walk]
    exact List.forall_mem_cons.mpr ⟨⟨h.1.abutting, h.2⟩, Tiles.walkList h.1⟩

theorem Tiles.walkList {above : List Tree} : ∀ {cs : List Tree} {a b : Nat}, Tiles a cs b →
    ∀ p ∈ Tree.walkList above cs, Abutting p.1 ∧ Trimmed p.1.children
  | [], _, _, _ => List.forall_mem_nil _
  | _ :: _, _, _, h => by
    rw [Tree.walkList]
    exact List.forall_mem_append.mpr ⟨h.2.1.walk, Tiles.walkList h.2.2⟩

end

theorem Tiles.seamless {k : NodeKind} {a b : Nat} {cs : List Tree} (h : Tiles a cs b) :
    Seamless (.node k a b cs) where
  abutting := by
    rw [Tree.walk]
    exact List.forall_mem_cons.mpr ⟨h.abutting, fun p hp => (h.walkList p hp).1⟩
  trimmed := by
    rw [Tree.walk]
    exact List.forall_mem_cons.mpr ⟨fun hroot => absurd rfl hroot, fun p hp _ => (h.walkList p hp).2⟩

/-- Trees that read the tokens of a text cover it, with the blanks and comments in their places. -/
theorem Reads.tiles_script {source : List Char} {nodes : List Tree}
    (h : Reads source.length ((Token.scan source).filter fun t => !t.isTrivia) nodes [])
    (hformed : Formed false nodes) :
    Tiles 0 (dressScript source.length ((Token.scan source).filter Token.isTrivia) nodes).children
      source.length := by
  have hrow := Token.row_scan source
  rw [← weave_filter (Token.scan_sorted source)] at hrow
  have hts : ∀ t ∈ (Token.scan source).filter fun t => !t.isTrivia, t.isTrivia = false :=
    fun t ht => by simpa using (List.mem_filter.mp ht).2
  obtain ⟨b, htiles, hrest⟩ := h.tiles hformed hts hrow
  exact tiles_append.mpr ⟨b, htiles, tiles_of_row hrest⟩

/-- The script over trees that read the tokens of a text. -/
theorem Reads.seamless {source : List Char} {nodes : List Tree}
    (h : Reads source.length ((Token.scan source).filter fun t => !t.isTrivia) nodes [])
    (hformed : Formed false nodes) :
    (dressScript source.length ((Token.scan source).filter Token.isTrivia) nodes).Seamless :=
  Tiles.seamless (h.tiles_script hformed)

end PolicyEditor.Tree

namespace PolicyEditor.Grammar

open Recast (lone)

theorem formed_script (length : Nat) (ts : List Item) : Tree.Formed false (script length ts) :=
  (Rules.declarations_yields (Rules.upTo_shapes (ts.length + 1)) (outermost length) ts.length
    ts).formed

theorem lone_covers (length : Nat) (ts : List Item) : Covers length ts (lone length ts) [] := by
  have hnode := (Rules.upTo_compose (C := Covers) (ts.length + 1)).expr
    { lines := false, bars := false, eof := length } assignLevel ts
  exact hnode.append (leftover_covers _ _)

theorem formed_lone (length : Nat) (ts : List Item) : Tree.Formed false (lone length ts) := by
  let s : Scope := { lines := false, bars := false, eof := length }
  have hnode := (Rules.upTo_shapes (ts.length + 1)).expr s assignLevel ts
  exact (hnode.cons_pairs Face.isLevel_of_isExprAt (leftover_yields s _)).formed

/-- Whatever the text, the ranges of its tree nest and abut. -/
theorem parse_seamless (source : String) :
    (parse source).Seamless ∧ (parseExpression source).Seamless := by
  have hscript := script_covers source.toList.length (items (Token.scan source.toList))
  have hlone := lone_covers source.toList.length (items (Token.scan source.toList))
  rw [Covers, items_tokens] at hscript hlone
  exact ⟨hscript.seamless (formed_script _ _), hlone.seamless (formed_lone _ _)⟩

end PolicyEditor.Grammar
