import PolicyEditor.Proofs.Grammar.ScriptCoverage
import PolicyEditor.Proofs.Token.Splitting
import PolicyEditor.Proofs.Tree.Dressing

/-!
A tree keeps its text: whatever the text, its tokens are the leaves of its tree, none left out and
none twice. The bare tree covers the tokens that the grammar reads, and dressing weaves the blanks
and comments back in.
-/

namespace PolicyEditor.Grammar

open PolicyEditor.Tree (tokens weave)

theorem itemsAfter_tokens (last : Option Token.Kind) (newline : Bool) (ts : List Token) :
    (itemsAfter last newline ts).map Item.token = ts.filter fun t => !t.isTrivia := by
  induction ts generalizing last newline with
  | nil => rfl
  | cons t ts ih =>
    by_cases ht : t.isTrivia = true
    · rw [itemsAfter, if_pos ht, ih, List.filter_cons_of_neg (by simp only [ht, Bool.not_true,
        Bool.false_eq_true, not_false_eq_true])]
    · rw [itemsAfter, if_neg ht, List.map_cons, ih, List.filter_cons_of_pos (by simp only [ht,
        Bool.not_false])]

theorem items_tokens (ts : List Token) :
    (items ts).map Item.token = ts.filter fun t => !t.isTrivia :=
  itemsAfter_tokens none true ts

theorem nodup_scan (source : List Char) : (Token.scan source).Nodup :=
  (Token.scan_sorted source).imp fun h heq => by
    rw [heq] at h
    exact Nat.lt_irrefl _ h

theorem nodup_items (source : List Char) :
    ((items (Token.scan source)).map Item.token).Nodup := by
  rw [items_tokens]
  exact (nodup_scan source).filter _

/-- Declarations that cover a text's items give a script over all of the text's tokens. -/
theorem tokens_dressScript {eof : Nat} {source : List Char} {nodes : List Tree}
    (h : Covers eof (items (Token.scan source)) nodes []) :
    tokens [Tree.dressScript source.length ((Token.scan source).filter Token.isTrivia) nodes] =
      Token.scan source := by
  have hwoven := Tree.Reads.tokens_dressList h ((Token.scan source).filter Token.isTrivia)
  rw [items_tokens, Tree.weave_filter (Token.scan_sorted source)] at hwoven
  simp only [Tree.dressScript, Tree.tokens_node, Tree.tokens_append, Tree.tokens_map_ofToken]
  exact (List.append_nil _).trans hwoven

theorem tokens_parseChars (source : List Char) :
    tokens [parseChars source] = Token.scan source := by
  apply tokens_dressScript
  exact Rules.declarations_cover (Rules.upTo_compose ((items (Token.scan source)).length + 1))
    { lines := true, bars := false, eof := source.length } (Nat.le_refl _)

theorem leftover_covers (s : Scope) (ts : List Item) :
    Covers s.eof ts (ts.map fun i => misplaced s [i]) [] := by
  induction ts with
  | nil => exact .nil []
  | cons i rest ih => exact Covers.append (misplaced_composes s i [] rest) ih

theorem tokens_parseExpressionChars (source : List Char) :
    tokens [parseExpressionChars source] = Token.scan source := by
  apply tokens_dressScript
  have hnode := (Rules.upTo_compose (C := Covers) ((items (Token.scan source)).length + 1)).expr
    { lines := false, bars := false, eof := source.length } assignLevel
    (items (Token.scan source))
  exact hnode.append (leftover_covers _ _)

end PolicyEditor.Grammar

namespace PolicyEditor.Tree

/-- The tree holds the text: its leaves are the text's tokens from left to right, each with the
token's range, and its root covers the text. -/
structure Holds (source : String) (tree : Tree) : Prop where
  leaves : tree.leaves.map token? = (Token.scan source.toList).map some
  ranges : tree.leaves.map (fun l => (l.start, l.stop)) =
    (Token.scan source.toList).map fun t => (t.start, t.stop)
  start : tree.start = 0
  stop : tree.stop = source.length

theorem leaves_map_of_tokens {α : Type} {tree : Tree} {ts : List Token} (h : tokens [tree] = ts)
    {f : Tree → α} {g : Token → α} (hf : ∀ k t, f (.leaf k t) = g t) :
    tree.leaves.map f = ts.map g := by
  have hone : leavesOfList [tree] = tree.leaves := List.append_nil _
  rw [tokens, hone] at h
  have hleaf : ∀ l ∈ tree.leaves, ∃ k token, l = .leaf k token := fun l hl =>
    eq_leaf_of_mem_leaves hl
  subst h
  generalize tree.leaves = ls at hleaf
  induction ls with
  | nil => rfl
  | cons l ls ih =>
    obtain ⟨k, t, rfl⟩ := hleaf l List.mem_cons_self
    have hrest := ih fun l hl => hleaf l (List.mem_cons_of_mem _ hl)
    simp only [List.filterMap_cons, token?, List.map_cons, hf, hrest]

theorem holds_of_tokens {source : String} {tree : Tree}
    (h : tokens [tree] = Token.scan source.toList) (hstart : tree.start = 0)
    (hstop : tree.stop = source.toList.length) : Holds source tree where
  leaves := leaves_map_of_tokens h fun _ _ => rfl
  ranges := leaves_map_of_tokens h fun _ _ => rfl
  start := hstart
  stop := by rw [hstop, String.length_toList]

end PolicyEditor.Tree

namespace PolicyEditor.Grammar

/-- Both readings of a text, as a policy and as a single expression, keep every token of it. -/
theorem parse_holds_source (source : String) :
    (parse source).Holds source ∧ (parseExpression source).Holds source :=
  ⟨Tree.holds_of_tokens (tokens_parseChars source.toList) rfl rfl,
    Tree.holds_of_tokens (tokens_parseExpressionChars source.toList) rfl rfl⟩

end PolicyEditor.Grammar
