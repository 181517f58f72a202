import PolicyEditor.Proofs.Grammar.Leaves
import PolicyEditor.Proofs.Grammar.Seams
import PolicyEditor.Proofs.Tree.Ancestors
import PolicyEditor.Proofs.Tree.Cursor

/-!
The leaf at a cursor in a text. The tokens of a text leave no gap, so one of them ends at or covers
every offset behind the beginning, and its leaf is the only one that does.
-/

namespace PolicyEditor.Tree

/-- Nodes lead from a root down to a node: each is a child of the one before it, and the range of
each lies around that of the node. -/
structure Ancestry (root : Tree) (above : List Tree) (n : Tree) : Prop where
  root : above.head? = some root
  chain : (above ++ [n]).IsChain fun a b => b ∈ a.children
  around : ∀ a ∈ above, a.start ≤ n.start ∧ n.stop ≤ a.stop

/-- The leaf at each offset of a text: behind the beginning the one leaf that ends there or covers
it, at the beginning the first leaf, and elsewhere none. It comes with the nodes above it. -/
structure Locates (source : String) (tree : Tree) : Prop where
  inside : ∀ offset : Int, 0 < offset → offset ≤ source.length →
    ∃ l above, tree.leafAt offset = some (l, above) ∧ tree.leaves.filter (touches offset) = [l]
  start : source ≠ "" →
    ∃ l above, tree.leafAt 0 = some (l, above) ∧ tree.leaves.head? = some l
  outside : ∀ offset : Int, offset < 0 ∨ source.length < offset ∨ source = "" →
    tree.leafAt offset = none
  ancestry : ∀ (offset : Int) (l : Tree) (above : List Tree),
    tree.leafAt offset = some (l, above) → Ancestry tree above l

/-- A leaf below a root without gaps has the nodes above it for its ancestry. -/
theorem Snug.ancestry {k : NodeKind} {a b : Nat} {cs above : List Tree} {l : Tree}
    (h : Snug (.node k a b cs)) (hwalk : (l, above) ∈ walk [] (.node k a b cs))
    (hleaf : l.isLeaf = true) : Ancestry (.node k a b cs) above l := by
  obtain ⟨path, hpath, hleads⟩ := leads_of_mem_walk hwalk
  obtain rfl : above = path := hpath
  constructor
  case root =>
    cases hleads with
    | here => cases hleaf
    | child => rfl
  case chain => exact hleads.isChain
  case around => exact (hleads.within h).2

end PolicyEditor.Tree

namespace PolicyEditor.Token

theorem exists_touches_scan {source : List Char} {offset : Nat} (hpos : 0 < offset)
    (hle : offset ≤ source.length) : ∃ t ∈ scan source, t.Touches offset := by
  obtain ⟨t, ht, hstart, hstop⟩ :=
    (scanFrom_splits 0 source).over (i := offset - 1) (Nat.zero_le _) (by omega)
  exact ⟨t, ht, by omega, by omega⟩

end PolicyEditor.Token

namespace PolicyEditor.Grammar

open PolicyEditor.Tree (tokens)

theorem snug_parseChars (source : List Char) : (parseChars source).Snug := by
  have hcovers := script_covers source.length (items (Token.scan source))
  rw [Covers, items_tokens] at hcovers
  exact hcovers.tiles_script (formed_script _ _)

/-- Whatever the text, the leaf at a cursor is the one before it, and its ancestors lead there. -/
theorem leafAt_parse (source : String) : (parse source).Locates source := by
  have htokens : tokens [parse source] = Token.scan source.toList := tokens_parseChars source.toList
  have hsuccessive : Token.Successive (tokens [parse source]) :=
    htokens ▸ Token.successive_scan source.toList
  have hrow := Token.row_scan source.toList
  rw [← htokens, String.length_toList] at hrow
  constructor
  case inside =>
    intro offset hpos hle
    obtain ⟨offset, rfl⟩ := Int.eq_ofNat_of_zero_le (Int.le_of_lt hpos)
    have hwithin : offset ≤ source.toList.length := by
      rw [String.length_toList]
      exact Int.ofNat_le.mp hle
    obtain ⟨t, ht, htouches⟩ := Token.exists_touches_scan (Int.natCast_pos.mp hpos) hwithin
    obtain ⟨k, above, hwalk, hfound⟩ :=
      Tree.leafAt_of_touches hsuccessive (htokens.symm ▸ ht) htouches
    refine ⟨.leaf k t, above, hfound, Tree.filter_touches hsuccessive ?_ htouches⟩
    rw [← Tree.leaves_walk []]
    exact List.mem_map_of_mem (List.mem_filter.mpr ⟨hwalk, rfl⟩)
  case start =>
    intro hsource
    obtain ⟨t, ts, hts, hfirst⟩ : ∃ t ts, tokens [parse source] = t :: ts ∧ t.start = 0 := by
      cases hts : tokens [parse source] with
      | nil =>
        rw [hts] at hrow
        exact absurd (String.length_eq_zero_iff.mp hrow.symm) hsource
      | cons t ts =>
        rw [hts] at hrow
        exact ⟨t, ts, rfl, hrow.1⟩
    exact Tree.leafAt_first hts hfirst
  case outside =>
    intro offset hoffset
    refine Tree.leafAt_eq_none fun t ht => ?_
    obtain ⟨-, hlong, hstop⟩ := hrow.mem ht
    rcases hoffset with hnegative | hbehind | rfl
    · omega
    · omega
    · exact absurd (Nat.lt_of_lt_of_le hlong hstop) (Nat.not_lt_zero _)
  case ancestry =>
    intro offset l above hfound
    obtain ⟨hwalk, hleaf⟩ := Tree.leafAt_mem hfound
    exact (snug_parseChars source.toList).ancestry hwalk hleaf

end PolicyEditor.Grammar
