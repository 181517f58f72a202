import Mathlib.Data.List.Chain
import PolicyEditor.Proofs.Token.Splitting
import PolicyEditor.Proofs.Tree.Reading

/-!
The leaf at a cursor. Where the tokens of a tree follow one another, at most one of them ends at or
covers an offset, and the search over all nodes finds its leaf: the leaves before it end too early
to be taken, and those after it begin too late to take its place.
-/

namespace PolicyEditor

def Token.Touches (t : Token) (offset : Nat) : Prop :=
  t.start < offset ∧ offset ≤ t.stop

instance (t : Token) (offset : Nat) : Decidable (t.Touches offset) :=
  inferInstanceAs (Decidable (_ ∧ _))

/-- Tokens each of which begins where the ones before it have ended. -/
def Token.Successive (ts : List Token) : Prop :=
  ts.Pairwise fun t u => t.stop ≤ u.start

theorem Token.successive_of_abut {ts : List Token}
    (h : ts.IsChain fun t u => t.stop = u.start) : Token.Successive ts := by
  have hchain : ts.IsChain fun t u => t.stop ≤ u.start := h.imp fun _ _ => Nat.le_of_eq
  -- The relation becomes transitive when the start of a token is left out of its ends.
  have : IsTrans Token fun t u => t.stop ≤ u.start :=
    ⟨fun t u v htu huv => htu.trans ((Nat.le_add_right u.start u.chars.length).trans huv)⟩
  exact List.isChain_iff_pairwise.mp hchain

theorem Token.successive_scan (source : List Char) : Token.Successive (Token.scan source) :=
  Token.successive_of_abut (Token.scanFrom_splits 0 source).ends.2.1

namespace Tree

mutual

/-- A walk passes the tokens of a tree in their order. -/
theorem tokens_walk (above : List Tree) : ∀ t : Tree,
    (walk above t).filterMap (fun p => p.1.token?) = tokens [t]
  | .leaf _ _ => rfl
  | .node k a b cs => by
    rw [walk, List.filterMap_cons_none rfl, tokens_walkList, tokens_node]
    exact (List.append_nil _).symm

theorem tokens_walkList (above : List Tree) : ∀ cs : List Tree,
    (walkList above cs).filterMap (fun p => p.1.token?) = tokens cs
  | [] => rfl
  | c :: cs => by
    rw [walkList, List.filterMap_append, tokens_walk above c, tokens_walkList above cs,
      ← tokens_append, List.singleton_append]

end

mutual

/-- The leaves that a walk passes are those of the tree. -/
theorem leaves_walk (above : List Tree) : ∀ t : Tree,
    ((walk above t).filter fun p => p.1.isLeaf).map (·.1) = leaves t
  | .leaf _ _ => rfl
  | .node k a b cs => by
    rw [walk, List.filter_cons_of_neg Bool.false_ne_true, leaves_walkList]
    rfl

theorem leaves_walkList (above : List Tree) : ∀ cs : List Tree,
    ((walkList above cs).filter fun p => p.1.isLeaf).map (·.1) = leavesOfList cs
  | [] => rfl
  | c :: cs => by
    rw [walkList, List.filter_append, List.map_append, leaves_walk above c,
      leaves_walkList above cs]
    rfl

end

def touches (offset : Int) (t : Tree) : Bool :=
  t.start < offset && offset ≤ t.stop

theorem touches_leaf_iff (k : NodeKind) (t : Token) (offset : Nat) :
    (Tree.leaf k t).touches offset = true ↔ t.Touches offset := by
  simp only [touches, Tree.start, Tree.stop, Token.Touches, Bool.and_eq_true, decide_eq_true_eq,
    Int.ofNat_lt, Int.ofNat_le]

def nearer (offset : Int) (best : Option (Tree × List Tree)) (p : Tree × List Tree) :
    Option (Tree × List Tree) :=
  if p.1.isLeaf && ((p.1.start < offset && offset ≤ p.1.stop) ||
      (p.1.start == offset && best.isNone)) then some p else best

theorem leafAt_eq (t : Tree) (offset : Int) :
    t.leafAt offset = (t.walk []).foldl (nearer offset) none := rfl

variable {offset : Nat} {ps : List (Tree × List Tree)}

/-- A leaf is taken if its token touches the cursor, or stands at it and is the first to do so. -/
theorem nearer_leaf (best : Option (Tree × List Tree)) (k : NodeKind) (t : Token)
    (above : List Tree) : nearer offset best (.leaf k t, above) =
      if t.Touches offset ∨ (t.start = offset ∧ best = none) then some (.leaf k t, above)
      else best := by
  have hcond : ((Tree.leaf k t).isLeaf && (((Tree.leaf k t).start < (offset : Int) &&
      (offset : Int) ≤ (Tree.leaf k t).stop) ||
        ((Tree.leaf k t).start == (offset : Int) && best.isNone))) = true ↔
      t.Touches offset ∨ (t.start = offset ∧ best = none) := by
    simp only [isLeaf, token?, Option.isSome_some, Bool.true_and, Bool.or_eq_true,
      Bool.and_eq_true, decide_eq_true_eq, beq_iff_eq, Option.isNone_iff_eq_none]
    simp only [Tree.start, Tree.stop, Token.Touches, Int.ofNat_lt, Int.ofNat_le, Int.natCast_inj]
  rw [nearer]
  exact if_congr hcond rfl rfl

theorem foldl_nearer_of_ended (best : Option (Tree × List Tree))
    (h : ∀ t ∈ ps.filterMap fun p => p.1.token?, t.stop < offset) :
    ps.foldl (nearer offset) best = best := by
  induction ps with
  | nil => rfl
  | cons p ps ih =>
    obtain ⟨n, above⟩ := p
    cases n with
    | node => exact ih h
    | leaf k t =>
      obtain ⟨ht, hts⟩ := List.forall_mem_cons.mp h
      have hstart : t.start ≤ t.stop := Nat.le_add_right _ _
      rw [List.foldl_cons, nearer_leaf, if_neg, ih hts]
      rintro (⟨-, hstop⟩ | ⟨heq, -⟩) <;> omega

theorem foldl_nearer_of_begun {best : Tree × List Tree}
    (h : ∀ t ∈ ps.filterMap fun p => p.1.token?, offset ≤ t.start) :
    ps.foldl (nearer offset) (some best) = some best := by
  induction ps with
  | nil => rfl
  | cons p ps ih =>
    obtain ⟨n, above⟩ := p
    cases n with
    | node => exact ih h
    | leaf k t =>
      obtain ⟨ht, hts⟩ := List.forall_mem_cons.mp h
      rw [List.foldl_cons, nearer_leaf, if_neg, ih hts]
      rintro (⟨hstart, -⟩ | ⟨-, hnone⟩)
      · exact Nat.not_lt.mpr ht hstart
      · cases hnone

/-- The leaf of the token that ends at or covers a cursor is the leaf at the cursor. -/
theorem leafAt_of_touches {tree : Tree} {t : Token} (hts : Token.Successive (tokens [tree]))
    (ht : t ∈ tokens [tree]) (htouches : t.Touches offset) :
    ∃ k above, (.leaf k t, above) ∈ tree.walk [] ∧
      tree.leafAt offset = some (.leaf k t, above) := by
  rw [← tokens_walk []] at ht hts
  obtain ⟨⟨n, above⟩, hwalk, htoken⟩ := List.mem_filterMap.mp ht
  cases n with
  | node => cases htoken
  | leaf k u =>
    obtain rfl : u = t := Option.some.inj htoken
    refine ⟨k, above, hwalk, ?_⟩
    obtain ⟨before, after, hsplit⟩ := List.append_of_mem hwalk
    rw [hsplit, List.filterMap_append,
      List.filterMap_cons_some (f := fun p : Tree × List Tree => p.1.token?) htoken] at hts
    obtain ⟨-, hlater, hearlier⟩ := List.pairwise_append.mp hts
    obtain ⟨hlater, -⟩ := List.pairwise_cons.mp hlater
    have hended : ∀ v ∈ before.filterMap fun p => p.1.token?, v.stop < offset := fun v hv =>
      (hearlier v hv u List.mem_cons_self).trans_lt htouches.1
    have hbegun : ∀ v ∈ after.filterMap fun p => p.1.token?, offset ≤ v.start := fun v hv =>
      htouches.2.trans (hlater v hv)
    rw [leafAt_eq, hsplit, List.foldl_append, foldl_nearer_of_ended none hended,
      List.foldl_cons, nearer_leaf, if_pos (.inl htouches), foldl_nearer_of_begun hbegun]

/-- The first leaf is taken for a cursor in front of the text. -/
theorem leafAt_first {tree : Tree} {t : Token} {ts : List Token} (hts : tokens [tree] = t :: ts)
    (hstart : t.start = 0) :
    ∃ l above, tree.leafAt 0 = some (l, above) ∧ tree.leaves.head? = some l := by
  rw [← tokens_walk []] at hts
  obtain ⟨before, ⟨n, above⟩, after, hsplit, hnodes, htoken, -⟩ := List.filterMap_eq_cons_iff.mp hts
  cases n with
  | node => cases htoken
  | leaf k u =>
    obtain rfl : u = t := Option.some.inj htoken
    have hnone : (before.filterMap fun p => p.1.token?) = [] := List.filterMap_eq_nil_iff.mpr hnodes
    have hskipped : (before.filter fun p => p.1.isLeaf) = [] := by
      refine List.filter_eq_nil_iff.mpr fun p hp => ?_
      rw [isLeaf, hnodes p hp]
      decide
    refine ⟨.leaf k u, above, ?_, ?_⟩
    · show tree.leafAt (0 : Nat) = _
      rw [leafAt_eq, hsplit, List.foldl_append,
        foldl_nearer_of_ended none (hnone.symm ▸ List.forall_mem_nil _), List.foldl_cons,
        nearer_leaf, if_pos (.inr ⟨hstart, rfl⟩), foldl_nearer_of_begun fun v _ => Nat.zero_le _]
    · rw [← leaves_walk [], hsplit, List.filter_append, hskipped]
      rfl

/-- Where no token touches the cursor or begins at it, there is no leaf. -/
theorem leafAt_eq_none {tree : Tree} {here : Int}
    (h : ∀ t ∈ tokens [tree], ¬ ((t.start : Int) < here ∧ here ≤ t.stop) ∧ (t.start : Int) ≠ here) :
    tree.leafAt here = none := by
  rw [← tokens_walk []] at h
  rw [leafAt_eq]
  generalize tree.walk [] = ps at h
  induction ps with
  | nil => rfl
  | cons p ps ih =>
    obtain ⟨n, above⟩ := p
    cases n with
    | node => exact ih h
    | leaf k t =>
      obtain ⟨⟨htouches, hstart⟩, hts⟩ := List.forall_mem_cons.mp h
      have hmiss : nearer here none (.leaf k t, above) = none := by
        refine if_neg ?_
        simp only [isLeaf, token?, Option.isSome_some, Bool.true_and, Bool.or_eq_true,
          Bool.and_eq_true, decide_eq_true_eq, beq_iff_eq, not_or]
        exact ⟨htouches, fun hbegins => hstart hbegins.1⟩
      rw [List.foldl_cons, hmiss, ih hts]

/-- A leaf that has ended before the cursor, or begins at or behind it, does not touch it. -/
theorem filter_touches_eq_nil {ls : List Tree} (hls : ∀ l ∈ ls, ∃ k token, l = .leaf k token)
    (h : ∀ t ∈ ls.filterMap token?, t.stop < offset ∨ offset ≤ t.start) :
    ls.filter (touches offset) = [] := by
  refine List.filter_eq_nil_iff.mpr fun l hl => ?_
  obtain ⟨k, t, rfl⟩ := hls l hl
  have ht := h t (List.mem_filterMap.mpr ⟨_, hl, rfl⟩)
  rw [touches_leaf_iff, Token.Touches]
  omega

/-- At most one leaf of a tree touches a cursor. -/
theorem filter_touches {tree : Tree} (hts : Token.Successive (tokens [tree])) {k : NodeKind}
    {t : Token} (ht : .leaf k t ∈ tree.leaves) (htouches : t.Touches offset) :
    tree.leaves.filter (touches offset) = [.leaf k t] := by
  have hone : tokens [tree] = tree.leaves.filterMap token? :=
    congrArg (List.filterMap token?) (List.append_nil tree.leaves)
  have hleaf : ∀ l ∈ tree.leaves, ∃ k token, l = .leaf k token := fun l hl =>
    eq_leaf_of_mem_leaves hl
  have hhere := (touches_leaf_iff k t offset).mpr htouches
  rw [hone] at hts
  generalize tree.leaves = ls at ht hts hleaf
  obtain ⟨before, after, rfl⟩ := List.append_of_mem ht
  rw [List.filterMap_append, List.filterMap_cons_some (f := token?) (b := t) rfl] at hts
  obtain ⟨-, hlater, hearlier⟩ := List.pairwise_append.mp hts
  obtain ⟨hlater, -⟩ := List.pairwise_cons.mp hlater
  have hbefore : before.filter (touches offset) = [] :=
    filter_touches_eq_nil (fun l hl => hleaf l (List.mem_append_left _ hl)) fun u hu =>
      .inl ((hearlier u hu t List.mem_cons_self).trans_lt htouches.1)
  have hafter : after.filter (touches offset) = [] :=
    filter_touches_eq_nil
      (fun l hl => hleaf l (List.mem_append_right _ (List.mem_cons_of_mem _ hl)))
      fun u hu => .inr (htouches.2.trans (hlater u hu))
  rw [List.filter_append, List.filter_cons_of_pos hhere, hbefore, hafter, List.nil_append]

theorem foldl_nearer_mem {here : Int} {p : Tree × List Tree} (best : Option (Tree × List Tree))
    (h : ps.foldl (nearer here) best = some p) :
    best = some p ∨ (p ∈ ps ∧ p.1.isLeaf = true) := by
  induction ps generalizing best with
  | nil => exact .inl h
  | cons q ps ih =>
    rcases ih (nearer here best q) h with hq | ⟨hmem, hleaf⟩
    · rw [nearer] at hq
      split at hq
      case isTrue hhit =>
        obtain rfl : q = p := Option.some.inj hq
        exact .inr ⟨List.mem_cons_self, (Bool.and_eq_true_iff.mp hhit).1⟩
      case isFalse => exact .inl hq
    · exact .inr ⟨List.mem_cons_of_mem _ hmem, hleaf⟩

/-- What stands at a cursor is a leaf of the tree. -/
theorem leafAt_mem {tree : Tree} {here : Int} {p : Tree × List Tree}
    (h : tree.leafAt here = some p) : p ∈ tree.walk [] ∧ p.1.isLeaf = true := by
  rcases foldl_nearer_mem none h with hnone | hmem
  · cases hnone
  · exact hmem

end Tree

end PolicyEditor
