import PolicyEditor.Tree.Trivia

/-!
What it means that trees read a stretch of tokens: their leaves are these tokens one by one, and
every other node is the one that `enclose` puts over its children where it stands.
-/

namespace PolicyEditor.Tree

/-- Where the next token begins; behind the last one that is the end of the text. -/
def startOf (eof : Nat) : List Token → Nat
  | [] => eof
  | t :: _ => t.start

/-- The trees, in order, read the first list of tokens down to the second one. -/
inductive Reads (eof : Nat) : List Token → List Tree → List Token → Prop where
  | nil (ts : List Token) : Reads eof ts [] ts
  | leaf (k : NodeKind) (t : Token) {ts rest : List Token} {cs : List Tree} :
      Reads eof ts cs rest → Reads eof (t :: ts) (.leaf k t :: cs) rest
  | node (k : NodeKind) {ts mid rest : List Token} {cs ds : List Tree} :
      Reads eof ts cs mid → Reads eof mid ds rest →
      Reads eof ts (enclose k (startOf eof mid) cs :: ds) rest

namespace Reads

variable {eof : Nat} {ts mid rest : List Token} {cs ds : List Tree}

theorem append (h : Reads eof ts cs mid) (h' : Reads eof mid ds rest) :
    Reads eof ts (cs ++ ds) rest := by
  induction h with
  | nil => exact h'
  | leaf k t _ ih => exact .leaf k t (ih h')
  | node k inner _ _ ih => exact .node k inner (ih h')

theorem enclosed (k : NodeKind) (h : Reads eof ts cs mid) :
    Reads eof ts [enclose k (startOf eof mid) cs] mid :=
  .node k h (.nil mid)

/-- Trees begin where the tokens that they read begin. -/
theorem start_eq (h : Reads eof ts cs mid) :
    (cs.head?.map start).getD (startOf eof mid) = startOf eof ts := by
  induction h with
  | nil => rfl
  | leaf => rfl
  | node k _ _ inner _ => exact inner

theorem placeholder (k : NodeKind) (ts : List Token) :
    Reads eof ts [enclose k (startOf eof ts) []] ts :=
  enclosed k (.nil ts)

theorem length_le (h : Reads eof ts cs rest) : rest.length ≤ ts.length := by
  induction h with
  | nil => exact Nat.le_refl _
  | leaf _ _ _ ih => exact Nat.le_succ_of_le ih
  | node _ _ _ inner outer => exact Nat.le_trans outer inner

end Reads

mutual

/-- What stands at the bottom of a tree is a token. -/
theorem eq_leaf_of_mem_leaves {l : Tree} : ∀ {t : Tree}, l ∈ leaves t → ∃ k token, l = .leaf k token
  | .leaf k token, h => ⟨k, token, List.mem_singleton.mp h⟩
  | .node _ _ _ _, h => eq_leaf_of_mem_leavesOfList h

theorem eq_leaf_of_mem_leavesOfList {l : Tree} :
    ∀ {cs : List Tree}, l ∈ leavesOfList cs → ∃ k token, l = .leaf k token
  | [], h => absurd h List.not_mem_nil
  | _ :: _, h => by
    rcases List.mem_append.mp h with h | h
    · exact eq_leaf_of_mem_leaves h
    · exact eq_leaf_of_mem_leavesOfList h

end

theorem leavesOfList_append (cs ds : List Tree) :
    leavesOfList (cs ++ ds) = leavesOfList cs ++ leavesOfList ds := by
  induction cs with
  | nil => rfl
  | cons c cs ih => simp only [List.cons_append, leavesOfList, ih, List.append_assoc]

def tokens (cs : List Tree) : List Token :=
  (leavesOfList cs).filterMap token?

theorem tokens_append (cs ds : List Tree) : tokens (cs ++ ds) = tokens cs ++ tokens ds := by
  rw [tokens, leavesOfList_append, List.filterMap_append]
  rfl

@[simp] theorem tokens_leaf (k : NodeKind) (t : Token) (cs : List Tree) :
    tokens (.leaf k t :: cs) = t :: tokens cs := rfl

@[simp] theorem tokens_node (k : NodeKind) (a b : Nat) (cs ds : List Tree) :
    tokens (.node k a b cs :: ds) = tokens cs ++ tokens ds := by
  rw [tokens, leavesOfList, List.filterMap_append]
  rfl

def topTokens (cs : List Tree) : List Token :=
  cs.filterMap token?

@[simp] theorem topTokens_leaf (k : NodeKind) (t : Token) (cs : List Tree) :
    topTokens (.leaf k t :: cs) = t :: topTokens cs := rfl

@[simp] theorem topTokens_node (k : NodeKind) (a b : Nat) (cs ds : List Tree) :
    topTokens (.node k a b cs :: ds) = topTokens ds := rfl

theorem tokens_map_ofToken (ts : List Token) : tokens (ts.map ofToken) = ts := by
  induction ts with
  | nil => rfl
  | cons t ts ih => exact congrArg (t :: ·) ih

/-- The tokens of trees are those that they read. -/
theorem Reads.tokens_append_rest {eof : Nat} {ts rest : List Token} {cs : List Tree}
    (h : Reads eof ts cs rest) : tokens cs ++ rest = ts := by
  induction h with
  | nil => rfl
  | leaf k t _ ih => rw [tokens_leaf, List.cons_append, ih]
  | node k _ _ inner outer => rw [enclose, tokens_node, List.append_assoc, outer, inner]

end PolicyEditor.Tree
