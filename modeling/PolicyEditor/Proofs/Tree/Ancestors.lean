import PolicyEditor.Proofs.Tree.Tiling

/-!
The ancestors of a node. A walk gives each node with the nodes that lead down to it, and where a
tree has no gaps their ranges lie around the range of the node.
-/

namespace PolicyEditor.Tree

/-- The nodes that lead from a tree down to a node of it, outermost first and without the node. -/
inductive Leads : (tree : Tree) → List Tree → (n : Tree) → Prop where
  | here (t : Tree) : Leads t [] t
  | child {k : NodeKind} {a b : Nat} {cs above : List Tree} {c n : Tree} :
      c ∈ cs → Leads c above n → Leads (.node k a b cs) (.node k a b cs :: above) n

mutual

theorem leads_of_mem_walk {p : Tree × List Tree} {above : List Tree} :
    ∀ {t : Tree}, p ∈ walk above t → ∃ path, p.2 = above ++ path ∧ Leads t path p.1
  | .leaf k t, hp => by
    obtain rfl := List.mem_singleton.mp hp
    exact ⟨[], (List.append_nil above).symm, .here _⟩
  | .node k a b cs, hp => by
    rcases List.mem_cons.mp hp with rfl | hp
    · exact ⟨[], (List.append_nil above).symm, .here _⟩
    · obtain ⟨c, hc, path, hpath, hleads⟩ := leads_of_mem_walkList hp
      exact ⟨_, by rw [hpath, List.append_assoc]; rfl, .child hc hleads⟩

theorem leads_of_mem_walkList {p : Tree × List Tree} {above : List Tree} :
    ∀ {cs : List Tree}, p ∈ walkList above cs →
      ∃ c ∈ cs, ∃ path, p.2 = above ++ path ∧ Leads c path p.1
  | c :: cs, hp => by
    rcases List.mem_append.mp hp with hp | hp
    · exact ⟨c, List.mem_cons_self, leads_of_mem_walk hp⟩
    · obtain ⟨d, hd, hleads⟩ := leads_of_mem_walkList hp
      exact ⟨d, List.mem_cons_of_mem c hd, hleads⟩

end

namespace Leads

variable {tree n : Tree} {above : List Tree}

theorem head? (h : Leads tree above n) : (above ++ [n]).head? = some tree := by
  cases h <;> rfl

theorem isChain (h : Leads tree above n) : (above ++ [n]).IsChain fun a b => b ∈ a.children := by
  induction h with
  | here t => exact .singleton t
  | child hc hleads ih =>
    refine List.isChain_cons.mpr ⟨fun b hb => ?_, ih⟩
    obtain rfl := Option.some.inj (hleads.head?.symm.trans hb)
    exact hc

end Leads

/-! ### Ranges -/

mutual

theorem Tiled.start_le_stop : ∀ {t : Tree}, Tiled t → t.start ≤ t.stop
  | .leaf _ t, _ => Nat.le_add_right t.start t.chars.length
  | .node _ _ _ _, h => Tiles.le h.1

theorem Tiles.le : ∀ {cs : List Tree} {a b : Nat}, Tiles a cs b → a ≤ b
  | [], _, _, h => Nat.le_of_eq h
  | _ :: _, _, _, ⟨hstart, hc, hcs⟩ => hstart ▸ Nat.le_trans hc.start_le_stop (Tiles.le hcs)

end

theorem Tiles.mem {a b : Nat} {cs : List Tree} (h : Tiles a cs b) {c : Tree} (hc : c ∈ cs) :
    Tiled c ∧ a ≤ c.start ∧ c.stop ≤ b := by
  obtain ⟨before, after, rfl⟩ := List.append_of_mem hc
  obtain ⟨m, hbefore, rfl, htiled, hafter⟩ := tiles_append.mp h
  exact ⟨htiled, hbefore.le, hafter.le⟩

/-- A node covers just its children, and these have no gaps. A root, unlike the nodes below it, may
begin or end with blanks. -/
def Snug : Tree → Prop
  | .leaf _ _ => True
  | .node _ a b cs => Tiles a cs b

theorem Tiled.snug {t : Tree} (h : Tiled t) : Snug t := by
  cases t with
  | leaf => trivial
  | node => exact h.1

theorem Leads.within {tree n : Tree} {above : List Tree} (h : Leads tree above n)
    (htree : Snug tree) : (tree.start ≤ n.start ∧ n.stop ≤ tree.stop) ∧
      ∀ a ∈ above, a.start ≤ n.start ∧ n.stop ≤ a.stop := by
  induction h with
  | here t => exact ⟨⟨Nat.le_refl _, Nat.le_refl _⟩, List.forall_mem_nil _⟩
  | child hc _ ih =>
    obtain ⟨htiled, hlow, hhigh⟩ := Tiles.mem htree hc
    obtain ⟨⟨hstart, hstop⟩, habove⟩ := ih htiled.snug
    have hthis := And.intro (Nat.le_trans hlow hstart) (Nat.le_trans hstop hhigh)
    exact ⟨hthis, List.forall_mem_cons.mpr ⟨hthis, habove⟩⟩

end PolicyEditor.Tree
