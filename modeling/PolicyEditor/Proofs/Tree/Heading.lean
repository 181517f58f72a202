import PolicyEditor.Proofs.Tree.Clean
import PolicyEditor.Proofs.Tree.Reading

/-!
What stands in the heading of a declaration: the tokens outside its indexes and its arguments. A
property of every node of a bare tree is one of every node of the dressed tree without its blanks
and comments, so headings can be looked at as the grammar makes them.
-/

namespace PolicyEditor.Tree

def opensIndex : Tree → Bool
  | .leaf _ t => t.kind == .mark .lbracket
  | .node _ _ _ _ => false

mutual

/-- The tokens of a bare tree that stand outside its indexes and argument lists. Their opening
brackets count as outside. -/
def outside : Tree → List Token
  | .leaf _ t => [t]
  | .node k _ _ cs => if k = .argumentList then (tokens cs).take 1 else outsideAll 0 cs

/-- The same for nodes in order, the first `skip` of them left out: after the opening bracket of an
index come its value and its closing bracket. -/
def outsideAll : (skip : Nat) → List Tree → List Token
  | _, [] => []
  | skip + 1, _ :: cs => outsideAll skip cs
  | 0, c :: cs => outside c ++ outsideAll (if c.opensIndex then 2 else 0) cs

end

/-- The tokens of a node that stand outside its indexes and argument lists, blanks and comments left
out. -/
def heading (t : Tree) : List Token :=
  t.bare.outside

theorem outsideAll_leaf {k : NodeKind} {t : Token} (h : t.kind ≠ .mark .lbracket)
    (cs : List Tree) : outsideAll 0 (.leaf k t :: cs) = t :: outsideAll 0 cs := by
  rw [outsideAll, outside, opensIndex, beq_eq_false_iff_ne.mpr h]
  rfl

theorem outsideAll_index {k : NodeKind} {t : Token} (h : t.kind = .mark .lbracket)
    (value closer : Tree) (cs : List Tree) :
    outsideAll 0 (.leaf k t :: value :: closer :: cs) = t :: outsideAll 0 cs := by
  rw [outsideAll, outside, opensIndex, beq_iff_eq.mpr h]
  rfl

theorem bareList_cons {c : Tree} (h : c.isTrivia = false) (cs : List Tree) :
    bareList (c :: cs) = bare c :: bareList cs := by
  rw [bareList, h]
  rfl

/-! ### Every node -/

mutual

/-- Every node of a tree has a property, blanks and comments in it left out. -/
def Every (P : Tree → Prop) : Tree → Prop
  | .leaf _ _ => True
  | .node k a b cs => P (bare (.node k a b cs)) ∧ EveryOf P cs

def EveryOf (P : Tree → Prop) : List Tree → Prop
  | [] => True
  | c :: cs => Every P c ∧ EveryOf P cs

end

variable {P Q : Tree → Prop}

theorem EveryOf.append {cs ds : List Tree} (h : EveryOf P cs) (h' : EveryOf P ds) :
    EveryOf P (cs ++ ds) := by
  induction cs with
  | nil => exact h'
  | cons c cs ih => exact ⟨h.1, ih h.2⟩

theorem everyOf_map_ofToken (ts : List Token) : EveryOf P (ts.map ofToken) := by
  induction ts with
  | nil => trivial
  | cons t ts ih => exact ⟨trivial, ih⟩

theorem Every.enclose {k : NodeKind} {here : Nat} {cs : List Tree}
    (h : P (bare (.enclose k here cs))) (hcs : EveryOf P cs) : Every P (.enclose k here cs) :=
  ⟨h, hcs⟩

mutual

theorem Every.mono (hPQ : ∀ t, P t → Q t) : ∀ {t : Tree}, Every P t → Every Q t
  | .leaf _ _, _ => trivial
  | .node _ _ _ _, h => ⟨hPQ _ h.1, EveryOf.mono hPQ h.2⟩

theorem EveryOf.mono (hPQ : ∀ t, P t → Q t) : ∀ {cs : List Tree}, EveryOf P cs → EveryOf Q cs
  | [], _ => trivial
  | _ :: _, h => ⟨Every.mono hPQ h.1, EveryOf.mono hPQ h.2⟩

end

mutual

theorem Every.dress {pending : List Token} (htrivia : ∀ u ∈ pending, u.isTrivia = true) :
    ∀ {t : Tree}, Every P t → Every P (dress pending t).1
  | .leaf _ _, _ => trivial
  | .node k a b cs, h => by
    -- Dressing changes nothing of the bare node, which is all that the property is about.
    have hsame := (bare_dress pending (.node k a b cs) htrivia).1
    exact ⟨hsame.symm ▸ h.1, EveryOf.dressList htrivia h.2⟩

theorem EveryOf.dressList {pending : List Token} (htrivia : ∀ u ∈ pending, u.isTrivia = true) :
    ∀ {cs : List Tree}, EveryOf P cs → EveryOf P (dressList pending cs).1
  | [], _ => trivial
  | c :: cs, h => by
    have hinside : ∀ u ∈ notBefore pending c.start, u.isTrivia = true := fun u hu =>
      htrivia u (mem_of_mem_notBefore hu)
    have hlater : ∀ u ∈ (Tree.dress (notBefore pending c.start) c).2, u.isTrivia = true :=
      fun u hu => hinside u ((bare_dress _ c hinside).2 u hu)
    exact (everyOf_map_ofToken _).append ⟨Every.dress hinside h.1, EveryOf.dressList hlater h.2⟩

end

mutual

theorem Every.walk {above : List Tree} : ∀ {t : Tree}, Every P t →
    ∀ q ∈ walk above t, q.1.isLeaf = false → P q.1.bare
  | .leaf _ _, _, q, hq, hnode => by
    obtain rfl := List.mem_singleton.mp hq
    cases hnode
  | .node k a b cs, h, q, hq, hnode => by
    rcases List.mem_cons.mp hq with rfl | hq
    · exact h.1
    · exact EveryOf.walkList h.2 q hq hnode

theorem EveryOf.walkList {above : List Tree} : ∀ {cs : List Tree}, EveryOf P cs →
    ∀ q ∈ walkList above cs, q.1.isLeaf = false → P q.1.bare
  | [], _, _, hq, _ => absurd hq List.not_mem_nil
  | _ :: _, h, q, hq, hnode => by
    rcases List.mem_append.mp hq with hq | hq
    · exact Every.walk h.1 q hq hnode
    · exact EveryOf.walkList h.2 q hq hnode

end

end PolicyEditor.Tree
