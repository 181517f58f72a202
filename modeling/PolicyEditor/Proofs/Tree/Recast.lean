import PolicyEditor.Proofs.Tree.Clean
import PolicyEditor.Proofs.Tree.Reading

/-!
The structure of a tree: its nodes and the kinds of its tokens, without texts, offsets, blanks and
comments. Each token may be recast, that is, given another kind.
-/

namespace PolicyEditor

def Token.Kind.blank (k : Token.Kind) : Token :=
  ⟨k, [], 0⟩

namespace Tree

mutual

/-- The tree without texts and offsets, where tokens have the kinds that are given to them. -/
def recast (kind : Token → Token.Kind) : Tree → Tree
  | .leaf k t => .leaf k (kind t).blank
  | .node k _ _ cs => .node k 0 0 (recastAll kind cs)

def recastAll (kind : Token → Token.Kind) : List Tree → List Tree
  | [] => []
  | c :: cs => recast kind c :: recastAll kind cs

end

/-- The nodes of a tree and the kinds of its tokens, blanks and comments left out. -/
def skeleton (t : Tree) : Tree :=
  t.bare.recast Token.kind

variable (kind : Token → Token.Kind)

theorem recastAll_eq_map (cs : List Tree) : recastAll kind cs = cs.map (recast kind) := by
  induction cs with
  | nil => rfl
  | cons c cs ih => rw [recastAll, ih, List.map_cons]

theorem start_recast (t : Tree) : (t.recast kind).start = 0 := by
  cases t <;> rfl

theorem stop_recast (t : Tree) : (t.recast kind).stop = 0 := by
  cases t <;> rfl

theorem recast_enclose (k : NodeKind) (here : Nat) (cs : List Tree) :
    (enclose k here cs).recast kind = enclose k 0 (cs.map (recast kind)) := by
  have hends : ∀ (o : Option Tree) (f : Tree → Nat), (∀ t : Tree, f (t.recast kind) = 0) →
      ((o.map (recast kind)).map f).getD 0 = 0 := by
    intro o f hf
    cases o with
    | none => rfl
    | some t => exact hf t
  rw [enclose, enclose, recast, recastAll_eq_map, List.head?_map, List.getLast?_map,
    hends _ _ (start_recast kind), hends _ _ (stop_recast kind)]

theorem isTrivia_recast (t : Tree) : (t.recast kind).isTrivia = t.isTrivia := by
  cases t <;> rfl

mutual

theorem bare_recast : ∀ t : Tree, (t.recast kind).bare = t.bare.recast kind
  | .leaf _ _ => rfl
  | .node k _ _ cs => congrArg (Tree.node k 0 0) (bareList_recastAll cs)

theorem bareList_recastAll : ∀ cs : List Tree,
    bareList (recastAll kind cs) = recastAll kind (bareList cs)
  | [] => rfl
  | c :: cs => by
    have hcs := bareList_recastAll cs
    rw [recastAll, bareList, isTrivia_recast, bareList]
    split
    · exact hcs
    · rw [recastAll, bare_recast c, hcs]

end

/-! ### Tokens outside of error nodes -/

mutual

/-- Whether the error nodes of a tree hold none of the bound tokens. -/
def Spares (bound : Token → Bool) : Tree → Prop
  | .leaf _ _ => True
  | .node k _ _ cs => (k = .error → ∀ t ∈ topTokens cs, bound t = false) ∧ SparesAll bound cs

def SparesAll (bound : Token → Bool) : List Tree → Prop
  | [] => True
  | c :: cs => Spares bound c ∧ SparesAll bound cs

end

variable {bound : Token → Bool}

theorem SparesAll.append_iff {cs ds : List Tree} :
    SparesAll bound (cs ++ ds) ↔ SparesAll bound cs ∧ SparesAll bound ds := by
  induction cs with
  | nil => exact (iff_of_eq (true_and _)).symm
  | cons c cs ih => rw [List.cons_append, SparesAll, SparesAll, ih, and_assoc]

mutual

/-- Nothing is bound. -/
theorem spares_of_none (h : ∀ t, bound t = false) : ∀ t : Tree, Spares bound t
  | .leaf _ _ => trivial
  | .node _ _ _ cs => ⟨fun _ t _ => h t, sparesAll_of_none h cs⟩

theorem sparesAll_of_none (h : ∀ t, bound t = false) : ∀ cs : List Tree, SparesAll bound cs
  | [] => trivial
  | c :: cs => ⟨spares_of_none h c, sparesAll_of_none h cs⟩

end

end Tree

end PolicyEditor
