import PolicyEditor.Proofs.Tree.Ancestors

/-!
Places in a tree. A place is told by the nodes above it, each with the children to the left and to
the right of the way down; filling it gives the tree back. Every node that a walk comes to stands
in such a place, and in a well formed tree all that is on the way there is well formed.
-/

namespace PolicyEditor.Tree

def isMark (sign : Mark) (t : Tree) : Bool :=
  t.token?.any fun u => u.kind == .mark sign

theorem filter_eq_nil_of_trivia {cs : List Tree} (h : cs.all isTrivia = true) :
    (cs.filter fun c => !c.isTrivia) = [] := by
  refine List.filter_eq_nil_iff.mpr fun c hc => ?_
  rw [List.all_eq_true.mp h c hc]
  decide

theorem notMem_of_trivia {cs : List Tree} {t : Tree} (hcs : cs.all isTrivia = true)
    (ht : t.isTrivia = false) : t ∉ cs := by
  intro hmem
  rw [List.all_eq_true.mp hcs t hmem] at ht
  cases ht

/-- Children are divided in one way only by a child that is not found on both sides. -/
theorem split_unique {left left' right right' : List Tree} {t u : Tree}
    (h : left ++ t :: right = left' ++ u :: right') (ht : t ∉ left' ∨ u ∉ right)
    (hu : u ∉ left ∨ t ∉ right') : left = left' ∧ t = u ∧ right = right' := by
  -- One of the left sides begins the other, and what is more of it would hold the other child.
  rcases List.append_eq_append_iff.mp h with ⟨more, rfl, hright⟩ | ⟨more, rfl, hright⟩
  · cases more with
    | nil =>
      obtain ⟨rfl, rfl⟩ := List.cons.inj hright
      exact ⟨(List.append_nil left).symm, rfl, rfl⟩
    | cons c more =>
      obtain ⟨rfl, rfl⟩ := List.cons.inj hright
      have hmem : t ∈ left ++ t :: more := List.mem_append_right _ List.mem_cons_self
      have hmem' : u ∈ more ++ u :: right' := List.mem_append_right _ List.mem_cons_self
      exact ht.elim (absurd hmem) (absurd hmem')
  · cases more with
    | nil =>
      obtain ⟨rfl, rfl⟩ := List.cons.inj hright
      exact ⟨List.append_nil left', rfl, rfl⟩
    | cons c more =>
      obtain ⟨rfl, rfl⟩ := List.cons.inj hright
      have hmem : u ∈ left' ++ u :: more := List.mem_append_right _ List.mem_cons_self
      have hmem' : t ∈ more ++ t :: right := List.mem_append_right _ List.mem_cons_self
      exact hu.elim (absurd hmem) (absurd hmem')

/-- A node with a gap among its children. -/
@[ext]
structure Frame where
  kind : NodeKind
  start : Nat
  stop : Nat
  left : List Tree
  right : List Tree

namespace Frame

def fill (f : Frame) (t : Tree) : Tree :=
  .node f.kind f.start f.stop (f.left ++ t :: f.right)

def before (f : Frame) : List Tree :=
  f.left.filter fun c => !c.isTrivia

def after (f : Frame) : List Tree :=
  f.right.filter fun c => !c.isTrivia

/-- Nothing but blanks and comments stands to the left of the gap. -/
def first (f : Frame) : Bool :=
  f.left.all isTrivia

/-- Nothing but blanks and comments stands to the right of the gap. -/
def last (f : Frame) : Bool :=
  f.right.all isTrivia

def follows (sign : Mark) (f : Frame) : Bool :=
  f.before.getLast?.any (isMark sign)

theorem before_eq_nil {f : Frame} (h : f.first = true) : f.before = [] :=
  filter_eq_nil_of_trivia h

theorem after_eq_nil {f : Frame} (h : f.last = true) : f.after = [] :=
  filter_eq_nil_of_trivia h

theorem not_first_of_follows {f : Frame} {sign : Mark} (h : f.follows sign = true) :
    f.first = false := by
  rw [← Bool.not_eq_true]
  intro hfirst
  rw [follows, before_eq_nil hfirst] at h
  cases h

theorem not_follows_of_follows {f : Frame} {sign other : Mark} (h : f.follows sign = true)
    (hne : sign ≠ other) : f.follows other = false := by
  rw [← Bool.not_eq_true]
  intro hother
  obtain ⟨d, hd, hsign⟩ := (Option.any_eq_true _ _).mp h
  rw [follows, hd] at hother
  cases d with
  | node => cases hsign
  | leaf k u =>
    have hkind : u.kind = .mark sign := beq_iff_eq.mp hsign
    have hkind' : u.kind = .mark other := beq_iff_eq.mp hother
    rw [hkind] at hkind'
    exact hne (Token.Kind.mark.inj hkind')

theorem eq_of_fill_eq {f g : Frame} {t u : Tree} (h : f.fill t = g.fill u)
    (ht : t ∉ g.left ∨ u ∉ f.right) (hu : u ∉ f.left ∨ t ∉ g.right) : f = g ∧ t = u := by
  rw [fill, fill, Tree.node.injEq] at h
  obtain ⟨hkind, hstart, hstop, hchildren⟩ := h
  obtain ⟨hleft, rfl, hright⟩ := split_unique hchildren ht hu
  exact ⟨Frame.ext hkind hstart hstop hleft hright, rfl⟩

theorem eq_of_first {f g : Frame} {t u : Tree} (h : f.fill t = g.fill u) (hf : f.first = true)
    (hg : g.first = true) (ht : t.isTrivia = false) (hu : u.isTrivia = false) : f = g ∧ t = u :=
  eq_of_fill_eq h (.inl (notMem_of_trivia hg ht)) (.inl (notMem_of_trivia hf hu))

theorem eq_of_last {f g : Frame} {t u : Tree} (h : f.fill t = g.fill u) (hf : f.last = true)
    (hg : g.last = true) (ht : t.isTrivia = false) (hu : u.isTrivia = false) : f = g ∧ t = u :=
  eq_of_fill_eq h (.inr (notMem_of_trivia hf hu)) (.inr (notMem_of_trivia hg ht))

end Frame

/-- The tree with a node in a place of it; the innermost frame comes first. -/
def plug : List Frame → Tree → Tree
  | [], t => t
  | f :: fs, t => plug fs (f.fill t)

def above : List Frame → Tree → List Tree
  | [], _ => []
  | f :: fs, t => above fs (f.fill t) ++ [f.fill t]

theorem plug_append (fs gs : List Frame) (t : Tree) : plug (fs ++ gs) t = plug gs (plug fs t) := by
  induction fs generalizing t with
  | nil => rfl
  | cons f fs ih => exact ih (f.fill t)

theorem above_append (fs gs : List Frame) (t : Tree) :
    above (fs ++ gs) t = above gs (plug fs t) ++ above fs t := by
  induction fs generalizing t with
  | nil => exact (List.append_nil _).symm
  | cons f fs ih => rw [List.cons_append, above, ih, above, plug, List.append_assoc]

theorem plug_injective {fs : List Frame} {t u : Tree} (h : plug fs t = plug fs u) : t = u := by
  induction fs generalizing t u with
  | nil => exact h
  | cons f fs ih =>
    have hfill := ih h
    rw [Frame.fill, Frame.fill, Tree.node.injEq] at hfill
    exact (List.cons.inj (List.append_cancel_left hfill.2.2.2)).1

/-- What leads down to a node is a place of it. -/
theorem Leads.exists_plug {tree n : Tree} {path : List Tree} (h : Leads tree path n) :
    ∃ fs, plug fs n = tree ∧ above fs n = path := by
  induction h with
  | here t => exact ⟨[], rfl, rfl⟩
  | @child k a b cs path c n hc _ ih =>
    obtain ⟨fs, hplug, habove⟩ := ih
    obtain ⟨left, right, rfl⟩ := List.append_of_mem hc
    refine ⟨fs ++ [⟨k, a, b, left, right⟩], ?_, ?_⟩
    · rw [plug_append, hplug]
      rfl
    · rw [above_append, hplug, habove]
      rfl

/-- A walk comes to a node in a place of it. -/
theorem exists_plug_of_mem_walk {tree : Tree} {p : Tree × List Tree} (hp : p ∈ tree.walk []) :
    ∃ fs, plug fs p.1 = tree ∧ above fs p.1 = p.2 := by
  obtain ⟨path, hpath, hleads⟩ := leads_of_mem_walk hp
  rw [hpath]
  exact hleads.exists_plug

/-! ### Well formed trees -/

def declares (fs : List Frame) : Bool :=
  fs.head?.any fun f => f.kind.declares

theorem Formed.right_of_append {declared : Bool} {cs ds : List Tree}
    (h : Formed declared (cs ++ ds)) : Formed declared ds := by
  induction cs with
  | nil => exact h
  | cons c cs ih =>
    cases h with
    | leaf _ hcs => exact ih hcs
    | node _ _ hcs => exact ih hcs

theorem Formed.head {declared : Bool} {c : Tree} {cs : List Tree}
    (h : Formed declared (c :: cs)) : Formed declared [c] := by
  cases h with
  | leaf hleaf _ => exact .leaf hleaf (.nil declared)
  | node hfits hinner _ => exact .node hfits hinner (.nil declared)

theorem Formed.of_plug {fs : List Frame} {t : Tree} (h : Formed false [plug fs t]) :
    Formed (declares fs) [t] := by
  induction fs generalizing t with
  | nil => exact h
  | cons f fs ih =>
    cases ih h with
    | node _ hinner _ => exact hinner.right_of_append.head

/-- The faces of a node's children, around one of them. -/
theorem Frame.facesOf_fill (f : Frame) {t : Tree} (ht : t.isTrivia = false) :
    facesOf (f.left ++ t :: f.right) = f.before.map face ++ t.face :: f.after.map face := by
  rw [facesOf_append, facesOf_cons ht]
  rfl

theorem Formed.fits_of_plug {f : Frame} {fs : List Frame} {t : Tree}
    (h : Formed false [plug (f :: fs) t]) (ht : t.isTrivia = false) :
    Fits (declares fs) f.kind (f.before.map face ++ t.face :: f.after.map face) := by
  have hplug : Formed false [plug fs (f.fill t)] := h
  rw [← f.facesOf_fill ht]
  cases hplug.of_plug with
  | node hfits _ _ => exact hfits

theorem Formed.fill_not_trivia {f : Frame} {fs : List Frame} {t : Tree}
    (h : Formed false [plug (f :: fs) t]) : (f.fill t).isTrivia = false := by
  have hplug : Formed false [plug fs (f.fill t)] := h
  cases hplug.of_plug with
  | node hfits _ _ => exact hfits.not_trivia

end PolicyEditor.Tree
