import PolicyEditor.Proofs.Tree.Shape

/-!
Well formed trees: every node has the shape of its kind, its brackets come in pairs, and error nodes
hold nothing but tokens. Dressing a well formed tree with blanks and comments leaves it well formed,
and what is said of all its nodes can be said of each one with its ancestors.
-/

namespace PolicyEditor

namespace Tree

def face : Tree → Face
  | .leaf k t => .leaf k t
  | .node k _ _ cs => .node k cs.isEmpty

def facesOf (cs : List Tree) : List Face :=
  (cs.filter fun c => !c.isTrivia).map face

def faces (t : Tree) : List Face :=
  t.significant.map face

theorem facesOf_append (cs ds : List Tree) : facesOf (cs ++ ds) = facesOf cs ++ facesOf ds := by
  rw [facesOf, List.filter_append, List.map_append]
  rfl

theorem facesOf_cons {c : Tree} (h : c.isTrivia = false) (cs : List Tree) :
    facesOf (c :: cs) = c.face :: facesOf cs := by
  rw [facesOf, List.filter_cons_of_pos (by rw [h]; rfl), List.map_cons]
  rfl

theorem facesOf_cons_trivia {c : Tree} (h : c.isTrivia = true) (cs : List Tree) :
    facesOf (c :: cs) = facesOf cs := by
  rw [facesOf, List.filter_cons_of_neg (by rw [h]; decide)]
  rfl

end Tree

def Face.isLeaf : Face → Bool
  | .leaf _ _ => true
  | .node _ _ => false

/-- A node of this kind may see these faces. Where a path is declared, a reference has the shape of
a path and not that of an operand. -/
structure Fits (declared : Bool) (k : NodeKind) (fs : List Face) : Prop where
  shape : (declared && k == .refExpression) = false → Shape k fs
  brackets : k ≠ .error → Bracketed none fs
  tokens : k = .error → ∀ f ∈ fs, f.isLeaf = true

namespace Fits

variable {declared : Bool} {k : NodeKind} {fs : List Face}

theorem of_shape (h : Shape k fs) (hk : k.isFree = false) : Fits declared k fs where
  shape _ := h
  brackets _ := h.bracketed hk
  tokens := by
    rintro rfl
    cases hk

theorem of_free (h : Bracketed none fs) (hk : k.isFree = true) (hne : k ≠ .error) :
    Fits declared k fs where
  shape _ := .free hk
  brackets _ := h
  tokens heq := absurd heq hne

theorem of_path (h : Bracketed none fs) : Fits true .refExpression fs where
  shape := nofun
  brackets _ := h
  tokens := nofun

theorem of_error (h : ∀ f ∈ fs, f.isLeaf = true) : Fits declared .error fs where
  shape _ := .free rfl
  brackets hne := absurd rfl hne
  tokens _ := h

theorem not_trivia (h : Fits declared k fs) : k.isTrivia = false := by
  by_cases hpath : (declared && k == .refExpression) = false
  · exact (h.shape hpath).not_trivia
  · rw [Bool.not_eq_false, Bool.and_eq_true, beq_iff_eq] at hpath
    rw [hpath.2]
    rfl

end Fits

/-- A leaf has the kind that its token has, or it is a name. -/
def isLeafOf (k : NodeKind) (t : Token) : Bool :=
  k == .ofToken t.kind || (k == .identifier && t.kind.isName)

namespace Tree

/-- Trees that are well formed with all that is in them; `declared` says that a reference among them
is a declared path. -/
inductive Formed : (declared : Bool) → List Tree → Prop where
  | nil (declared : Bool) : Formed declared []
  | leaf {declared : Bool} {k : NodeKind} {t : Token} {cs : List Tree} : isLeafOf k t = true →
      Formed declared cs → Formed declared (.leaf k t :: cs)
  | node {declared : Bool} {k : NodeKind} {a b : Nat} {ds cs : List Tree} :
      Fits declared k (facesOf ds) → Formed k.declares ds → Formed declared cs →
      Formed declared (.node k a b ds :: cs)

theorem isLeafOf_ofToken (t : Token) : isLeafOf (.ofToken t.kind) t = true := by
  rw [isLeafOf, beq_self_eq_true, Bool.true_or]

theorem isTrivia_eq_of_isLeafOf {k : NodeKind} {t : Token} (h : isLeafOf k t = true) :
    t.isTrivia = k.isTrivia := by
  rw [isLeafOf, Bool.or_eq_true, Bool.and_eq_true, beq_iff_eq, beq_iff_eq] at h
  rcases h with rfl | ⟨rfl, hname⟩
  · unfold Token.isTrivia
    cases t.kind <;> rfl
  · unfold Token.isTrivia
    cases hk : t.kind <;> first | rfl | (rw [hk] at hname; cases hname)

theorem Formed.append {declared : Bool} {cs ds : List Tree} (h : Formed declared cs)
    (h' : Formed declared ds) : Formed declared (cs ++ ds) := by
  induction h with
  | nil => exact h'
  | leaf hk _ ih => exact .leaf hk (ih h')
  | node hfits hinner _ _ ih => exact .node hfits hinner (ih h')

theorem Formed.of_tokens (declared : Bool) (ts : List Token) :
    Formed declared (ts.map ofToken) := by
  induction ts with
  | nil => exact .nil declared
  | cons t ts ih => exact .leaf (isLeafOf_ofToken t) ih

/-! ### Dressing -/

theorem facesOf_trivia {ts : List Token} (h : ∀ t ∈ ts, t.isTrivia = true) :
    facesOf (ts.map ofToken) = [] := by
  induction ts with
  | nil => rfl
  | cons t ts ih =>
    obtain ⟨ht, hts⟩ := List.forall_mem_cons.mp h
    rw [List.map_cons, facesOf_cons_trivia ((isTrivia_ofToken t).trans ht), ih hts]

theorem face_dress (pending : List Token) (t : Tree) : (dress pending t).1.face = t.face := by
  cases t with
  | leaf => rfl
  | node k a b cs =>
    cases cs with
    | nil => rfl
    | cons c cs =>
      show Face.node k (dressList pending (c :: cs)).1.isEmpty = .node k false
      rw [dressList, List.isEmpty_eq_false_iff.mpr]
      exact List.append_ne_nil_of_right_ne_nil _ (List.cons_ne_nil _ _)

/-- Blanks and comments change no face. -/
theorem facesOf_dressList {pending : List Token} (cs : List Tree)
    (h : ∀ u ∈ pending, u.isTrivia = true) : facesOf (dressList pending cs).1 = facesOf cs := by
  induction cs generalizing pending with
  | nil => rfl
  | cons c cs ih =>
    have hinside : ∀ u ∈ notBefore pending c.start, u.isTrivia = true := fun u hu =>
      h u (mem_of_mem_notBefore hu)
    have hlater : ∀ u ∈ (dress (notBefore pending c.start) c).2, u.isTrivia = true := fun u hu =>
      hinside u ((bare_dress _ c hinside).2 u hu)
    have htrivia : (dress (notBefore pending c.start) c).1.isTrivia = c.isTrivia :=
      congrArg NodeKind.isTrivia (kind_dress _ c)
    rw [dressList, facesOf_append, facesOf_trivia fun u hu => h u (mem_of_mem_before hu),
      List.nil_append]
    by_cases hc : c.isTrivia = true
    · rw [facesOf_cons_trivia (htrivia.trans hc), facesOf_cons_trivia hc, ih hlater]
    · rw [Bool.not_eq_true] at hc
      rw [facesOf_cons (htrivia.trans hc), facesOf_cons hc, ih hlater, face_dress]

theorem Formed.dressList {declared : Bool} {cs : List Tree} (h : Formed declared cs)
    {pending : List Token} (htrivia : ∀ u ∈ pending, u.isTrivia = true) :
    Formed declared (dressList pending cs).1 := by
  induction h generalizing pending with
  | nil => exact .nil _
  | @leaf declared k t cs hk _ ih =>
    rw [Tree.dressList]
    have hlater : ∀ u ∈ notBefore pending t.start, u.isTrivia = true := fun u hu =>
      htrivia u (mem_of_mem_notBefore hu)
    exact (of_tokens declared _).append (.leaf hk (ih hlater))
  | @node declared k a b ds cs hfits _ _ ihInner ihOuter =>
    rw [Tree.dressList]
    have hinside : ∀ u ∈ notBefore pending a, u.isTrivia = true := fun u hu =>
      htrivia u (mem_of_mem_notBefore hu)
    have hlater : ∀ u ∈ (Tree.dressList (notBefore pending a) ds).2, u.isTrivia = true :=
      fun u hu => hinside u ((bareList_dressList _ ds hinside).2 u hu)
    have hsame := facesOf_dressList ds hinside
    exact (of_tokens declared _).append
      (.node (hsame.symm ▸ hfits) (ihInner hinside) (ihOuter hlater))

/-- The script over well formed declarations. -/
theorem Formed.dressScript {cs : List Tree} (h : Formed false cs)
    (hlevel : Bracketed none (facesOf cs)) {trivia : List Token}
    (htrivia : ∀ u ∈ trivia, u.isTrivia = true) (length : Nat) :
    Formed false [dressScript length trivia cs] := by
  have hlast : ∀ u ∈ (Tree.dressList trivia cs).2, u.isTrivia = true := fun u hu =>
    htrivia u ((bareList_dressList trivia cs htrivia).2 u hu)
  have hfaces : facesOf ((Tree.dressList trivia cs).1 ++ (Tree.dressList trivia cs).2.map ofToken) =
      facesOf cs := by
    rw [facesOf_append, facesOf_trivia hlast, List.append_nil, facesOf_dressList cs htrivia]
  refine .node (.of_free (hfaces.symm ▸ hlevel) rfl nofun) ?_ (.nil false)
  exact (h.dressList htrivia).append (of_tokens false _)

/-! ### Every node with its ancestors -/

/-- What is true of a node that a walk comes to, given its ancestors. -/
structure FormedAt (t : Tree) (above : List Tree) : Prop where
  fits : t.isLeaf = false → Fits (above.getLast?.any fun n => n.kind.declares) t.kind t.faces
  leaf : ∀ u ∈ t.token?, isLeafOf t.kind u = true

theorem Formed.walkList {declared : Bool} {cs : List Tree} (h : Formed declared cs)
    {above : List Tree} (habove : (above.getLast?.any fun n => n.kind.declares) = declared) :
    ∀ p ∈ walkList above cs, FormedAt p.1 p.2 := by
  induction h generalizing above with
  | nil => exact List.forall_mem_nil _
  | @leaf declared k t cs hk _ ih =>
    rw [Tree.walkList, walk, List.singleton_append]
    refine List.forall_mem_cons.mpr ⟨⟨nofun, ?_⟩, ih habove⟩
    rintro _ ⟨⟩
    exact hk
  | @node declared k a b ds cs hfits _ _ ihInner ihOuter =>
    rw [Tree.walkList, walk, List.cons_append]
    have hhere : FormedAt (.node k a b ds) above := ⟨fun _ => habove.symm ▸ hfits, nofun⟩
    have hlast : ((above ++ [Tree.node k a b ds]).getLast?.any fun n => n.kind.declares) =
        k.declares := by
      rw [List.getLast?_concat]
      rfl
    have hinner := ihInner hlast
    refine List.forall_mem_cons.mpr ⟨hhere, fun p hp => ?_⟩
    rcases List.mem_append.mp hp with hp | hp
    · exact hinner p hp
    · exact ihOuter habove p hp

theorem Formed.walk {t : Tree} (h : Formed false [t]) : ∀ p ∈ t.walk [], FormedAt p.1 p.2 := by
  intro p hp
  have hroot : (([] : List Tree).getLast?.any fun n => n.kind.declares) = false := rfl
  refine h.walkList hroot p ?_
  rw [Tree.walkList, Tree.walkList, List.append_nil]
  exact hp

end Tree

end PolicyEditor
