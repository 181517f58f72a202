import PolicyEditor.Proofs.Tree.Formed
import PolicyEditor.Proofs.Tree.Recast
import Mathlib.Data.List.Nodup

/-!
Which node a token belongs to. Every token of a tree is a child of one node; where no two tokens are
equal, the token tells which kind of node that is.
-/

namespace PolicyEditor.Tree

mutual

def owned (parent : NodeKind) : Tree → List (Token × NodeKind)
  | .leaf _ t => [(t, parent)]
  | .node k _ _ cs => ownedAll k cs

def ownedAll (parent : NodeKind) : List Tree → List (Token × NodeKind)
  | [] => []
  | c :: cs => owned parent c ++ ownedAll parent cs

end

theorem ownedAll_append (parent : NodeKind) (cs ds : List Tree) :
    ownedAll parent (cs ++ ds) = ownedAll parent cs ++ ownedAll parent ds := by
  induction cs with
  | nil => rfl
  | cons c cs ih => rw [List.cons_append, ownedAll, ih, ownedAll, List.append_assoc]

mutual

theorem owned_tokens (parent : NodeKind) : ∀ t : Tree, (owned parent t).map (·.1) = tokens [t]
  | .leaf _ _ => rfl
  | .node k _ _ cs => by
    rw [owned, ownedAll_tokens k cs, tokens_node]
    exact (List.append_nil _).symm

theorem ownedAll_tokens (parent : NodeKind) :
    ∀ cs : List Tree, (ownedAll parent cs).map (·.1) = tokens cs
  | [] => rfl
  | c :: cs => by
    rw [ownedAll, List.map_append, owned_tokens parent c, ownedAll_tokens parent cs,
      ← tokens_append, List.singleton_append]

end

/-- A token has one owner. -/
theorem owner_unique {parent : NodeKind} {cs : List Tree} (h : (tokens cs).Nodup) {t : Token}
    {k l : NodeKind} (hk : (t, k) ∈ ownedAll parent cs) (hl : (t, l) ∈ ownedAll parent cs) :
    k = l := by
  rw [← ownedAll_tokens parent] at h
  exact (Prod.mk.inj (List.inj_on_of_nodup_map h hk hl rfl)).2

theorem mem_ownedAll_of_top (parent : NodeKind) {cs : List Tree} {t : Token}
    (h : t ∈ topTokens cs) : (t, parent) ∈ ownedAll parent cs := by
  induction cs with
  | nil => cases h
  | cons c cs ih =>
    rw [ownedAll]
    cases c with
    | leaf k u =>
      rw [topTokens_leaf] at h
      rcases List.mem_cons.mp h with rfl | h
      · exact List.mem_cons_self
      · exact List.mem_append_right _ (ih h)
    | node => exact List.mem_append_right _ (ih h)

mutual

theorem mem_owned_of_walk (parent : NodeKind) {above : List Tree} {t : Token} : ∀ c : Tree,
    ∀ q ∈ walk above c, t ∈ topTokens q.1.children → (t, q.1.kind) ∈ owned parent c
  | .leaf _ _, q, hq, h => by
    obtain rfl := List.mem_singleton.mp hq
    cases h
  | .node k a b cs, q, hq, h => by
    rcases List.mem_cons.mp hq with rfl | hq
    · exact mem_ownedAll_of_top k h
    · exact mem_ownedAll_of_walk k cs q hq h

theorem mem_ownedAll_of_walk (parent : NodeKind) {above : List Tree} {t : Token} :
    ∀ cs : List Tree, ∀ q ∈ walkList above cs, t ∈ topTokens q.1.children →
      (t, q.1.kind) ∈ ownedAll parent cs
  | [], _, hq, _ => absurd hq List.not_mem_nil
  | c :: cs, q, hq, h => by
    rcases List.mem_append.mp hq with hq | hq
    · exact List.mem_append_left _ (mem_owned_of_walk parent c q hq h)
    · exact List.mem_append_right _ (mem_ownedAll_of_walk parent cs q hq h)

end

mutual

/-- Blanks and comments leave every token with its owner. -/
theorem owned_dress (parent : NodeKind) : ∀ (pending : List Token) (t : Tree),
    owned parent t ⊆ owned parent (dress pending t).1
  | _, .leaf _ _ => List.Subset.refl _
  | pending, .node k _ _ cs => ownedAll_dressList k pending cs

theorem ownedAll_dressList (parent : NodeKind) : ∀ (pending : List Token) (cs : List Tree),
    ownedAll parent cs ⊆ ownedAll parent (dressList pending cs).1
  | _, [] => List.nil_subset _
  | pending, c :: cs => by
    have hc := owned_dress parent (notBefore pending c.start) c
    have hcs := ownedAll_dressList parent (dress (notBefore pending c.start) c).2 cs
    rw [dressList, ownedAll_append, ownedAll, ownedAll]
    intro p hp
    apply List.mem_append_right
    rcases List.mem_append.mp hp with hp | hp
    · exact List.mem_append_left _ (hc hp)
    · exact List.mem_append_right _ (hcs hp)

end

mutual

theorem spares_of_owned {bound : Token → Bool} (parent : NodeKind) : ∀ t : Tree,
    (∀ p ∈ owned parent t, p.2 = .error → bound p.1 = false) → Spares bound t
  | .leaf _ _, _ => trivial
  | .node k _ _ cs, h => by
    refine ⟨fun hk t ht => ?_, sparesAll_of_owned k cs h⟩
    exact h (t, k) (mem_ownedAll_of_top k ht) hk

theorem sparesAll_of_owned {bound : Token → Bool} (parent : NodeKind) : ∀ cs : List Tree,
    (∀ p ∈ ownedAll parent cs, p.2 = .error → bound p.1 = false) → SparesAll bound cs
  | [], _ => trivial
  | c :: cs, h => by
    obtain ⟨hc, hcs⟩ := List.forall_mem_append.mp h
    exact ⟨spares_of_owned parent c hc, sparesAll_of_owned parent cs hcs⟩

end

/-! ### Neighbours -/

def words (cs : List Tree) : List Token :=
  (tokens cs).filter fun t => !t.isTrivia

theorem words_append (cs ds : List Tree) : words (cs ++ ds) = words cs ++ words ds := by
  rw [words, tokens_append, List.filter_append]
  rfl

theorem words_leaf {k : NodeKind} {t : Token} (ht : t.isTrivia = false) (cs : List Tree) :
    words (.leaf k t :: cs) = t :: words cs := by
  rw [words, tokens_leaf, List.filter_cons_of_pos (by rw [ht]; rfl)]
  rfl

theorem words_trivia {k : NodeKind} {t : Token} (ht : t.isTrivia = true) (cs : List Tree) :
    words (.leaf k t :: cs) = words cs := by
  rw [words, tokens_leaf, List.filter_cons_of_neg (by rw [ht]; decide)]
  rfl

theorem words_node (k : NodeKind) (a b : Nat) (cs ds : List Tree) :
    words (.node k a b cs :: ds) = words cs ++ words ds := by
  rw [words, tokens_node, List.filter_append]
  rfl

/-- A leaf that is seen among some trees is one of their tokens, and what is seen before and after
it stands before and after it. -/
theorem Formed.words_of_face {declared : Bool} {cs : List Tree} (h : Formed declared cs)
    {front rest : List Face} {k : NodeKind} {t : Token}
    (hfaces : facesOf cs = front ++ .leaf k t :: rest) :
    ∃ before ds, words cs = before ++ t :: words ds ∧ facesOf ds = rest ∧ Formed declared ds ∧
      isLeafOf k t = true ∧ (front = [] → before = []) := by
  induction h generalizing front with
  | nil => exact absurd hfaces.symm (List.append_ne_nil_of_right_ne_nil _ (List.cons_ne_nil _ _))
  | @leaf declared l u cs hl hcs ih =>
    have hsame := isTrivia_eq_of_isLeafOf hl
    by_cases htrivia : (Tree.leaf l u).isTrivia = true
    · rw [facesOf_cons_trivia htrivia] at hfaces
      rw [words_trivia (hsame.trans htrivia)]
      exact ih hfaces
    rw [Bool.not_eq_true] at htrivia
    rw [facesOf_cons htrivia] at hfaces
    rw [words_leaf (hsame.trans htrivia)]
    cases front with
    | nil =>
      obtain ⟨hface, hrest⟩ := List.cons.inj hfaces
      obtain ⟨rfl, rfl⟩ := Face.leaf.inj hface
      exact ⟨[], cs, rfl, hrest, hcs, hl, fun _ => rfl⟩
    | cons f front =>
      obtain ⟨before, ds, hwords, hds⟩ := ih (List.cons.inj hfaces).2
      exact ⟨u :: before, ds, by rw [hwords]; rfl, hds.1, hds.2.1, hds.2.2.1, nofun⟩
  | @node declared l a b es cs hfits _ _ _ ih =>
    have htrivia : (Tree.node l a b es).isTrivia = false := hfits.not_trivia
    rw [facesOf_cons htrivia] at hfaces
    rw [words_node]
    cases front with
    | nil => cases (List.cons.inj hfaces).1
    | cons f front =>
      obtain ⟨before, ds, hwords, hds⟩ := ih (List.cons.inj hfaces).2
      exact ⟨words es ++ before, ds, by rw [hwords, List.append_assoc], hds.1, hds.2.1, hds.2.2.1,
        nofun⟩

/-- Two leaves that are next to each other under a node are neighbours in the text. -/
theorem Formed.neighbours {declared : Bool} {cs : List Tree} (h : Formed declared cs)
    {above : List Tree} {q : Tree × List Tree} (hq : q ∈ Tree.walkList above cs)
    {front back : List Face} {k l : NodeKind} {t u : Token}
    (hfaces : q.1.faces = front ++ .leaf k t :: .leaf l u :: back) :
    (∃ before after, words cs = before ++ t :: u :: after) ∧ isLeafOf l u = true := by
  induction h generalizing above with
  | nil => cases hq
  | @leaf declared m v cs hl _ ih =>
    rw [Tree.walkList, Tree.walk, List.singleton_append] at hq
    rcases List.mem_cons.mp hq with rfl | hq
    · exact absurd hfaces.symm (List.append_ne_nil_of_right_ne_nil _ (List.cons_ne_nil _ _))
    · obtain ⟨⟨before, after, hwords⟩, hleaf⟩ := ih hq
      have hcons := words_append [.leaf m v] cs
      rw [List.singleton_append, hwords] at hcons
      exact ⟨⟨words [.leaf m v] ++ before, after, by rw [hcons, List.append_assoc]⟩, hleaf⟩
  | @node declared m a b es cs hfits hes _ ihInner ihOuter =>
    rw [Tree.walkList, Tree.walk, List.cons_append] at hq
    rw [words_node]
    rcases List.mem_cons.mp hq with rfl | hq
    · obtain ⟨before, ds, hwords, hrest, hds, -⟩ := hes.words_of_face hfaces
      have hnext : facesOf ds = [] ++ .leaf l u :: back := hrest
      obtain ⟨none, ds', hwords', -, -, hleaf, hnone⟩ := hds.words_of_face hnext
      rw [hnone rfl, List.nil_append] at hwords'
      refine ⟨⟨before, words ds' ++ words cs, ?_⟩, hleaf⟩
      rw [hwords, hwords', List.append_assoc]
      rfl
    rcases List.mem_append.mp hq with hq | hq
    · obtain ⟨⟨before, after, hwords⟩, hleaf⟩ := ihInner hq
      refine ⟨⟨before, after ++ words cs, ?_⟩, hleaf⟩
      rw [hwords, List.append_assoc]
      rfl
    · obtain ⟨⟨before, after, hwords⟩, hleaf⟩ := ihOuter hq
      exact ⟨⟨words es ++ before, after, by rw [hwords, List.append_assoc]⟩, hleaf⟩

theorem mem_topTokens_of_face {q : Tree} {k : NodeKind} {t : Token}
    (h : .leaf k t ∈ q.faces) : t ∈ topTokens q.children := by
  obtain ⟨c, hc, hface⟩ := List.mem_map.mp h
  cases c with
  | leaf =>
    obtain ⟨rfl, rfl⟩ := Face.leaf.inj hface
    exact List.mem_filterMap.mpr ⟨_, (List.mem_filter.mp hc).1, rfl⟩
  | node => cases hface

end PolicyEditor.Tree
