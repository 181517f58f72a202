import PolicyEditor.Proofs.Grammar.Leaves
import PolicyEditor.Proofs.Grammar.ScriptShape

/-!
The brackets of a text in pairs. If the tree of a text has no error node then its brackets nest,
each is closed by its counterpart, and the two of a pair are children of one node. What breaks that
order ends up in an error node or leaves one behind, and so does every invalid token.
-/

namespace PolicyEditor

namespace Token

def isBracket (t : Token) : Bool :=
  t.kind.isOpener || t.kind.isCloser

/-- The pairs of brackets in the order in which they are closed, if every bracket is closed by its
counterpart. The first argument is what is open, the innermost bracket first. -/
def pairsFrom : (opened : List Token) → List Token → Option (List (Token × Token))
  | opened, [] => if opened.isEmpty then some [] else none
  | opened, t :: ts =>
    if t.kind.isOpener then pairsFrom (t :: opened) ts
    else if t.kind.isCloser then
      match opened with
      | [] => none
      | o :: outer =>
        if o.kind.counterpart? = some t.kind then (pairsFrom outer ts).map ((o, t) :: ·) else none
    else pairsFrom opened ts

def bracketPairs? (ts : List Token) : Option (List (Token × Token)) :=
  pairsFrom [] ts

variable {o t : Token} {opened ts : List Token}

theorem isCloser_of_counterpart? {k l : Kind} (h : k.counterpart? = some l) :
    l.isOpener = false ∧ l.isCloser = true := by
  unfold Kind.counterpart? at h
  split at h <;> cases h <;> exact ⟨rfl, rfl⟩

theorem ne_invalid_of_isPlain {k : Kind} (h : Grammar.isPlain k = true) : k ≠ .invalid := by
  rintro rfl
  cases h

theorem ne_invalid_of_isOpener {k : Kind} (h : k.isOpener = true) : k ≠ .invalid := by
  rintro rfl
  cases h

theorem ne_invalid_of_counterpart? {k l : Kind} (h : k.counterpart? = some l) : l ≠ .invalid := by
  rintro rfl
  cases (isCloser_of_counterpart? h).2

theorem pairsFrom_cons : pairsFrom opened (t :: ts) =
    if t.kind.isOpener then pairsFrom (t :: opened) ts
    else if t.kind.isCloser then
      match opened with
      | [] => none
      | o :: outer =>
        if o.kind.counterpart? = some t.kind then (pairsFrom outer ts).map ((o, t) :: ·) else none
    else pairsFrom opened ts := by
  cases opened <;> rfl

theorem pairsFrom_plain (ht : Grammar.isPlain t.kind = true) :
    pairsFrom opened (t :: ts) = pairsFrom opened ts := by
  simp only [Grammar.isPlain, Bool.and_eq_true, Bool.not_eq_true'] at ht
  rw [pairsFrom_cons, ht.1.1, ht.1.2]
  rfl

theorem pairsFrom_opener (ht : t.kind.isOpener = true) :
    pairsFrom opened (t :: ts) = pairsFrom (t :: opened) ts := by
  rw [pairsFrom_cons, if_pos ht]

theorem pairsFrom_closer (h : o.kind.counterpart? = some t.kind) :
    pairsFrom (o :: opened) (t :: ts) = (pairsFrom opened ts).map ((o, t) :: ·) := by
  obtain ⟨hopener, hcloser⟩ := isCloser_of_counterpart? h
  rw [pairsFrom_cons, hopener, hcloser]
  exact if_pos h

theorem counterpart_of_mem_pairsFrom {pairs : List (Token × Token)}
    (h : pairsFrom opened ts = some pairs) :
    ∀ p ∈ pairs, p.1.kind.counterpart? = some p.2.kind := by
  induction ts generalizing opened pairs with
  | nil =>
    cases opened with
    | nil =>
      cases h
      exact List.forall_mem_nil _
    | cons => cases h
  | cons t ts ih =>
    rw [pairsFrom_cons] at h
    split at h
    · exact ih h
    split at h
    · cases opened with
      | nil => cases h
      | cons o outer =>
        simp only [Option.ite_none_right_eq_some, Option.map_eq_some_iff] at h
        obtain ⟨ho, inner, hinner, rfl⟩ := h
        exact List.forall_mem_cons.mpr ⟨ho, ih hinner⟩
    · exact ih h

/-- Every bracket belongs to one pair. -/
theorem pairsFrom_perm {pairs : List (Token × Token)} (h : pairsFrom opened ts = some pairs) :
    (pairs.flatMap fun p => [p.1, p.2]).Perm (opened ++ ts.filter isBracket) := by
  induction ts generalizing opened pairs with
  | nil =>
    cases opened with
    | nil =>
      cases h
      exact .nil
    | cons => cases h
  | cons t ts ih =>
    by_cases hopener : t.kind.isOpener = true
    · rw [pairsFrom_opener hopener] at h
      rw [List.filter_cons_of_pos (by rw [isBracket, hopener, Bool.true_or])]
      exact (ih h).trans List.perm_middle.symm
    · by_cases hcloser : t.kind.isCloser = true
      · rw [List.filter_cons_of_pos (by rw [isBracket, hcloser, Bool.or_true])]
        rw [pairsFrom_cons, if_neg hopener, if_pos hcloser] at h
        cases opened with
        | nil => cases h
        | cons o outer =>
          simp only [Option.ite_none_right_eq_some, Option.map_eq_some_iff] at h
          obtain ⟨-, inner, hinner, rfl⟩ := h
          exact .cons o (((ih hinner).cons t).trans List.perm_middle.symm)
      · have hplain : isBracket t = false := by
          rw [isBracket, Bool.or_eq_false_iff, ← Bool.not_eq_true, ← Bool.not_eq_true]
          exact ⟨hopener, hcloser⟩
        rw [pairsFrom_cons, if_neg hopener, if_neg hcloser] at h
        rw [List.filter_cons_of_neg (by rw [hplain]; decide)]
        exact ih h

end Token

theorem Bracketed.valid {opened : Option Token} {fs : List Face} (h : Bracketed opened fs) :
    ∀ f ∈ fs, ∀ k t, f = .leaf k t → t.kind ≠ .invalid := by
  induction h with
  | nil => exact List.forall_mem_nil _
  | level hf _ ih =>
    refine List.forall_mem_cons.mpr ⟨?_, ih⟩
    rintro k t rfl
    exact Token.ne_invalid_of_isPlain hf
  | opener ht _ ih =>
    refine List.forall_mem_cons.mpr ⟨?_, ih⟩
    rintro k t ⟨rfl, rfl⟩
    exact Token.ne_invalid_of_isOpener ht
  | closer ht _ ih =>
    refine List.forall_mem_cons.mpr ⟨?_, ih⟩
    rintro k t ⟨rfl, rfl⟩
    exact Token.ne_invalid_of_counterpart? ht
  | missing _ ih =>
    refine List.forall_mem_cons.mpr ⟨?_, ih⟩
    intro k t h
    cases h

namespace Tree

open Token (pairsFrom bracketPairs?)

def Siblings (nodes : List (Tree × List Tree)) (p : Token × Token) : Prop :=
  ∃ q ∈ nodes, p.1 ∈ topTokens q.1.children ∧ p.2 ∈ topTokens q.1.children

theorem Siblings.mono {ns ms : List (Tree × List Tree)} {p : Token × Token} (h : Siblings ns p)
    (hsub : ns ⊆ ms) : Siblings ms p := by
  obtain ⟨q, hq, hp⟩ := h
  exact ⟨q, hsub hq, hp⟩

/-- Both tokens are among some trees, where one is open already or none, or are children of one of
their nodes. -/
def Together (opened : Option Token) (above cs : List Tree) (p : Token × Token) : Prop :=
  p.1 ∈ opened.toList ++ topTokens cs ∧ p.2 ∈ topTokens cs ∨ Siblings (walkList above cs) p

theorem Together.leaf {opened opened' : Option Token} {above cs : List Tree} {p : Token × Token}
    {t : Token} (h : Together opened above cs p) (k : NodeKind)
    (hopened : opened.toList ⊆ opened'.toList ++ [t]) :
    Together opened' above (.leaf k t :: cs) p := by
  rcases h with ⟨h1, h2⟩ | h
  · left
    rw [topTokens_leaf, List.append_cons]
    constructor
    · rcases List.mem_append.mp h1 with h1 | h1
      · exact List.mem_append_left _ (hopened h1)
      · exact List.mem_append_right _ h1
    · exact List.mem_cons_of_mem _ h2
  · exact .inr (h.mono (List.subset_append_right _ _))

/-- The pairs that the brackets of some trees make, after the one that is open, if there is one. -/
structure Pairs (opened : Option Token) (above cs : List Tree) (pairs : List (Token × Token)) :
    Prop where
  run : ∀ outer later : List Token, pairsFrom (opened.toList ++ outer) (tokens cs ++ later) =
    (pairsFrom outer later).map (pairs ++ ·)
  together : ∀ p ∈ pairs, Together opened above cs p
  valid : ∀ t ∈ tokens cs, t.kind ≠ .invalid

namespace Pairs

variable {opened : Option Token} {above cs ds : List Tree} {pairs inner : List (Token × Token)}
  {k : NodeKind} {t : Token}

theorem nil (above : List Tree) : Pairs none above [] [] where
  run outer later := (Option.map_id' (x := pairsFrom outer later)).symm
  together := List.forall_mem_nil _
  valid := List.forall_mem_nil _

theorem plain (h : Pairs opened above cs pairs) (ht : Grammar.isPlain t.kind = true) :
    Pairs opened above (.leaf k t :: cs) pairs where
  run outer later := by
    rw [tokens_leaf, List.cons_append, Token.pairsFrom_plain ht, h.run]
  together p hp := (h.together p hp).leaf k (List.subset_append_left _ _)
  valid := List.forall_mem_cons.mpr ⟨Token.ne_invalid_of_isPlain ht, h.valid⟩

theorem opener (h : Pairs (some t) above cs pairs) (ht : t.kind.isOpener = true) :
    Pairs none above (.leaf k t :: cs) pairs where
  run outer later := by
    rw [tokens_leaf, List.cons_append, Option.toList_none, List.nil_append,
      Token.pairsFrom_opener ht]
    exact h.run outer later
  together p hp := (h.together p hp).leaf k (List.subset_append_right _ _)
  valid := List.forall_mem_cons.mpr ⟨Token.ne_invalid_of_isOpener ht, h.valid⟩

theorem closer {o : Token} (h : Pairs none above cs pairs)
    (ho : o.kind.counterpart? = some t.kind) :
    Pairs (some o) above (.leaf k t :: cs) ((o, t) :: pairs) where
  run outer later := by
    show pairsFrom (o :: outer) (t :: (tokens cs ++ later)) = _
    have hrest := h.run outer later
    rw [Option.toList_none, List.nil_append] at hrest
    rw [Token.pairsFrom_closer ho, hrest, Option.map_map]
    rfl
  together := by
    have hpair : Together (some o) above (.leaf k t :: cs) (o, t) :=
      .inl ⟨List.mem_cons_self, List.mem_cons_self⟩
    exact List.forall_mem_cons.mpr ⟨hpair, fun p hp =>
      (h.together p hp).leaf k (List.nil_subset _)⟩
  valid := List.forall_mem_cons.mpr ⟨Token.ne_invalid_of_counterpart? ho, h.valid⟩

theorem node {a b : Nat} (h : Pairs none (above ++ [.node k a b ds]) ds inner)
    (h' : Pairs opened above cs pairs) :
    Pairs opened above (.node k a b ds :: cs) (inner ++ pairs) where
  run outer later := by
    have hinner := h.run (opened.toList ++ outer) (tokens cs ++ later)
    rw [Option.toList_none, List.nil_append] at hinner
    rw [tokens_node, List.append_assoc, hinner, h'.run, Option.map_map]
    congr 1
    funext ps
    exact (List.append_assoc inner pairs ps).symm
  together p hp := by
    unfold Together
    rw [topTokens_node, walkList, walk, List.cons_append]
    rcases List.mem_append.mp hp with hp | hp
    · -- What pairs among the children is a pair under this node.
      right
      rcases h.together p hp with ⟨h1, h2⟩ | h
      · exact ⟨_, List.mem_cons_self, h1, h2⟩
      · exact h.mono fun q hq => List.mem_cons_of_mem _ (List.mem_append_left _ hq)
    · refine (h'.together p hp).imp id fun h => ?_
      exact h.mono fun q hq => List.mem_cons_of_mem _ (List.mem_append_right _ hq)
  valid u hu := by
    rw [tokens_node] at hu
    exact (List.mem_append.mp hu).elim (h.valid u) (h'.valid u)

end Pairs

theorem isPlain_of_isTrivia {k : Token.Kind} (h : k.isTrivia = true) : Grammar.isPlain k = true := by
  unfold Token.Kind.isTrivia at h
  split at h <;> first | rfl | cases h

/-- Where no node is an error, no bracket is left alone. -/
theorem Formed.pairs {declared : Bool} {cs : List Tree} (h : Formed declared cs)
    (hclean : cleanAll cs = true) {opened : Option Token}
    (hbrackets : Bracketed opened (facesOf cs)) (above : List Tree) :
    ∃ pairs, Pairs opened above cs pairs := by
  induction h generalizing opened above with
  | nil =>
    cases hbrackets
    exact ⟨[], .nil above⟩
  | @leaf declared k t cs hk _ ih =>
    have hrest := (cleanAll_cons.mp hclean).2
    by_cases htrivia : (Tree.leaf k t).isTrivia = true
    · rw [facesOf_cons_trivia htrivia] at hbrackets
      obtain ⟨pairs, hpairs⟩ := ih hrest hbrackets above
      exact ⟨pairs, hpairs.plain (isPlain_of_isTrivia ((isTrivia_eq_of_isLeafOf hk).trans htrivia))⟩
    · rw [facesOf_cons (Bool.not_eq_true _ ▸ htrivia)] at hbrackets
      cases hbrackets with
      | level hlevel hlater =>
        obtain ⟨pairs, hpairs⟩ := ih hrest hlater above
        exact ⟨pairs, hpairs.plain hlevel⟩
      | opener hopener hlater =>
        obtain ⟨pairs, hpairs⟩ := ih hrest hlater above
        exact ⟨pairs, hpairs.opener hopener⟩
      | closer hcloser hlater =>
        obtain ⟨pairs, hpairs⟩ := ih hrest hlater above
        exact ⟨(_, t) :: pairs, hpairs.closer hcloser⟩
  | @node declared k a b ds cs hfits _ _ ihInner ihOuter =>
    obtain ⟨hnode, hrest⟩ := cleanAll_cons.mp hclean
    obtain ⟨hkind, hinside⟩ := Bool.and_eq_true_iff.mp hnode
    have hne : k ≠ .error := bne_iff_ne.mp hkind
    have htrivia : (Tree.node k a b ds).isTrivia = false := hfits.not_trivia
    rw [facesOf_cons htrivia] at hbrackets
    obtain ⟨inner, hinner⟩ := ihInner hinside (hfits.brackets hne) (above ++ [.node k a b ds])
    -- A placeholder would be an error node, so the node is no bracket's counterpart.
    generalize hface : (Tree.node k a b ds).face = f at hbrackets
    cases hbrackets with
    | level _ hlater =>
      obtain ⟨pairs, hpairs⟩ := ihOuter hrest hlater above
      exact ⟨inner ++ pairs, hinner.node hpairs⟩
    | opener => cases hface
    | closer => cases hface
    | missing => exact absurd (Face.node.inj hface).1 hne

/-! ### Invalid tokens -/

mutual

/-- Every node of a walk but the first is a child of the last one above it. -/
theorem parent_of_mem_walk (above : List Tree) : ∀ (t : Tree), ∀ p ∈ walk above t,
    p = (t, above) ∨ ∃ q ∈ walk above t, p.1 ∈ q.1.children ∧ p.2 = q.2 ++ [q.1]
  | .leaf _ _, _, hp => .inl (List.mem_singleton.mp hp)
  | .node k a b cs, p, hp => by
    rcases List.mem_cons.mp hp with rfl | hp
    · exact .inl rfl
    · right
      rcases parent_of_mem_walkList (above ++ [.node k a b cs]) cs p hp with ⟨hmem, habove⟩ | h
      · exact ⟨_, List.mem_cons_self, hmem, habove⟩
      · obtain ⟨q, hq, hparent⟩ := h
        exact ⟨q, List.mem_cons_of_mem _ hq, hparent⟩

theorem parent_of_mem_walkList (above : List Tree) : ∀ (cs : List Tree), ∀ p ∈ walkList above cs,
    (p.1 ∈ cs ∧ p.2 = above) ∨ ∃ q ∈ walkList above cs, p.1 ∈ q.1.children ∧ p.2 = q.2 ++ [q.1]
  | [], _, hp => absurd hp List.not_mem_nil
  | c :: cs, p, hp => by
    rcases List.mem_append.mp hp with hp | hp
    · rcases parent_of_mem_walk above c p hp with rfl | ⟨q, hq, hparent⟩
      · exact .inl ⟨List.mem_cons_self, rfl⟩
      · exact .inr ⟨q, List.mem_append_left _ hq, hparent⟩
    · rcases parent_of_mem_walkList above cs p hp with ⟨hmem, habove⟩ | ⟨q, hq, hparent⟩
      · exact .inl ⟨List.mem_cons_of_mem _ hmem, habove⟩
      · exact .inr ⟨q, List.mem_append_right _ hq, hparent⟩

end

theorem kind_of_isLeafOf_invalid {t : Token} (h : isLeafOf .invalid t = true) :
    t.kind = .invalid := by
  cases hk : t.kind with
  | invalid => rfl
  | _ =>
    rw [isLeafOf, hk] at h
    cases h

theorem Formed.misplaced {tree : Tree} (h : Formed false [tree]) (htree : tree.isLeaf = false)
    {t : Token} {above : List Tree} (hp : (.leaf .invalid t, above) ∈ tree.walk []) :
    ∃ parent ∈ above.getLast?, parent.kind = .error ∧ .leaf .invalid t ∈ parent.children := by
  have hinvalid := kind_of_isLeafOf_invalid ((h.walk _ hp).leaf t rfl)
  rcases parent_of_mem_walk [] tree _ hp with heq | ⟨q, hq, hmem, rfl⟩
  · rw [← (Prod.mk.inj heq).1] at htree
    cases htree
  · refine ⟨q.1, by rw [List.getLast?_concat]; rfl, ?_, hmem⟩
    refine Decidable.byContradiction fun hne => ?_
    have hnode : q.1.isLeaf = false := by
      cases hq1 : q.1 with
      | leaf =>
        rw [hq1] at hmem
        cases hmem
      | node => rfl
    have hbrackets := ((h.walk q hq).fits hnode).brackets hne
    have hface : Face.leaf .invalid t ∈ q.1.faces :=
      List.mem_map_of_mem (List.mem_filter.mpr ⟨hmem, rfl⟩)
    exact hbrackets.valid _ hface _ t rfl hinvalid

/-- What a tree has to do with the brackets and the invalid tokens of its text: without error nodes
the brackets come in pairs of siblings and no token is invalid; the other way round brackets out of
order and invalid tokens make error nodes, and these hold all that is invalid. -/
structure Nests (ts : List Token) (tree : Tree) : Prop where
  nested : tree.ofKind .error = [] → ∃ pairs, bracketPairs? ts = some pairs ∧
    (pairs.flatMap fun p => [p.1, p.2]).Perm (ts.filter Token.isBracket) ∧
    ∀ p ∈ pairs, p.1.kind.counterpart? = some p.2.kind ∧ Siblings (tree.walk []) p
  valid : tree.ofKind .error = [] → ∀ t ∈ ts, t.kind ≠ .invalid
  faulty : bracketPairs? ts = none ∨ (∃ t ∈ ts, t.kind = .invalid) → tree.ofKind .error ≠ []
  misplaced : ∀ t above, (.leaf .invalid t, above) ∈ tree.walk [] →
    ∃ parent ∈ above.getLast?, parent.kind = .error ∧ .leaf .invalid t ∈ parent.children

theorem Formed.pairs_of_root {tree : Tree} (h : Formed false [tree]) (htree : tree.isLeaf = false)
    (herror : tree.ofKind .error = []) :
    ∃ pairs, bracketPairs? (tokens [tree]) = some pairs ∧
      (∀ p ∈ pairs, Siblings (tree.walk []) p) ∧ ∀ t ∈ tokens [tree], t.kind ≠ .invalid := by
  cases tree with
  | leaf => cases htree
  | node k a b cs =>
    have hclean : cleanAll [.node k a b cs] = true :=
      cleanAll_cons.mpr ⟨(ofKind_error_eq_nil_iff _).mp herror, rfl⟩
    have htrivia : (Tree.node k a b cs).isTrivia = false := by
      cases h with
      | node hfits => exact hfits.not_trivia
    have hlevel : Bracketed none (facesOf [.node k a b cs]) := by
      rw [facesOf_cons htrivia]
      exact .level rfl .nil
    obtain ⟨pairs, hpairs⟩ := h.pairs hclean hlevel []
    refine ⟨pairs, ?_, fun p hp => ?_, hpairs.valid⟩
    · have hrun : pairsFrom [] (tokens [.node k a b cs] ++ []) = some (pairs ++ []) :=
        hpairs.run [] []
      rwa [List.append_nil, List.append_nil] at hrun
    · rcases hpairs.together p hp with ⟨-, h2⟩ | hp
      · cases h2
      · rwa [Tree.walkList, Tree.walkList, List.append_nil] at hp

theorem Formed.nests {tree : Tree} (h : Formed false [tree]) (htree : tree.isLeaf = false)
    {ts : List Token} (htokens : tokens [tree] = ts) : tree.Nests ts := by
  subst htokens
  have hroot := h.pairs_of_root htree
  constructor
  · intro herror
    obtain ⟨pairs, hmatch, hsiblings, -⟩ := hroot herror
    exact ⟨pairs, hmatch, Token.pairsFrom_perm hmatch, fun p hp =>
      ⟨Token.counterpart_of_mem_pairsFrom hmatch p hp, hsiblings p hp⟩⟩
  · intro herror
    obtain ⟨-, -, -, hvalid⟩ := hroot herror
    exact hvalid
  · rintro hfault herror
    obtain ⟨pairs, hmatch, -, hvalid⟩ := hroot herror
    rcases hfault with hnone | ⟨t, ht, hinvalid⟩
    · rw [hmatch] at hnone
      cases hnone
    · exact hvalid t ht hinvalid
  · exact fun t above hp => h.misplaced htree hp

end Tree

namespace Grammar

/-- Whatever the text, its tree tells whether its brackets nest and its tokens are valid. -/
theorem parse_nests (source : String) :
    (parse source).Nests (Token.scan source.toList) ∧
      (parseExpression source).Nests (Token.scan source.toList) :=
  ⟨(formed_parse source).nests rfl (tokens_parseChars source.toList),
    (formed_parseExpression source).nests rfl (tokens_parseExpressionChars source.toList)⟩

end Grammar

end PolicyEditor
