import PolicyEditor.Tree.Trivia

/-!
Trees without error nodes, and trees without blanks and comments. Dressing a tree adds leaves for
blanks and comments only, so it changes neither.
-/

namespace PolicyEditor.Tree

mutual

def clean : Tree → Bool
  | .leaf k _ => k != .error
  | .node k _ _ cs => k != .error && cleanAll cs

def cleanAll : List Tree → Bool
  | [] => true
  | c :: cs => clean c && cleanAll cs

end

mutual

theorem filter_walk_eq_nil_iff (above : List Tree) : ∀ t : Tree,
    ((walk above t).map (·.1)).filter (fun n => n.kind == .error) = [] ↔ t.clean = true
  | .leaf k _ => by
    by_cases h : k = .error <;> simp [walk, clean, kind, h]
  | .node k a b cs => by
    have hcs := filter_walkList_eq_nil_iff (above ++ [.node k a b cs]) cs
    by_cases h : k = .error <;> simp [walk, clean, kind, h, ← hcs]

theorem filter_walkList_eq_nil_iff (above : List Tree) : ∀ cs : List Tree,
    ((walkList above cs).map (·.1)).filter (fun n => n.kind == .error) = [] ↔ cleanAll cs = true
  | [] => by simp [walkList, cleanAll]
  | c :: cs => by
    have hc := filter_walk_eq_nil_iff above c
    have hcs := filter_walkList_eq_nil_iff above cs
    rw [walkList, List.map_append, List.filter_append, List.append_eq_nil_iff, hc, hcs, cleanAll,
      Bool.and_eq_true]

end

theorem ofKind_error_eq_nil_iff (t : Tree) : t.ofKind .error = [] ↔ t.clean = true :=
  filter_walk_eq_nil_iff [] t

theorem cleanAll_cons {c : Tree} {cs : List Tree} :
    cleanAll (c :: cs) = true ↔ c.clean = true ∧ cleanAll cs = true :=
  Bool.and_eq_true_iff

theorem cleanAll_append (cs ds : List Tree) : cleanAll (cs ++ ds) = (cleanAll cs && cleanAll ds) := by
  induction cs with
  | nil => rfl
  | cons c cs ih => simp only [List.cons_append, cleanAll, ih, Bool.and_assoc]

theorem clean_ofToken (t : Token) : (ofToken t).clean = true := by
  cases hk : t.kind <;> simp only [ofToken, clean, NodeKind.ofToken, hk] <;> rfl

theorem cleanAll_map_ofToken (ts : List Token) : cleanAll (ts.map ofToken) = true := by
  induction ts with
  | nil => rfl
  | cons t ts ih => simp only [List.map_cons, cleanAll, clean_ofToken, ih, Bool.and_self]

@[simp] theorem clean_enclose (k : NodeKind) (here : Nat) (cs : List Tree) :
    (enclose k here cs).clean = (k != .error && cleanAll cs) := rfl

theorem cleanAll_of_clean_enclose {k : NodeKind} {here : Nat} {cs : List Tree}
    (h : (enclose k here cs).clean = true) : cleanAll cs = true :=
  (Bool.and_eq_true_iff.mp (clean_enclose k here cs ▸ h)).2

/-! ### Dressing -/

mutual

theorem clean_dress : ∀ (pending : List Token) (t : Tree), (dress pending t).1.clean = t.clean
  | _, .leaf _ _ => rfl
  | pending, .node k _ _ cs => congrArg (k != .error && ·) (cleanAll_dressList pending cs)

theorem cleanAll_dressList : ∀ (pending : List Token) (cs : List Tree),
    cleanAll (dressList pending cs).1 = cleanAll cs
  | _, [] => rfl
  | pending, c :: cs => by
    simp only [dressList, cleanAll_append, cleanAll_map_ofToken, Bool.true_and, cleanAll]
    rw [clean_dress, cleanAll_dressList]

end

theorem clean_dressScript (length : Nat) (trivia : List Token) (cs : List Tree) :
    (dressScript length trivia cs).clean = cleanAll cs := by
  simp only [dressScript, clean, cleanAll_append, cleanAll_dressList, cleanAll_map_ofToken,
    Bool.and_true]
  rfl

theorem kind_dress (pending : List Token) (t : Tree) : (dress pending t).1.kind = t.kind := by
  cases t <;> rfl

theorem kind_bare (t : Tree) : t.bare.kind = t.kind := by
  cases t <;> rfl

theorem isTrivia_ofToken (t : Token) : (ofToken t).isTrivia = t.isTrivia := by
  cases hk : t.kind <;> simp only [ofToken, isTrivia, kind, Token.isTrivia, NodeKind.ofToken, hk] <;>
    rfl

theorem bareList_append_trivia {ts : List Token} (h : ∀ t ∈ ts, t.isTrivia = true)
    (cs : List Tree) : bareList (ts.map ofToken ++ cs) = bareList cs := by
  induction ts with
  | nil => rfl
  | cons t ts ih =>
    obtain ⟨ht, hts⟩ := List.forall_mem_cons.mp h
    rw [List.map_cons, List.cons_append, bareList, isTrivia_ofToken, if_pos ht, ih hts]

theorem mem_of_mem_before {pending : List Token} {offset : Nat} {t : Token}
    (h : t ∈ before pending offset) : t ∈ pending :=
  (List.takeWhile_sublist _).mem h

theorem mem_of_mem_notBefore {pending : List Token} {offset : Nat} {t : Token}
    (h : t ∈ notBefore pending offset) : t ∈ pending :=
  (List.dropWhile_sublist _).mem h

mutual

/-- What a tree is dressed with comes off again, and what it leaves is pending still. -/
theorem bare_dress : ∀ (pending : List Token) (t : Tree), (∀ u ∈ pending, u.isTrivia = true) →
    bare (dress pending t).1 = bare t ∧ ∀ u ∈ (dress pending t).2, u ∈ pending
  | _, .leaf _ _, _ => ⟨rfl, fun _ => id⟩
  | pending, .node k a b cs, h =>
    ⟨congrArg (Tree.node k a b) (bareList_dressList pending cs h).1,
      (bareList_dressList pending cs h).2⟩

theorem bareList_dressList : ∀ (pending : List Token) (cs : List Tree),
    (∀ u ∈ pending, u.isTrivia = true) →
    bareList (dressList pending cs).1 = bareList cs ∧ ∀ u ∈ (dressList pending cs).2, u ∈ pending
  | _, [], _ => ⟨rfl, fun _ => id⟩
  | pending, c :: cs, h => by
    obtain ⟨hc, hrest⟩ := bare_dress (notBefore pending c.start) c fun u hu =>
      h u (mem_of_mem_notBefore hu)
    obtain ⟨hcs, hlast⟩ := bareList_dressList (dress (notBefore pending c.start) c).2 cs
      fun u hu => h u (mem_of_mem_notBefore (hrest u hu))
    constructor
    · have hkind : (dress (notBefore pending c.start) c).1.isTrivia = c.isTrivia :=
        congrArg NodeKind.isTrivia (kind_dress _ c)
      rw [dressList, bareList_append_trivia fun u hu => h u (mem_of_mem_before hu), bareList,
        hkind, hc, hcs, bareList]
    · exact fun u hu => mem_of_mem_notBefore (hrest u (hlast u hu))

end

theorem bare_dressScript (length : Nat) {trivia : List Token}
    (h : ∀ u ∈ trivia, u.isTrivia = true) (cs : List Tree) :
    (dressScript length trivia cs).bare = .node .script 0 length (bareList cs) := by
  obtain ⟨hcs, hlast⟩ := bareList_dressList trivia cs h
  have hends : ∀ (ds : List Tree) (ts : List Token), (∀ u ∈ ts, u.isTrivia = true) →
      bareList (ds ++ ts.map ofToken) = bareList ds := by
    intro ds ts hts
    induction ds with
    | nil => simpa only [List.append_nil, List.nil_append] using bareList_append_trivia hts []
    | cons d ds ih => simp only [List.cons_append, bareList, ih]
  rw [dressScript, bare, hends _ _ fun u hu => h u (hlast u hu), hcs]

end PolicyEditor.Tree
