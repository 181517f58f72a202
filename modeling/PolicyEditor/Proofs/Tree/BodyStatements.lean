import PolicyEditor.Proofs.Tree.Shift

/-!
The statements of a rule's body. They are told from the children of three nodes, so they are the
same before and after blanks and comments are put into the tree.
-/

namespace PolicyEditor.Tree

def childrenOfKind (t : Tree) (k : NodeKind) : List Tree :=
  t.children.filter fun c => c.kind == k

def onlyChild? (t : Tree) (k : NodeKind) : Option Tree :=
  match t.childrenOfKind k with
  | [c] => some c
  | _ => none

def bodyStatements? (t : Tree) : Option (List Tree) := do
  let rule ← t.onlyChild? .rule
  let body ← rule.onlyChild? .body
  return body.childrenOfKind .statement

/-! ### Without blanks and comments -/

theorem bareList_eq_map (cs : List Tree) :
    bareList cs = (cs.filter fun c => !c.isTrivia).map bare := by
  induction cs with
  | nil => rfl
  | cons c cs ih =>
    rw [bareList, List.filter_cons]
    cases c.isTrivia with
    | true => exact ih
    | false => exact congrArg (c.bare :: ·) ih

/-- The children of a bare node are those that grammar rules speak of. -/
theorem children_bare (t : Tree) : t.bare.children = t.significant.map bare := by
  cases t with
  | leaf => rfl
  | node k a b cs => exact bareList_eq_map cs

theorem childrenOfKind_bare {k : NodeKind} (hk : k.isTrivia = false) (t : Tree) :
    t.bare.childrenOfKind k = (t.childrenOfKind k).map bare := by
  rw [childrenOfKind, children_bare, List.filter_map, significant, List.filter_filter]
  refine congrArg (List.map bare) (List.filter_congr fun c _ => ?_)
  show (c.bare.kind == k && !c.isTrivia) = (c.kind == k)
  rw [kind_bare]
  by_cases hc : c.kind = k
  · rw [isTrivia, hc, hk, Bool.not_false, Bool.and_true]
  · rw [beq_eq_false_iff_ne.mpr hc, Bool.false_and]

theorem onlyChild?_bare {k : NodeKind} (hk : k.isTrivia = false) (t : Tree) :
    t.bare.onlyChild? k = (t.onlyChild? k).map bare := by
  unfold onlyChild?
  rw [childrenOfKind_bare hk]
  rcases t.childrenOfKind k with _ | ⟨c, _ | ⟨d, cs⟩⟩ <;> rfl

theorem bodyStatements?_bare (t : Tree) :
    t.bare.bodyStatements? = t.bodyStatements?.map (List.map bare) := by
  unfold bodyStatements?
  rw [onlyChild?_bare rfl]
  rcases t.onlyChild? .rule with _ | rule
  · rfl
  show (rule.bare.onlyChild? .body >>= _) = _
  rw [onlyChild?_bare rfl]
  rcases hbody : rule.onlyChild? .body with _ | body
  · simp [hbody]
  · simp [hbody, childrenOfKind_bare (show NodeKind.statement.isTrivia = false from rfl)]

/-! ### Further to the right -/

variable (n : Nat)

theorem kind_shift (t : Tree) : (t.shift n).kind = t.kind := by
  cases t <;> rfl

mutual

theorem clean_shift : ∀ t : Tree, (t.shift n).clean = t.clean
  | .leaf _ _ => rfl
  | .node k _ _ cs => congrArg (k != .error && ·) (cleanAll_shiftAll cs)

theorem cleanAll_shiftAll : ∀ cs : List Tree, cleanAll (shiftAll n cs) = cleanAll cs
  | [] => rfl
  | c :: cs => by rw [shiftAll, cleanAll, cleanAll, clean_shift c, cleanAll_shiftAll cs]

end

mutual

theorem bare_shift : ∀ t : Tree, (t.shift n).bare = t.bare.shift n
  | .leaf _ _ => rfl
  | .node k a b cs => congrArg (Tree.node k (n + a) (n + b)) (bareList_shiftAll cs)

theorem bareList_shiftAll : ∀ cs : List Tree, bareList (shiftAll n cs) = shiftAll n (bareList cs)
  | [] => rfl
  | c :: cs => by
    have hkind : (c.shift n).isTrivia = c.isTrivia := congrArg NodeKind.isTrivia (kind_shift n c)
    rw [shiftAll, bareList, hkind, bareList, bareList_shiftAll cs, bare_shift c]
    split <;> rfl

end

theorem filter_shift (k : NodeKind) (cs : List Tree) :
    (cs.map (shift n)).filter (fun c => c.kind == k) =
      (cs.filter fun c => c.kind == k).map (shift n) := by
  rw [List.filter_map]
  congr 2
  funext c
  exact congrArg (· == k) (kind_shift n c)

end PolicyEditor.Tree
