import PolicyEditor.Proofs.Grammar.TriviaIndependence
import PolicyEditor.Proofs.Machine.Declarations
import PolicyEditor.Proofs.Machine.Order

/-!
The machine comes to its end on every text: between two entries of one procedure, the second within
the first, an item is taken, and with nothing left to read the machine stands as it began, its one
open child list being the tree that the rules give.
-/

namespace PolicyEditor.Grammar.Machine

open Program

/-- The machine before it has read anything. Line breaks end the expressions of a policy, but not a
single expression. -/
def State.start (lines : Bool) (source : String) : State where
  rest := items (Token.scan source.toList)
  nodes := []
  outer := []
  scope := { lines := lines, bars := false, eof := source.toList.length }
  scopes := []

def State.tree (σ : State) (source : String) : Tree :=
  Tree.dressScript source.toList.length ((Token.scan source.toList).filter Token.isTrivia) σ.nodes

/-- On the text the procedure comes to its end, and in no other way than this: nothing is left to
read, one child list is open, which makes the tree, and the scopes are those of the beginning. -/
structure Ends (p : Procedure) (lines : Bool) (source : String) (t : Tree) : Prop where
  comes : ∃ τ, Runs (.call p) (.start lines source) true τ
  unread : ∀ value τ, Runs (.call p) (.start lines source) value τ → τ.rest = []
  outer : ∀ value τ, Runs (.call p) (.start lines source) value τ → τ.outer = []
  scope : ∀ value τ, Runs (.call p) (.start lines source) value τ →
    τ.scope = (State.start lines source).scope ∧ τ.scopes = []
  tree : ∀ value τ, Runs (.call p) (.start lines source) value τ → τ.tree source = t

theorem Does.ends {p : Procedure} {lines : Bool} {source : String} {cs : List Tree} {t : Tree}
    (h : Does (.call p) (.start lines source) (cs, []))
    (htree : ((State.start lines source).emit cs []).tree source = t) :
    Ends p lines source t where
  comes := ⟨_, h⟩
  unread _ _ hrun := (h.unique hrun).2 ▸ rfl
  outer _ _ hrun := (h.unique hrun).2 ▸ rfl
  scope _ _ hrun := (h.unique hrun).2 ▸ ⟨rfl, rfl⟩
  tree _ _ hrun := (h.unique hrun).2 ▸ htree

theorem ends_script (source : String) : Ends .script true source (parse source) := by
  let σ := State.start true source
  have hscript : Does (.call .script) σ (script source.toList.length σ.rest, []) :=
    does_script (follows_upTo (σ.rest.length + 1)) (Nat.le_refl _) (Nat.lt_succ_self _)
  exact hscript.ends rfl

theorem ends_standalone (source : String) :
    Ends .standalone false source (parseExpression source) := by
  let σ := State.start false source
  have hlone : Does (.call .standalone) σ (Recast.lone source.toList.length σ.rest, []) :=
    does_standalone (follows_upTo (σ.rest.length + 1)) (Nat.lt_succ_self _)
  exact hlone.ends rfl

/-- Before a procedure is entered again from within, another round of a loop being such an entry, an
item is taken. Reading a policy and reading an expression end on every text: with nothing left to
read, one open child list, which makes the tree of the text, and the scopes of the beginning. -/
theorem progresses_and_ends :
    (∀ {p q : Procedure} {σ τ : State}, Relation.TransGen Enters (p, σ) (q, τ) →
      p.number = q.number → τ.rest.length < σ.rest.length) ∧
    ∀ source : String,
      Ends .script true source (parse source) ∧
      Ends .standalone false source (parseExpression source) :=
  ⟨length_lt_of_reenters, fun source => ⟨ends_script source, ends_standalone source⟩⟩

/-- A sign after a sign: reading the first one enters the reading of signs again, one item on. -/
theorem progresses_and_ends_sign :
    let σ := State.start false "--1"
    let τ := σ.opened.taken Item.leaf
    Enters (.unary, σ) (.unary, τ) ∧ τ.rest.length < σ.rest.length ∧
      ∃ υ, Runs (.call .standalone) σ true υ ∧ υ.rest = [] ∧ υ.outer = [] ∧ υ.scopes = [] := by
  intro σ τ
  have henters : Enters (.unary, σ) (.unary, τ) := by
    refine .look ?_
    rw [if_pos (by decide +kernel)]
    exact .next (.act rfl) (.first (.next (.act rfl) (.call .unary τ)))
  have hends := (progresses_and_ends.2 "--1").2
  obtain ⟨υ, hrun⟩ := hends.comes
  exact ⟨henters, progresses_and_ends.1 (.single henters) rfl, υ, hrun, hends.unread _ _ hrun,
    hends.outer _ _ hrun, (hends.scope _ _ hrun).2⟩

end PolicyEditor.Grammar.Machine
