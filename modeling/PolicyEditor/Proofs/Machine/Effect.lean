import PolicyEditor.Proofs.Grammar.ScriptCoverage
import PolicyEditor.Proofs.Machine.Program

/-!
What a program does when it comes to its end: it adds nodes to the innermost child list and leaves
items, and all else is as it was. Programs put together do what their parts do one after another.
-/

namespace PolicyEditor.Grammar.Machine

open Program

/-- From the state the program comes to its end; it has added these nodes and left these items. -/
def Does (c : Program) (σ : State) (p : ParsedList) : Prop :=
  Runs c σ true (σ.emit p.1 p.2)

def single (p : Parsed) : ParsedList :=
  ([p.1], p.2)

namespace State

theorem emit_nil (σ : State) : σ.emit [] σ.rest = σ := by
  rw [emit, List.append_nil]

theorem emit_emit (σ : State) (cs ds : List Tree) (ts us : List Item) :
    (σ.emit cs ts).emit ds us = σ.emit (cs ++ ds) us := by
  simp only [emit, List.append_assoc]

theorem taken_cons {σ : State} {i : Item} {ts : List Item} (h : σ.rest = i :: ts)
    (leaf : Item → Tree) : σ.taken leaf = σ.emit [leaf i] ts := by
  simp only [taken, h]

end State

section

variable {c d : Program} {σ : State} {i : Item} {ts : List Item} {p q : ParsedList}

theorem does_done (h : σ.rest = ts) : Does done σ ([], ts) := by
  show Runs done σ true (σ.emit [] ts)
  rw [← h, State.emit_nil]
  exact .ret true σ

theorem does_bump (h : σ.rest = i :: ts) : Does bump σ ([i.leaf], ts) :=
  .act (congrArg some (State.taken_cons h Item.leaf))

theorem does_name (h : σ.rest = i :: ts) : Does name σ ([i.nameLeaf], ts) :=
  .act (congrArg some (State.taken_cons h Item.nameLeaf))

theorem Does.seq (h : Does c σ p) (hd : Does d (σ.emit p.1 p.2) q) :
    Does (c >> d) σ (p.1 ++ q.1, q.2) := by
  have hrun : Runs (c >> d) σ true ((σ.emit p.1 p.2).emit q.1 q.2) := .bind h hd
  rwa [State.emit_emit] at hrun

theorem Does.call {f : Procedure} (h : Does (of f) σ p) : Does (.call f) σ p :=
  Runs.call h

theorem Does.look {next : State → Program} (h : Does (next σ) σ p) : Does (.look next) σ p :=
  Runs.look h

/-- A node over what is done in a child list of its own. -/
theorem Does.node (h : Does c σ.opened p) (kind : NodeKind) :
    Does (node kind c) σ (single (.enclose kind (σ.scope.here p.2) p.1, p.2)) :=
  .bind (.act rfl) (.bind h (.act rfl))

theorem Does.within {change : Scope → Scope} (h : Does c (σ.entered change) p) :
    Does (within change c) σ p :=
  .bind (.act rfl) (.bind h (.act rfl))

theorem Does.settled (h : Does c σ.settled p) : Does (.act .settle >> c) σ p :=
  .bind (.act rfl) h

/-- A node that takes over the last child and encloses it with what is done after it. -/
theorem runs_wrap {base : Tree} (h : Does c (σ.opened.emit [base] ts) p) (kind : NodeKind) :
    Runs (wrap kind σ.nodes.length c) (σ.emit [base] ts) true
      (σ.emit [.enclose kind (σ.scope.here p.2) (base :: p.1)] p.2) := by
  have hbegin : (σ.emit [base] ts).after? (.beginAt σ.nodes.length) =
      some (σ.opened.emit [base] ts) := by
    simp only [State.after?, State.emit, State.opened, List.drop_left, List.take_left,
      List.nil_append]
  exact .bind (.act hbegin) (.bind h (.act rfl))

theorem does_missing (h : σ.rest = ts) :
    Does Program.missing σ (single (missing σ.scope ts, ts)) := by
  have hdone : Does done σ.opened ([], ts) := does_done h
  exact hdone.node .error

theorem does_misplaced (h : σ.rest = i :: ts) :
    Does Program.misplaced σ (single (misplaced σ.scope [i], ts)) := by
  have hbump : Does bump σ.opened ([i.leaf], ts) := does_bump h
  exact hbump.node .error

theorem does_expect (kind : Token.Kind) :
    Does (Program.expect kind) σ (single (expect kind σ.scope σ.rest)) := by
  refine .look ?_
  cases hrest : σ.rest with
  | nil =>
    rw [if_neg (by rw [State.at?_nil hrest]; decide)]
    exact does_missing hrest
  | cons i ts =>
    by_cases hi : i.kind = kind
    · rw [if_pos ((State.at?_eq_true_iff hrest kind).mpr hi)]
      simp only [expect, hi, if_true]
      exact does_bump hrest
    · rw [if_neg fun hat => hi ((State.at?_eq_true_iff hrest kind).mp hat)]
      simp only [expect, hi, if_false]
      exact does_missing hrest

theorem does_afterComma (h : σ.rest = i :: ts) (hcomma : i.kind = .mark .comma)
    (hc : Does c (σ.emit [i.leaf] ts) p) : Does (afterComma c) σ (i.leaf :: p.1, p.2) := by
  refine .look ?_
  rw [if_pos ((State.at?_eq_true_iff h _).mpr hcomma)]
  exact (does_bump h).seq hc

theorem does_afterComma_nil (h : σ.rest = []) : Does (afterComma c) σ ([], []) := by
  refine .look ?_
  rw [State.at?_nil h]
  exact does_done h

theorem does_afterComma_of_ne (h : σ.rest = i :: ts) (hne : i.kind ≠ .mark .comma) :
    Does (afterComma c) σ ([], i :: ts) := by
  refine .look ?_
  rw [if_neg fun hat => hne ((State.at?_eq_true_iff h _).mp hat)]
  exact does_done h

end

end PolicyEditor.Grammar.Machine
