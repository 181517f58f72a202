import PolicyEditor.Proofs.Machine.Operands

/-!
Operands with what follows them, signs and operators on the machine. What follows an operand wraps
it, so the loops here run on a child list whose last child grows from round to round.
-/

namespace PolicyEditor.Grammar.Machine

open Program

/-- A round that wraps the last child, and the rounds after it. -/
theorem runs_round {c d : Program} {σ : State} {base : Tree} {ts : List Item} {p : ParsedList}
    {last : Parsed} (kind : NodeKind) (hround : Does c (σ.opened.emit [base] ts) p)
    (hmore : Runs d (σ.emit [.enclose kind (σ.scope.here p.2) (base :: p.1)] p.2) true
      (σ.emit [last.1] last.2)) :
    Runs (wrap kind σ.nodes.length c >> d) (σ.emit [base] ts) true (σ.emit [last.1] last.2) :=
  .bind (runs_wrap hround kind) hmore

theorem does_memberName {σ : State} : Does memberName σ (single (member σ.scope σ.rest)) := by
  refine .look ?_
  cases hrest : σ.rest with
  | nil =>
    rw [State.sees_nil hrest, Bool.false_and]
    exact does_missing hrest
  | cons j next =>
    rw [State.sees_cons hrest, State.newline_cons hrest, member]
    split
    · exact does_name hrest
    · exact does_missing hrest

section

variable {r : Rules} {n : Nat} (h : Follows r n) {σ : State}
include h

/-- The machine and the rule see the same part, if any, and read it alike. -/
theorem does_part {s : Scope} (hscope : σ.scope = s) {i : Item} {rest : List Item}
    (hrest : σ.rest = i :: rest) (hn : rest.length < n) :
    partAt? s i = none ∧ part r.expr s i rest = none ∨
      ∃ kind c p, partAt? s i = some (kind, c) ∧ part r.expr s i rest = some (kind, p) ∧
        Does c σ p := by
  subst hscope
  unfold partAt? part
  by_cases hstops : σ.scope.stops i
  · rw [if_pos hstops, if_pos hstops]
    exact .inl ⟨rfl, rfl⟩
  rw [if_neg hstops, if_neg hstops]
  by_cases hdot : i.kind = .mark .dot
  · rw [if_pos hdot, if_pos hdot]
    exact .inr ⟨_, _, _, rfl, rfl, (does_bump hrest).seq does_memberName⟩
  rw [if_neg hdot, if_neg hdot]
  by_cases hbracket : i.kind = .mark .lbracket
  · rw [if_pos hbracket, if_pos hbracket]
    exact .inr ⟨_, _, _, rfl, rfl, does_index h hrest hn⟩
  rw [if_neg hbracket, if_neg hbracket]
  by_cases hparen : i.kind = .mark .lparen
  · rw [if_pos hparen, if_pos hparen]
    exact .inr ⟨_, _, _, rfl, rfl, does_arguments h hrest hn⟩
  · rw [if_neg hparen, if_neg hparen]
    exact .inl ⟨rfl, rfl⟩

/-- Names after dots, indexes and arguments. -/
theorem runs_suffixes {rounds : Nat} {base : Tree} {ts : List Item}
    (hrounds : ts.length ≤ rounds) (hn : ts.length ≤ n) :
    let p := references r.expr σ.scope rounds base ts
    Runs (.call (.suffixes σ.nodes.length)) (σ.emit [base] ts) true (σ.emit [p.1] p.2) := by
  -- On the rounds: the node of one round is the base of the next.
  induction rounds generalizing base ts with
  | zero =>
    have hts : ts = [] := List.eq_nil_of_length_eq_zero (Nat.le_zero.mp hrounds)
    subst hts
    exact .call (.look (.ret true _))
  | succ rounds ih =>
    cases ts with
    | nil => exact .call (.look (.ret true _))
    | cons i rest =>
      have hparts := does_part h (s := σ.scope) (σ := σ.opened.emit [base] (i :: rest)) rfl rfl hn
      refine .call (.look ?_)
      show Runs (suffixAt σ.scope σ.nodes.length i) _ _ _
      obtain ⟨hnone, hpart⟩ | ⟨kind, c, p, hsome, hpart, hdoes⟩ := hparts
      · have hdone : suffixAt σ.scope σ.nodes.length i = done := by
          rw [suffixAt, hnone]
        rw [hdone, references_none hpart]
        exact .ret true _
      · have hround : suffixAt σ.scope σ.nodes.length i =
            (wrap kind σ.nodes.length c >> .call (.suffixes σ.nodes.length)) := by
          rw [suffixAt, hsome]
        -- With a part read, the rounds that are left are enough for what it leaves.
        have hlength : p.2.length ≤ rest.length := part_length h.covers.expr hpart
        rw [hround, references_some hpart]
        exact runs_round kind hdoes (ih (Nat.le_trans hlength (Nat.le_of_succ_le_succ hrounds))
          (Nat.le_trans hlength (Nat.le_of_succ_le hn)))

/-- An operand that something may follow. -/
theorem does_continued {p : Parsed} (hprimary : Runs (.call .primary) σ true (σ.emit [p.1] p.2))
    (hn : p.2.length ≤ n) :
    Does (.call .operand) σ (single (references r.expr σ.scope p.2.length p.1 p.2)) :=
  .call (.look (.bind hprimary (runs_suffixes h (Nat.le_refl _) hn)))

omit h in
/-- An operand that nothing follows: a placeholder or a misplaced token. -/
theorem does_alone {p : Parsed} (hprimary : Runs (.call .primary) σ false (σ.emit [p.1] p.2)) :
    Does (.call .operand) σ (single p) :=
  .call (.look (.bind hprimary (.ret true _)))

theorem does_operand (hn : σ.rest.length ≤ n) :
    Does (.call .operand) σ (single (r.operand σ.scope σ.rest)) := by
  cases hrest : σ.rest with
  | nil =>
    apply does_alone
    refine .call (.look ?_)
    rw [hrest]
    exact .bind (does_missing hrest) (.ret false _)
  | cons i rest =>
    rw [hrest] at hn
    have henter : ∀ {value : Bool} {τ : State}, Runs (primaryAt σ.scope i) σ value τ →
        Runs (.call .primary) σ value τ := by
      intro value τ hrun
      refine .call (.look ?_)
      rw [hrest]
      exact hrun
    -- What comes back from brackets is what is left of the items after the opening one.
    have hleft : ∀ {p : Parsed}, Covers σ.scope.eof (i :: rest) [p.1] p.2 → p.2.length ≤ n :=
      fun hcovers => Nat.le_trans hcovers.length_le hn
    unfold primaryAt at henter
    rw [Rules.operand]
    split at henter
    case isTrue hnever =>
      rw [if_pos hnever]
      exact does_alone (henter (.bind (does_missing hrest) (.ret false _)))
    case isFalse hnever =>
    rw [if_neg hnever]
    split at henter
    case isTrue hliteral =>
      rw [if_pos hliteral]
      exact does_continued h (p := (i.leaf, rest)) (henter (does_bump hrest)) (Nat.le_of_succ_le hn)
    case isFalse hliteral =>
    rw [if_neg hliteral]
    split at henter
    case isTrue hparen =>
      rw [if_pos hparen]
      exact does_continued h (henter (does_parens h hrest hn))
        (hleft (Rules.parens_compose h.covers σ.scope i rest))
    case isFalse hparen =>
    rw [if_neg hparen]
    split at henter
    case isTrue hbracket =>
      rw [if_pos hbracket]
      exact does_continued h (henter (does_bracket h hrest hn))
        (hleft (Rules.brackets_compose h.covers σ.scope i rest))
    case isFalse hbracket =>
    rw [if_neg hbracket]
    split at henter
    case isTrue hbrace =>
      rw [if_pos hbrace]
      exact does_continued h (henter (does_brace h hrest hn))
        (hleft (Rules.braces_compose h.covers σ.scope i rest))
    case isFalse hbrace =>
      rw [if_neg hbrace]
      exact does_alone (henter (.bind (does_misplaced hrest) (.ret false _)))

/-- Signs before an operand. -/
theorem does_unary {ts : List Item} (hrest : σ.rest = ts) (hn : ts.length ≤ n) :
    Does (.call .unary) σ (single (unaryWith (r.operand σ.scope) σ.scope ts)) := by
  -- On the items: what follows a sign is again signs before an operand.
  induction ts generalizing σ with
  | nil =>
    have hoperand := does_operand h (Nat.le_trans (Nat.le_of_eq (congrArg List.length hrest)) hn)
    rw [hrest] at hoperand
    refine .call (.look ?_)
    rw [State.at?_nil hrest, State.at?_nil hrest, if_neg (by simp)]
    exact hoperand
  | cons i rest ih =>
    have hoperand := does_operand h (Nat.le_trans (Nat.le_of_eq (congrArg List.length hrest)) hn)
    rw [hrest] at hoperand
    refine .call (.look ?_)
    rw [State.at?_cons hrest, State.at?_cons hrest, State.stops_cons hrest]
    show Does (if (i.kind = .operator .minus || i.kind == .operator .bang) && !σ.scope.stops i
      then _ else _) σ _
    split
    case isTrue hsign =>
      have hbump : Does bump σ.opened ([i.leaf], rest) := does_bump hrest
      have hinner := ih (σ := σ.opened.emit [i.leaf] rest) rfl (Nat.le_of_succ_le hn)
      rw [unaryWith, if_pos hsign]
      exact (hbump.seq hinner).node .unaryExpression
    case isFalse hsign =>
      rw [unaryWith, if_neg hsign]
      exact hoperand

/-- Operators with their right operands. -/
theorem runs_operators (level : Nat) {rounds : Nat} {left : Tree} {ts : List Item}
    (hrounds : ts.length ≤ rounds) (hn : ts.length ≤ n) :
    let p := binaryTail r.expr σ.scope level rounds left ts
    Runs (.call (.operators level σ.nodes.length)) (σ.emit [left] ts) true (σ.emit [p.1] p.2) := by
  -- On the rounds: the node of one round is the left operand of the next.
  induction rounds generalizing left ts with
  | zero =>
    have hts : ts = [] := List.eq_nil_of_length_eq_zero (Nat.le_zero.mp hrounds)
    subst hts
    exact .call (.look (.ret true _))
  | succ rounds ih =>
    cases ts with
    | nil => exact .call (.look (.ret true _))
    | cons i rest =>
      refine .call (.look ?_)
      show Runs (operatorAt σ.scope level σ.nodes.length i) _ _ _
      rw [operatorAt, binaryTail]
      rcases hbinding : binding? i.kind with _ | b
      · exact .ret true _
      simp only
      split
      · exact .ret true _
      · have hbump : Does bump (σ.opened.emit [left] (i :: rest)) ([i.leaf], rest) := does_bump rfl
        have hright := (h.expr (b.level + 1)).does
          ((σ.opened.emit [left] (i :: rest)).emit [i.leaf] rest) hn
        have hlength := (h.expr (b.level + 1)).length_le σ.scope rest
        have hmore := Nat.le_trans hlength (Nat.le_of_succ_le_succ hrounds)
        exact runs_round b.node (hbump.seq hright)
          (ih hmore (Nat.le_trans hlength (Nat.le_of_succ_le hn)))

theorem does_expression (level : Nat) (hn : σ.rest.length ≤ n) :
    Does (.call (.expression level)) σ (single (r.expression σ.scope level σ.rest)) := by
  have hunary := does_unary h rfl hn
  have hcovers := unaryWith_composes (Rules.operand_composes h.covers σ.scope) σ.rest
  have hleft := Nat.le_trans (Covers.length_le hcovers) hn
  exact .call (.look (.bind hunary (runs_operators h level (Nat.le_refl _) hleft)))

end

/-- No operator binds as tightly as a sign. -/
theorem binaryTail_unaryLevel (expr : ExprParser) (s : Scope) (rounds : Nat) (left : Tree)
    (ts : List Item) : binaryTail expr s unaryLevel rounds left ts = (left, ts) := by
  cases rounds with
  | zero => rfl
  | succ rounds =>
    cases ts with
    | nil => rfl
    | cons i rest =>
      rw [binaryTail]
      rcases hbinding : binding? i.kind with _ | b
      · rfl
      · have hlevel := level_lt_unaryLevel hbinding
        simp only [hlevel, decide_true, Bool.true_or, if_true]

theorem expression_unaryLevel (r : Rules) (s : Scope) (ts : List Item) :
    r.expression s unaryLevel ts = unaryWith (r.operand s) s ts :=
  binaryTail_unaryLevel r.expr s _ _ _

end PolicyEditor.Grammar.Machine
