import PolicyEditor.Proofs.Grammar.OperandCoverage
import PolicyEditor.Proofs.Machine.Program

/-!
What takes an item. No item is ever given back, and each round of a loop takes one: a declaration
its first item, a statement the item that can begin it, everything in brackets the opening one.
-/

namespace PolicyEditor.Grammar.Machine

open Program

/-! ### Items are never given back -/

namespace State

variable {σ τ : State}

theorem taken_length (σ : State) (leaf : Item → Tree) :
    (σ.taken leaf).rest.length ≤ σ.rest.length := by
  unfold taken
  split
  · exact Nat.le_refl _
  · rename_i i ts hrest
    show ts.length ≤ σ.rest.length
    rw [hrest]
    exact Nat.le_succ ts.length

theorem taken_length_lt (hne : σ.rest ≠ []) (leaf : Item → Tree) :
    (σ.taken leaf).rest.length < σ.rest.length := by
  unfold taken
  split
  · contradiction
  · rename_i i ts hrest
    show ts.length < σ.rest.length
    rw [hrest]
    exact Nat.lt_succ_self ts.length

theorem closed?_rest {kind : NodeKind} (h : σ.closed? kind = some τ) : τ.rest = σ.rest := by
  unfold closed? at h
  split at h
  · cases h
  · cases h; rfl

theorem left?_rest (h : σ.left? = some τ) : τ.rest = σ.rest := by
  unfold left? at h
  split at h
  · cases h
  · cases h; rfl

theorem after?_length {a : Action} (h : σ.after? a = some τ) :
    τ.rest.length ≤ σ.rest.length := by
  cases a with
  | bump => cases h; exact σ.taken_length Item.leaf
  | bumpName => cases h; exact σ.taken_length Item.nameLeaf
  | begin => cases h; exact Nat.le_refl _
  | beginAt mark => cases h; exact Nat.le_refl _
  | finish kind => exact Nat.le_of_eq (congrArg List.length (closed?_rest h))
  | push change => cases h; exact Nat.le_refl _
  | pop => exact Nat.le_of_eq (congrArg List.length (left?_rest h))
  | settle => cases h; exact Nat.le_of_eq (length_settle σ.rest)

theorem rest_ne_nil (hne : σ.rest ≠ []) (hle : σ.rest.length ≤ τ.rest.length) :
    τ.rest ≠ [] := by
  rw [← List.length_pos_iff] at hne ⊢
  omega

end State

theorem Runs.length_le {c : Program} {σ τ : State} {value : Bool} (h : Runs c σ value τ) :
    τ.rest.length ≤ σ.rest.length := by
  induction h with
  | ret => exact Nat.le_refl _
  | act hafter => exact State.after?_length hafter
  | look _ ih => exact ih
  | call _ ih => exact ih
  | bind _ _ ihFirst ihNext => exact Nat.le_trans ihNext ihFirst

theorem Calls.length_le {c : Program} {σ : State} {x : Procedure × State} (h : Calls c σ x) :
    x.2.rest.length ≤ σ.rest.length := by
  induction h with
  | call => exact Nat.le_refl _
  | look _ ih => exact ih
  | first _ ih => exact ih
  | next hfirst _ ih => exact Nat.le_trans ih hfirst.length_le

/-! ### Programs that take an item -/

/-- Whenever the program comes to its end, it has taken an item. -/
def Takes (c : Program) (σ : State) : Prop :=
  ∀ value τ, Runs c σ value τ → τ.rest.length < σ.rest.length

theorem Takes.call {p : Procedure} {σ : State} (h : Takes (of p) σ) : Takes (.call p) σ := by
  intro value τ hrun
  cases hrun with
  | call hbody => exact h value τ hbody

theorem Takes.look {next : State → Program} {σ : State} (h : Takes (next σ) σ) :
    Takes (.look next) σ := by
  intro value τ hrun
  cases hrun with
  | look hnext => exact h value τ hnext

theorem Takes.bind {c : Program} {next : Bool → Program} {σ : State} (h : Takes c σ) :
    Takes (.bind c next) σ := by
  intro value τ hrun
  cases hrun with
  | bind hfirst hnext => exact Nat.lt_of_le_of_lt hnext.length_le (h _ _ hfirst)

theorem Takes.next {c : Program} {next : Bool → Program} {σ : State}
    (h : ∀ value τ, Runs c σ value τ → Takes (next value) τ) : Takes (.bind c next) σ := by
  intro value τ hrun
  cases hrun with
  | bind hfirst hnext => exact Nat.lt_of_lt_of_le (h _ _ hfirst _ _ hnext) hfirst.length_le

theorem Takes.act {a : Action} {c : Program} {σ : State}
    (h : ∀ τ, σ.after? a = some τ → Takes c τ) : Takes (.act a >> c) σ := by
  refine .next fun value τ hrun => ?_
  cases hrun with
  | act hafter => exact h τ hafter

theorem Takes.node {c : Program} {σ : State} (h : Takes c σ.opened) (kind : NodeKind) :
    Takes (node kind c) σ := by
  refine .act fun τ hafter => ?_
  cases hafter
  exact h.bind

/-- The program takes an item, if there is one, before it looks for anything to call. -/
inductive TakesFirst : Program → Prop where
  | bump : TakesFirst bump
  | name : TakesFirst name
  | seq {c d : Program} : TakesFirst c → TakesFirst (c >> d)
  | act {a : Action} {c : Program} : TakesFirst c → TakesFirst (.act a >> c)
  | look {next : State → Program} : (∀ σ, TakesFirst (next σ)) → TakesFirst (.look next)

theorem takes_of_after? {a : Action} {σ : State}
    (h : ∀ τ, σ.after? a = some τ → τ.rest.length < σ.rest.length) : Takes (.act a) σ := by
  intro value τ hrun
  cases hrun with
  | act hafter => exact h τ hafter

theorem TakesFirst.node {c : Program} (h : TakesFirst c) (kind : NodeKind) :
    TakesFirst (node kind c) :=
  .act (.seq h)

theorem TakesFirst.wrap {c : Program} (h : TakesFirst c) (kind : NodeKind) (mark : Nat) :
    TakesFirst (wrap kind mark c) :=
  .act (.seq h)

theorem TakesFirst.takes {c : Program} (h : TakesFirst c) {σ : State} (hne : σ.rest ≠ []) :
    Takes c σ := by
  induction h generalizing σ with
  | bump => exact takes_of_after? fun τ hafter => by cases hafter; exact State.taken_length_lt hne _
  | name => exact takes_of_after? fun τ hafter => by cases hafter; exact State.taken_length_lt hne _
  | seq _ ih => exact (ih hne).bind
  | act _ ih =>
    intro value τ hrun
    cases hrun with
    | @bind _ _ _ mid _ _ _ hfirst hnext =>
      -- Either the action took an item itself, or the program after it does.
      rcases Nat.lt_or_ge mid.rest.length σ.rest.length with hlt | hge
      · exact Nat.lt_of_le_of_lt hnext.length_le hlt
      · exact Nat.lt_of_lt_of_le (ih (State.rest_ne_nil hne hge) _ _ hnext) hfirst.length_le
  | look _ ih => exact .look (ih σ hne)

/-! ### Procedures that take an item -/

theorem takesFirst_collection (kind : NodeKind) (objects : Bool) (closer : Token.Kind) :
    TakesFirst (collection kind objects closer) :=
  .node (.seq .bump) kind

theorem takesFirst_comprehension (kind : NodeKind) (head : Program) (closer : Token.Kind) :
    TakesFirst (comprehension kind head closer) :=
  .node (.seq .bump) kind

theorem takesFirst_braced : TakesFirst braced :=
  .node (.seq .bump) .body

theorem takesFirst_misplaced : TakesFirst Program.misplaced :=
  .node .bump .error

theorem takesFirst_index : TakesFirst Program.index :=
  .seq .bump

theorem takesFirst_bracket : TakesFirst (of .bracket) := by
  refine .look fun σ => ?_
  split
  · exact takesFirst_comprehension _ _ _
  · exact takesFirst_collection _ _ _

theorem takesFirst_brace : TakesFirst (of .brace) := by
  refine .look fun σ => ?_
  split
  · exact takesFirst_comprehension _ _ _
  · exact takesFirst_comprehension _ _ _
  · exact takesFirst_collection _ _ _
  · exact takesFirst_collection _ _ _
  · exact takesFirst_braced

section

variable {σ : State} {i : Item} {ts : List Item}

/-- Where an operand can begin, one is read. -/
theorem takes_primary (h : σ.rest = i :: ts) (hoperand : neverOperand i.kind = false)
    (hstops : σ.scope.stops i = false) : Takes (of .primary) σ := by
  have hne : σ.rest ≠ [] := h ▸ List.cons_ne_nil i ts
  refine .look ?_
  simp only [h, primaryAt, hoperand, hstops, Bool.or_false, Bool.false_eq_true, if_false]
  split
  · exact TakesFirst.bump.takes hne
  split
  · exact (TakesFirst.node (.seq .bump) .parenExpression).takes hne
  split
  · exact .call (takesFirst_bracket.takes hne)
  split
  · exact .call (takesFirst_brace.takes hne)
  · exact (TakesFirst.seq takesFirst_misplaced).takes hne

theorem takes_unary (h : σ.rest = i :: ts) (hoperand : neverOperand i.kind = false)
    (hstops : σ.scope.stops i = false) : Takes (of .unary) σ := by
  have hne : σ.rest ≠ [] := h ▸ List.cons_ne_nil i ts
  refine .look ?_
  split
  · exact (TakesFirst.node (.seq .bump) .unaryExpression).takes hne
  · exact .call (.look (.bind (.call (takes_primary h hoperand hstops))))

theorem takes_expression (h : σ.rest = i :: ts) (hoperand : neverOperand i.kind = false)
    (hstops : σ.scope.stops i = false) (level : Nat) : Takes (of (.expression level)) σ :=
  .look (.bind (.call (takes_unary h hoperand hstops)))

/-- What is neither a stray token nor the end of statements can begin one. -/
theorem neverOperand_of_not_stray {closer k : Token.Kind} (hcloser : k ≠ closer)
    (hsemicolon : k ≠ .mark .semicolon) (hstray : ¬ Rules.strayAmongStatements closer k = true) :
    neverOperand k = false := by
  simp only [Rules.strayAmongStatements, Bool.and_eq_true, bne_iff_ne, not_and] at hstray
  apply Bool.eq_false_iff.mpr
  intro hnever
  exact hstray ⟨hnever, hcloser⟩ hsemicolon

/-- A statement begins with its first item, whatever line break stands before it. -/
theorem takes_statement (h : σ.rest = i :: ts) (hoperand : neverOperand i.kind = false) :
    Takes (of .statement) σ := by
  have hne : σ.opened.settled.rest ≠ [] := by
    show settle σ.rest ≠ []
    rw [h]
    exact List.cons_ne_nil _ _
  refine Takes.node (.act fun τ hafter => ?_) .statement
  cases hafter
  have hrest : σ.opened.settled.rest = { i with breaks := false } :: ts := by
    show settle σ.rest = _
    rw [h]
    rfl
  refine .bind (.look ?_)
  split
  · exact .call ((TakesFirst.node (.seq .bump) .someDeclaration).takes hne)
  split
  · exact .call ((TakesFirst.node (.seq .bump) .everyExpression).takes hne)
  split
  · exact (TakesFirst.node (.seq .bump) .negation).takes hne
  · exact .call (takes_expression hrest hoperand (Bool.and_false _) assignLevel)

theorem takes_head (h : σ.rest = i :: ts) (hname : i.kind = .identifier) :
    Takes (of .head) σ := by
  refine Takes.node (.bind (.look ?_)) .ruleHead
  have hat : σ.opened.at? .identifier = true := by
    show σ.at? .identifier = true
    rw [State.at?_cons h, hname]
    rfl
  rw [if_pos hat]
  exact TakesFirst.bump.takes (h ▸ List.cons_ne_nil i ts)

theorem takes_rule (h : σ.rest = i :: ts)
    (hkind : i.kind = .keyword .defaultKw ∨ i.kind = .identifier) : Takes (of .rule) σ := by
  have hne : σ.rest ≠ [] := h ▸ List.cons_ne_nil i ts
  have hat : σ.opened.at? (.keyword .defaultKw) = (i.kind == .keyword .defaultKw) :=
    State.at?_cons h _
  refine Takes.node ?_ .rule
  rcases hkind with hdefault | hname
  · refine .bind (.look ?_)
    rw [if_pos (by rw [hat, hdefault]; rfl)]
    exact TakesFirst.bump.takes hne
  · -- Without a word before it the rule begins with its head.
    refine .next fun value τ hrun => ?_
    cases hrun with
    | look hrun =>
      have hskip : ¬ σ.opened.at? (.keyword .defaultKw) = true := by
        rw [hat, hname]
        decide
      simp only [hskip] at hrun
      cases hrun
      exact .bind (.call (takes_head h hname))

/-- Every declaration takes an item. -/
theorem takes_declaration (h : σ.rest = i :: ts) : Takes (declaration i.kind) σ := by
  have hne : σ.rest ≠ [] := h ▸ List.cons_ne_nil i ts
  unfold declaration
  split
  · exact .call ((TakesFirst.node (.seq .bump) .packageDeclaration).takes hne)
  · exact .call ((TakesFirst.node (.seq .bump) .importStatement).takes hne)
  · exact .call (takes_rule h (.inl ‹_›))
  · exact .call (takes_rule h (.inr ‹_›))
  · exact .call ((TakesFirst.node (.seq .bump) .error).takes hne)

end

end PolicyEditor.Grammar.Machine
