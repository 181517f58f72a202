import PolicyEditor.Proofs.Machine.Expressions
import PolicyEditor.Proofs.Machine.Progress

/-!
Statements on the machine. With them the machine follows the rules on lists one item longer, and so
on lists of any length.
-/

namespace PolicyEditor.Grammar.Machine

open Program

section

variable {σ : State} {i : Item} {ts : List Item}

theorem does_skip (stops : List Token.Kind) (hrest : σ.rest = ts) :
    let fits (j : Item) : Bool := !j.newline && !stops.contains j.kind
    Does (.call (.skip stops)) σ ((ts.takeWhile fits).map Item.leaf, ts.dropWhile fits) := by
  intro fits
  induction ts generalizing σ with
  | nil =>
    refine .call (.look ?_)
    rw [hrest]
    exact does_done hrest
  | cons j ts ih =>
    refine .call (.look ?_)
    rw [hrest]
    show Does (if fits j then _ else _) σ _
    by_cases hfits : fits j = true
    · rw [if_pos hfits, List.takeWhile_cons_of_pos hfits, List.dropWhile_cons_of_pos hfits]
      exact (does_bump hrest).seq (ih rfl)
    · rw [if_neg hfits, List.takeWhile_cons_of_neg hfits, List.dropWhile_cons_of_neg hfits]
      exact does_done hrest

/-- What is wrong on the rest of a line. -/
theorem does_restOfLine (stops : List Token.Kind) (hrest : σ.rest = i :: ts) :
    Does (.call (.restOfLine stops)) σ (single (restOfLine σ.scope stops i ts)) := by
  have hbump : Does bump σ.opened ([i.leaf], ts) := does_bump hrest
  have hskip := does_skip (σ := σ.opened.emit [i.leaf] ts) stops rfl
  exact .call ((hbump.seq hskip).node .error)

end

/-! ### Ends of lines -/

def wrongOnLine (s : Scope) (stops : List Token.Kind) : List Item → ParsedList
  | [] => ([], [])
  | j :: next =>
    if j.newline || stops.contains j.kind then ([], j :: next)
    else single (restOfLine s stops j next)

theorem wrongOnLine_length (s : Scope) (stops : List Token.Kind) (ts : List Item) :
    (wrongOnLine s stops ts).2.length ≤ ts.length := by
  cases ts with
  | nil => exact Nat.le_refl _
  | cons j next =>
    rw [wrongOnLine]
    split
    · exact Nat.le_refl _
    · have hdropped : (restOfLine s stops j next).2.length ≤ next.length :=
        (List.dropWhile_suffix _).length_le
      exact Nat.le_succ_of_le hdropped

theorem does_endOfLine (stops : List Token.Kind) {σ : State} :
    Does (endOfLine stops) σ (wrongOnLine σ.scope stops σ.rest) := by
  refine .look ?_
  cases hrest : σ.rest with
  | nil =>
    rw [State.newline_nil hrest, Bool.true_or, if_pos rfl]
    exact does_done hrest
  | cons j next =>
    rw [State.newline_cons hrest, State.sees_cons hrest, wrongOnLine]
    split
    · exact does_done hrest
    · exact does_restOfLine stops hrest

section

variable (r : Rules) (s : Scope)

theorem statementList_nil (closer : Token.Kind) (rounds : Nat) :
    r.statementList s closer rounds [] = ([], []) := by
  cases rounds <;> rfl

/-- Where neither a separator nor the end of the list stands, a statement is read, and what is wrong
on its line. -/
theorem statementList_cons {closer : Token.Kind} {i : Item} (hcloser : i.kind ≠ closer)
    (hsemicolon : i.kind ≠ .mark .semicolon)
    (hstray : ¬ Rules.strayAmongStatements closer i.kind = true) (rounds : Nat) (rest : List Item) :
    let p := r.statement s (i :: rest)
    let wrong := wrongOnLine s [closer, .mark .semicolon] p.2
    let more := r.statementList s closer rounds wrong.2
    r.statementList s closer (rounds + 1) (i :: rest) = (p.1 :: (wrong.1 ++ more.1), more.2) := by
  have hstops : ∀ j : Item, (j.newline || [closer, .mark .semicolon].contains j.kind) =
      (decide (j.kind = closer) || j.kind == .mark .semicolon || j.newline) := by
    intro j
    rw [Bool.or_comm, List.contains_cons, List.contains_cons, List.contains_nil, Bool.or_false]
    rfl
  rw [Rules.statementList, if_neg hcloser, if_neg hsemicolon, if_neg hstray]
  rcases r.statement s (i :: rest) with ⟨node, after⟩
  cases after with
  | nil => simp only [wrongOnLine, statementList_nil, List.append_nil]
  | cons j next =>
    simp only [wrongOnLine, hstops]
    split
    · rfl
    · rfl

end

section

variable {r : Rules} {n : Nat} (h : Follows r n) {σ : State}
include h

/-! ### Terms between commas -/

/-- A term and those after commas. There is a round for every comma and one for the first term. -/
theorem does_terms {rounds : Nat} (hrounds : σ.rest.length < rounds) (hn : σ.rest.length < n) :
    Does (term >> .call .moreTerms) σ (terms (r.expr σ.scope setOpLevel) rounds σ.rest) := by
  induction rounds generalizing σ with
  | zero => exact absurd hrounds (Nat.not_lt_zero _)
  | succ rounds ih =>
    have hterm : Does term σ (single (r.expr σ.scope setOpLevel σ.rest)) :=
      (h.expr setOpLevel).does σ hn
    have hlength := (h.expr setOpLevel).length_le σ.scope σ.rest
    rcases hp : r.expr σ.scope setOpLevel σ.rest with ⟨node, after⟩
    rw [hp] at hterm hlength
    simp only [terms, hp]
    cases after with
    | nil =>
      have hlast : Does (.call .moreTerms) (σ.emit [node] []) ([], []) :=
        .call (does_afterComma_nil rfl)
      exact hterm.seq hlast
    | cons j next =>
      have hfewer : next.length < σ.rest.length := hlength
      by_cases hcomma : j.kind = .mark .comma
      · simp only [hcomma, if_true]
        have hmore := ih (σ := (σ.emit [node] (j :: next)).emit [j.leaf] next)
          (Nat.lt_of_lt_of_le hfewer (Nat.le_of_lt_succ hrounds)) (Nat.lt_trans hfewer hn)
        exact hterm.seq (Does.call (f := .moreTerms) (does_afterComma rfl hcomma hmore))
      · simp only [hcomma, if_false]
        have hlast : Does (.call .moreTerms) (σ.emit [node] (j :: next)) ([], j :: next) :=
          .call (does_afterComma_of_ne rfl hcomma)
        exact hterm.seq hlast

theorem does_termList (hn : σ.rest.length < n) :
    Does (.call .termList) σ (r.termList σ.scope σ.rest) :=
  .call (does_terms h (Nat.lt_succ_self _) hn)

/-! ### Clauses -/

theorem does_everyBody (hn : σ.rest.length ≤ n) :
    Does (.look fun τ => if τ.at? (.mark .lbrace) then .call .bracedBody else Program.missing) σ
      (single (Rules.everyBody r σ.scope σ.rest)) := by
  refine .look ?_
  cases hrest : σ.rest with
  | nil =>
    rw [State.at?_nil hrest, if_neg (by decide)]
    exact does_missing hrest
  | cons j next =>
    rw [hrest] at hn
    rw [Rules.everyBody]
    by_cases hbrace : j.kind = .mark .lbrace
    · rw [if_pos ((State.at?_eq_true_iff hrest _).mpr hbrace), if_pos hbrace]
      exact .call (does_braced h hrest hn)
    · rw [if_neg fun hat => hbrace ((State.at?_eq_true_iff hrest _).mp hat), if_neg hbrace]
      exact does_missing hrest

theorem does_clause (hn : σ.rest.length ≤ n) :
    Does clause σ (single (r.clause σ.scope σ.rest)) := by
  have hexpr := does_expression h assignLevel hn
  refine .look ?_
  cases hrest : σ.rest with
  | nil =>
    rw [hrest] at hexpr
    rw [State.at?_nil hrest, State.at?_nil hrest, State.at?_nil hrest]
    exact hexpr
  | cons i rest =>
    rw [hrest] at hexpr hn
    rw [State.at?_cons hrest, State.at?_cons hrest, State.at?_cons hrest]
    have hopener : Does bump σ.opened ([i.leaf], rest) := does_bump hrest
    have hterms : Does (.call .termList) (σ.opened.emit [i.leaf] rest) (r.termList σ.scope rest) :=
      does_termList h hn
    by_cases hsome : i.kind = .keyword .someKw
    · rw [if_pos (beq_iff_eq.mpr hsome)]
      simp only [Rules.clause, hsome]
      exact .call ((hopener.seq hterms).node .someDeclaration)
    rw [if_neg (by rwa [beq_iff_eq])]
    by_cases hevery : i.kind = .keyword .everyKw
    · rw [if_pos (beq_iff_eq.mpr hevery), Rules.clause_every hevery]
      have hlength := (Rules.termList_composes h.covers σ.scope rest).length_le
      have hbody := does_everyBody h (σ := (σ.opened.emit [i.leaf] rest).emit
        (r.termList σ.scope rest).1 (r.termList σ.scope rest).2)
        (Nat.le_trans hlength (Nat.le_of_succ_le hn))
      exact .call ((hopener.seq (hterms.seq hbody)).node .everyExpression)
    rw [if_neg (by rwa [beq_iff_eq])]
    by_cases hnot : i.kind = .keyword .notKw
    · rw [if_pos (beq_iff_eq.mpr hnot)]
      simp only [Rules.clause, hnot]
      have hvalue := (h.expr assignLevel).does (σ.opened.emit [i.leaf] rest) hn
      exact (hopener.seq hvalue).node .negation
    · have hclause : r.clause σ.scope (i :: rest) =
          r.expression σ.scope assignLevel (i :: rest) := by
        rw [Rules.clause]
        split
        · contradiction
        · contradiction
        · contradiction
        · rfl
      rw [if_neg (by rwa [beq_iff_eq]), hclause]
      exact hexpr

/-! ### Statements -/

theorem does_modifiers {rounds : Nat} (hrounds : σ.rest.length ≤ rounds) (hn : σ.rest.length ≤ n) :
    Does (.call .modifiers) σ (r.modifiers σ.scope rounds σ.rest) := by
  induction rounds generalizing σ with
  | zero =>
    have hrest : σ.rest = [] := List.eq_nil_of_length_eq_zero (Nat.le_zero.mp hrounds)
    refine .call (.look ?_)
    rw [hrest]
    rw [State.at?_nil hrest]
    exact does_done hrest
  | succ rounds ih =>
    refine .call (.look ?_)
    cases hrest : σ.rest with
    | nil =>
      rw [State.at?_nil hrest]
      exact does_done hrest
    | cons i rest =>
      rw [hrest] at hrounds hn
      rw [State.at?_cons hrest, State.stops_cons hrest, Rules.modifiers]
      show Does (if i.kind = .keyword .withKw && !σ.scope.stops i then _ else _) σ _
      split
      -- Target, word and value are read one after another, each on no more items.
      · have hopener : Does bump σ.opened ([i.leaf], rest) := does_bump hrest
        have htarget := h.unary.does (σ.opened.emit [i.leaf] rest) hn
        have htargetLength := h.unary.length_le σ.scope rest
        have hasLength := Nat.le_trans (expect_length_le (.keyword .asKw) σ.scope _) htargetLength
        have hvalueLength := Nat.le_trans ((h.expr setOpLevel).length_le σ.scope _) hasLength
        have hparts := hopener.seq (htarget.seq ((does_expect (.keyword .asKw)).seq
          ((h.expr setOpLevel).does _ (Nat.lt_of_le_of_lt hasLength hn))))
        have hmodifier : Does (.call .modifier) σ _ := .call (hparts.node .withModifier)
        exact hmodifier.seq (ih (Nat.le_trans hvalueLength (Nat.le_of_succ_le_succ hrounds))
          (Nat.le_trans hvalueLength (Nat.le_of_succ_le hn)))
      · exact does_done hrest

theorem does_statement (hn : σ.rest.length ≤ n) :
    Does (.call .statement) σ (single (r.statement σ.scope σ.rest)) := by
  -- No line break before the first item ends the statement, and it keeps as many items.
  have hsettled : σ.opened.settled.rest.length ≤ n := by
    show (settle σ.rest).length ≤ n
    rwa [length_settle]
  have hclause : Does clause σ.opened.settled (single (r.clause σ.scope (settle σ.rest))) :=
    does_clause h hsettled
  have hlength : (r.clause σ.scope (settle σ.rest)).2.length ≤ n :=
    Nat.le_trans (Rules.clause_composes h.covers σ.scope (settle σ.rest)).length_le hsettled
  have hparts := hclause.seq (does_modifiers h (Nat.le_refl _) hlength)
  exact .call (hparts.settled.node .statement)

/-- The rounds of statements: each takes an item, a statement at least its first one. -/
theorem does_statementList {closer : Token.Kind} {rounds : Nat} (hrounds : σ.rest.length ≤ rounds)
    (hn : σ.rest.length ≤ n) :
    Does (.call (.statements closer)) σ (r.statementList σ.scope closer rounds σ.rest) := by
  induction rounds generalizing σ with
  | zero =>
    have hrest : σ.rest = [] := List.eq_nil_of_length_eq_zero (Nat.le_zero.mp hrounds)
    refine .call (.look ?_)
    rw [hrest]
    exact does_done hrest
  | succ rounds ih =>
    have hstatement := does_statement h hn
    refine .call (.look ?_)
    cases hrest : σ.rest with
    | nil => exact does_done hrest
    | cons i rest =>
      rw [hrest] at hstatement hrounds hn
      have hrestRounds := Nat.le_of_succ_le_succ hrounds
      have hrestBound := Nat.le_of_succ_le hn
      have hmore : ∀ {τ : State}, τ.rest.length ≤ rest.length →
          Does (.call (.statements closer)) τ (r.statementList τ.scope closer rounds τ.rest) :=
        fun hτ => ih (Nat.le_trans hτ hrestRounds) (Nat.le_trans hτ hrestBound)
      show Does (if i.kind = closer then done else _) σ _
      by_cases hcloser : i.kind = closer
      · rw [Rules.statementList, if_pos hcloser, if_pos hcloser]
        exact does_done hrest
      rw [if_neg hcloser]
      by_cases hsemicolon : i.kind = .mark .semicolon
      · rw [Rules.statementList, if_neg hcloser, if_pos hsemicolon, if_pos hsemicolon]
        exact (does_bump hrest).seq (hmore (Nat.le_refl _))
      rw [if_neg hsemicolon]
      by_cases hstray : Rules.strayAmongStatements closer i.kind = true
      · rw [Rules.statementList, if_neg hcloser, if_neg hsemicolon, if_pos hstray, if_pos hstray]
        exact (does_misplaced hrest).seq (hmore (Nat.le_refl _))
      rw [if_neg hstray, statementList_cons r σ.scope hcloser hsemicolon hstray]
      -- A statement that can begin here takes its first item at least.
      have htakes := takes_statement hrest (neverOperand_of_not_stray hcloser hsemicolon hstray)
      have hshorter : (r.statement σ.scope (i :: rest)).2.length < σ.rest.length :=
        htakes.call _ _ hstatement
      rw [hrest] at hshorter
      have hline := Nat.le_trans (wrongOnLine_length σ.scope [closer, .mark .semicolon] _)
        (Nat.le_of_lt_succ hshorter)
      exact hstatement.seq ((does_endOfLine _).seq (hmore hline))

end

namespace Follows

variable {r : Rules} {n : Nat}

/-- Following the rules on shorter lists is following them on longer ones. -/
theorem step (h : Follows r n) : Follows r.step (n + 1) where
  expr level :=
    { does := fun _ hn => does_expression h level (Nat.le_of_lt_succ hn)
      length_le := fun s ts => (Rules.expression_composes h.covers s level ts).length_le }
  unary :=
    { does := by
        intro σ hn
        show Does (.call .unary) σ (single (r.expression σ.scope unaryLevel σ.rest))
        rw [expression_unaryLevel]
        exact does_unary h rfl (Nat.le_of_lt_succ hn)
      length_le := fun s ts => (Rules.expression_composes h.covers s unaryLevel ts).length_le }
  statements _ _ hn := does_statementList h (Nat.le_refl _) (Nat.le_of_lt_succ hn)
  covers := Rules.step_compose h.covers

end Follows

/-- The machine does what the rules give, on lists of any length. -/
theorem follows_upTo (n : Nat) : Follows (Rules.upTo n) n := by
  induction n with
  | zero =>
    -- There is no list of fewer than no items.
    have hcovers : (Rules.upTo 0).Composed Covers := Rules.upTo_compose 0
    have hobeys : ∀ (c : Program) (level : Nat),
        Obeys c (fun s => (Rules.upTo 0).expr s level) 0 := fun _ level =>
      ⟨fun _ hn => absurd hn (Nat.not_lt_zero _),
        fun s ts => (hcovers.expr s level ts).length_le⟩
    exact
      { expr := fun level => hobeys _ level
        unary := hobeys _ unaryLevel
        statements := fun _ _ hn => absurd hn (Nat.not_lt_zero _)
        covers := hcovers }
  | succ n ih => exact ih.step

end PolicyEditor.Grammar.Machine
