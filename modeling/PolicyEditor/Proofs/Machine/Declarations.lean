import PolicyEditor.Proofs.Machine.Statements

/-!
Declarations on the machine, one after another to the end of the text.
-/

namespace PolicyEditor.Grammar.Machine

open Program

theorem Takes.length_lt {c : Program} {σ : State} {p : ParsedList} (h : Takes c σ)
    (hdoes : Does c σ p) : p.2.length < σ.rest.length :=
  h _ _ hdoes

section

variable {r : Rules} {n : Nat} (h : Follows r n) {σ : State}
include h

/-! ### Paths -/

/-- Names after dots and indexes. Each round takes an item. -/
theorem does_pathTail {rounds : Nat} (hrounds : σ.rest.length ≤ rounds) (hn : σ.rest.length < n) :
    Does (.call .pathTail) σ (r.pathTail σ.scope rounds σ.rest) := by
  induction rounds generalizing σ with
  | zero =>
    have hrest : σ.rest = [] := List.eq_nil_of_length_eq_zero (Nat.le_zero.mp hrounds)
    refine .call (.look ?_)
    rw [hrest]
    exact does_done hrest
  | succ rounds ih =>
    refine .call (.look ?_)
    cases hrest : σ.rest with
    | nil =>
      exact does_done hrest
    | cons i rest =>
      rw [hrest] at hrounds hn
      have hmore : ∀ {τ : State}, τ.rest.length ≤ rest.length →
          Does (.call .pathTail) τ (r.pathTail τ.scope rounds τ.rest) := fun hτ =>
        ih (Nat.le_trans hτ (Nat.le_of_succ_le_succ hrounds))
          (Nat.lt_of_le_of_lt hτ (Nat.lt_of_succ_lt hn))
      show Does (if i.newline then done else _) σ _
      rw [Rules.pathTail.eq_def]
      simp only
      by_cases hline : i.newline = true
      · rw [if_pos hline, if_pos hline]
        exact does_done hrest
      rw [if_neg hline, if_neg hline]
      by_cases hdot : i.kind = .mark .dot
      · rw [if_pos hdot, if_pos hdot]
        cases rest with
        | nil => exact does_done hrest
        | cons j next =>
          show Does (if j.kind.isName then _ else done) σ _
          simp only
          by_cases hname : j.kind.isName = true
          · rw [if_pos hname, if_pos hname]
            have hnext : Does name (σ.emit [i.leaf] (j :: next)) ([j.nameLeaf], next) :=
              does_name rfl
            exact (does_bump hrest).seq (hnext.seq (hmore (Nat.le_succ next.length)))
          · rw [if_neg hname, if_neg hname]
            exact does_done hrest
      rw [if_neg hdot, if_neg hdot]
      by_cases hbracket : i.kind = .mark .lbracket
      · rw [if_pos hbracket, if_pos hbracket]
        -- An index takes its bracket, so a round is left for each item after it.
        have hindex := does_index h hrest (Nat.lt_of_succ_lt hn)
        have hshorter := (takesFirst_index.takes (hrest ▸ List.cons_ne_nil i rest)).length_lt hindex
        rw [hrest] at hshorter
        exact hindex.seq (hmore (Nat.le_of_lt_succ hshorter))
      · rw [if_neg hbracket, if_neg hbracket]
        exact does_done hrest

theorem does_declaredPath (hn : σ.rest.length < n) :
    Does (.call .declaredPath) σ (single (r.declaredPath σ.scope σ.rest)) := by
  refine .call (.look ?_)
  cases hrest : σ.rest with
  | nil =>
    rw [State.newline_nil hrest, Bool.true_or, if_pos rfl]
    exact does_missing hrest
  | cons i rest =>
    rw [hrest] at hn
    rw [State.newline_cons hrest, State.sees_cons hrest, Rules.declaredPath]
    split
    · exact does_missing hrest
    · have hname : Does name σ.opened ([i.nameLeaf], rest) := does_name hrest
      have htail := does_pathTail h (σ := σ.opened.emit [i.nameLeaf] rest) (Nat.le_refl _)
        (Nat.lt_of_succ_lt hn)
      exact (hname.seq htail).node .refExpression

theorem does_package {i : Item} {rest : List Item} (hrest : σ.rest = i :: rest)
    (hn : rest.length < n) :
    Does (.call .package) σ (single (r.package σ.scope i rest)) := by
  have hword : Does bump σ.opened ([i.leaf], rest) := does_bump hrest
  have hpath := does_declaredPath h (σ := σ.opened.emit [i.leaf] rest) hn
  exact .call ((hword.seq hpath).node .packageDeclaration)

omit h in
theorem does_alias? : Does Program.alias? σ (Rules.alias? σ.scope σ.rest) := by
  refine .look ?_
  cases hrest : σ.rest with
  | nil =>
    rw [State.at?_nil hrest]
    exact does_done hrest
  | cons i rest =>
    rw [State.at?_cons hrest, State.newline_cons hrest, Rules.alias?]
    show Does (if i.kind = .keyword .asKw && !i.newline then _ else _) σ _
    split
    · exact (does_bump hrest).seq (does_expect .identifier)
    · exact does_done hrest

theorem does_importOf {i : Item} {rest : List Item} (hrest : σ.rest = i :: rest)
    (hn : rest.length < n) :
    Does (.call .importOf) σ (single (r.importOf σ.scope i rest)) := by
  have hword : Does bump σ.opened ([i.leaf], rest) := does_bump hrest
  have hpath := does_declaredPath h (σ := σ.opened.emit [i.leaf] rest) hn
  exact .call ((hword.seq (hpath.seq does_alias?)).node .importStatement)

/-! ### Bodies -/

theorem does_ifBody {i : Item} {rest : List Item} (hrest : σ.rest = i :: rest)
    (hn : rest.length < n) :
    Does (.call .ifBody) σ ([i.leaf, (r.ifBody σ.scope rest).1], (r.ifBody σ.scope rest).2) := by
  let after := σ.emit [i.leaf] rest
  have hone := does_statement h (σ := after.opened.entered Scope.statement) (Nat.le_of_lt hn)
  have hbody : Does (.look fun τ => if τ.at? (.mark .lbrace) then .call .bracedBody
      else node .body (within Scope.statement (.call .statement))) after
      (single (r.ifBody σ.scope rest)) := by
    refine .look ?_
    cases rest with
    | nil => exact hone.within.node .body
    | cons j next =>
      rw [State.at?_cons rfl, Rules.ifBody]
      by_cases hbrace : j.kind = .mark .lbrace
      · rw [if_pos (beq_iff_eq.mpr hbrace), if_pos hbrace]
        exact .call (does_braced h (σ := after) rfl (Nat.lt_of_succ_lt hn))
      · rw [if_neg (by rwa [beq_iff_eq]), if_neg hbrace]
        exact hone.within.node .body
  exact .call ((does_bump hrest).seq hbody)

theorem does_body? (hn : σ.rest.length < n) :
    Does Program.body? σ (r.body? σ.scope σ.rest) := by
  refine .look ?_
  cases hrest : σ.rest with
  | nil =>
    rw [State.at?_nil hrest, State.at?_nil hrest]
    exact does_done hrest
  | cons i rest =>
    rw [hrest] at hn
    rw [State.at?_cons hrest, State.at?_cons hrest, Rules.body?]
    by_cases hif : i.kind = .keyword .ifKw
    · rw [if_pos (beq_iff_eq.mpr hif), if_pos hif]
      exact does_ifBody h hrest (Nat.lt_of_succ_lt hn)
    rw [if_neg (by rwa [beq_iff_eq]), if_neg hif]
    by_cases hbrace : i.kind = .mark .lbrace
    · rw [if_pos (beq_iff_eq.mpr hbrace), if_pos hbrace]
      exact .call (does_braced h hrest (Nat.lt_of_succ_lt hn))
    · rw [if_neg (by rwa [beq_iff_eq]), if_neg hbrace]
      exact does_done hrest

theorem does_bodyOnLine (hn : σ.rest.length < n) :
    Does (.call .bodyOnLine) σ (r.bodyOnLine? σ.scope σ.rest) := by
  have hbody := does_body? h hn
  refine .call (.look ?_)
  cases hrest : σ.rest with
  | nil =>
    rw [hrest] at hbody
    split
    · exact does_done hrest
    · exact hbody
  | cons i rest =>
    rw [hrest] at hbody
    rw [State.newline_cons hrest, Rules.bodyOnLine?]
    split
    · exact does_done hrest
    · exact hbody

/-! ### Rules -/

theorem does_parameters? (hn : σ.rest.length < n) :
    Does parameters? σ (Rules.parameters r σ.scope σ.rest) := by
  refine .look ?_
  cases hrest : σ.rest with
  | nil =>
    rw [State.at?_nil hrest]
    exact does_done hrest
  | cons i rest =>
    rw [hrest] at hn
    rw [State.at?_cons hrest, State.newline_cons hrest, Rules.parameters]
    show Does (if i.kind = .mark .lparen && !i.newline then _ else _) σ _
    split
    · exact does_arguments h hrest (Nat.lt_of_succ_lt hn)
    · exact does_done hrest

theorem does_head (hn : σ.rest.length < n) :
    Does (.call .head) σ (single (r.head σ.scope σ.rest)) := by
  let name := expect .identifier σ.scope σ.rest
  have hname : Does (Program.expect .identifier) σ.opened (single name) := does_expect .identifier
  have hnameLength := Nat.lt_of_le_of_lt (expect_length_le .identifier σ.scope σ.rest) hn
  have hpathLength := Nat.lt_of_le_of_lt
    (Rules.pathTail_composes h.covers σ.scope name.2.length name.2).length_le hnameLength
  have hparts := hname.seq ((does_pathTail h (Nat.le_refl _) hnameLength).seq
    (does_parameters? h hpathLength))
  rw [Rules.head_eq]
  exact .call (hparts.node .ruleHead)

theorem does_tail (hn : σ.rest.length < n) :
    Does (.call .tail) σ (r.tail σ.scope σ.rest) := by
  have hbody := does_body? h hn
  refine .call (.look ?_)
  cases hrest : σ.rest with
  | nil =>
    rw [State.newline_nil hrest, if_pos rfl]
    exact does_done hrest
  | cons i rest =>
    rw [hrest] at hbody hn
    rw [State.newline_cons hrest, State.at?_cons hrest, State.sees_cons hrest, Rules.tail]
    split
    · exact does_done hrest
    show Does (if i.kind = .keyword .containsKw || Rules.givesValue i.kind then _ else _) σ _
    split
    · have hvalue := (h.expr setOpLevel).does (σ.emit [i.leaf] rest) (Nat.lt_of_succ_lt hn)
      have hlength := (h.expr setOpLevel).lt σ.scope (Nat.lt_of_succ_lt hn)
      exact (does_bump hrest).seq (hvalue.seq (does_bodyOnLine h hlength))
    · exact hbody

theorem does_value? (hn : σ.rest.length < n) :
    Does Program.value? σ (r.value? σ.scope σ.rest) := by
  refine .look ?_
  cases hrest : σ.rest with
  | nil =>
    rw [State.sees_nil hrest]
    exact does_done hrest
  | cons i rest =>
    rw [hrest] at hn
    rw [State.sees_cons hrest, Rules.value?]
    split
    · have hvalue := (h.expr setOpLevel).does (σ.emit [i.leaf] rest) (Nat.lt_of_succ_lt hn)
      exact (does_bump hrest).seq hvalue
    · exact does_done hrest

theorem does_alternative {i : Item} {rest : List Item} (hrest : σ.rest = i :: rest)
    (hn : rest.length < n) :
    Does (.call .alternative) σ (single (r.alternative σ.scope i rest)) := by
  have hword : Does bump σ.opened ([i.leaf], rest) := does_bump hrest
  have hvalue := does_value? h (σ := σ.opened.emit [i.leaf] rest) hn
  have hlength := Nat.lt_of_le_of_lt (Rules.value?_composes h.covers σ.scope rest).length_le hn
  exact .call ((hword.seq (hvalue.seq (does_body? h hlength))).node .elseClause)

theorem does_alternatives {rounds : Nat} (hrounds : σ.rest.length ≤ rounds)
    (hn : σ.rest.length < n) :
    Does (.call .alternatives) σ (r.alternatives σ.scope rounds σ.rest) := by
  induction rounds generalizing σ with
  | zero =>
    have hrest : σ.rest = [] := List.eq_nil_of_length_eq_zero (Nat.le_zero.mp hrounds)
    refine .call (.look ?_)
    rw [hrest]
    rw [State.at?_nil hrest]
    exact does_done hrest
  | succ rounds ih =>
    refine .call (.look ?_)
    cases hrest : σ.rest with
    | nil =>
      rw [State.at?_nil hrest]
      exact does_done hrest
    | cons i rest =>
      rw [hrest] at hrounds hn
      rw [State.at?_cons hrest, Rules.alternatives]
      by_cases helse : i.kind = .keyword .elseKw
      · rw [if_pos (beq_iff_eq.mpr helse), if_pos helse]
        have hone := does_alternative h hrest (Nat.lt_of_succ_lt hn)
        -- An alternative takes its first word, whatever comes after it.
        have hfirst : TakesFirst (of .alternative) := .node (.seq .bump) .elseClause
        have hshorter := (hfirst.takes (hrest ▸ List.cons_ne_nil i rest)).call.length_lt hone
        rw [hrest] at hshorter
        have hfewer := Nat.le_of_lt_succ hshorter
        exact hone.seq (ih (Nat.le_trans hfewer (Nat.le_of_succ_le_succ hrounds))
          (Nat.lt_of_le_of_lt hfewer (Nat.lt_of_succ_lt hn)))
      · rw [if_neg (by rwa [beq_iff_eq]), if_neg helse]
        exact does_done hrest

/-- A rule, with the word before its head if there is one. -/
theorem does_rule {before : List Tree} {ts : List Item}
    (hword : Does defaultWord? σ.opened (before, ts)) (hn : ts.length < n) :
    Does (.call .rule) σ (single (r.ruleAfter σ.scope before ts)) := by
  let head := r.head σ.scope ts
  let tail := r.tail σ.scope head.2
  let others := r.alternatives σ.scope tail.2.length tail.2
  have hhead := does_head h (σ := σ.opened.emit before ts) hn
  have hheadLength : head.2.length < n :=
    Nat.lt_of_le_of_lt (Rules.head_covers h.covers σ.scope ts).length_le hn
  have htailLength : tail.2.length < n :=
    Nat.lt_of_le_of_lt (Rules.tail_composes h.covers σ.scope head.2).length_le hheadLength
  have hparts : Does (defaultWord? >> .call .head >> .call .tail >> .call .alternatives) σ.opened
      (before ++ head.1 :: tail.1 ++ others.1, others.2) := by
    rw [List.append_assoc]
    exact hword.seq (hhead.seq ((does_tail h hheadLength).seq
      (does_alternatives h (Nat.le_refl _) htailLength)))
  exact .call (hparts.node .rule)

/-! ### Whole texts -/

omit h in
theorem declarations_nil (s : Scope) (rounds : Nat) : r.declarations s rounds [] = [] := by
  cases rounds <;> rfl

omit h in
/-- A declaration is read, and what is wrong on its line. -/
theorem declarations_cons (s : Scope) (rounds : Nat) (i : Item) (rest : List Item) :
    let p := r.declaration s i rest
    let wrong := wrongOnLine s [] p.2
    r.declarations s (rounds + 1) (i :: rest) =
      p.1 :: (wrong.1 ++ r.declarations s rounds wrong.2) := by
  rw [Rules.declarations]
  rcases r.declaration s i rest with ⟨node, after⟩
  cases after with
  | nil => simp only [wrongOnLine, declarations_nil, List.append_nil]
  | cons j next =>
    simp only [wrongOnLine, List.contains_nil, Bool.or_false]
    split
    · rfl
    · rfl

theorem does_declaration {i : Item} {rest : List Item} (hrest : σ.rest = i :: rest)
    (hn : σ.rest.length < n) :
    Does (declaration i.kind) σ (single (r.declaration σ.scope i rest)) := by
  have hshorter : rest.length < n := by
    rw [hrest] at hn
    exact Nat.lt_of_succ_lt hn
  have hword : σ.opened.at? (.keyword .defaultKw) = (i.kind == .keyword .defaultKw) :=
    State.at?_cons hrest _
  by_cases hpackage : i.kind = .keyword .packageKw
  · simp only [declaration, Rules.declaration, hpackage]
    exact does_package h hrest hshorter
  by_cases himport : i.kind = .keyword .importKw
  · simp only [declaration, Rules.declaration, himport]
    exact does_importOf h hrest hshorter
  by_cases hdefault : i.kind = .keyword .defaultKw
  · simp only [declaration, Rules.declaration, hdefault]
    have hbefore : Does defaultWord? σ.opened ([i.leaf], rest) := by
      refine .look ?_
      rw [hword, hdefault]
      exact does_bump hrest
    exact does_rule h hbefore hshorter
  by_cases hname : i.kind = .identifier
  · simp only [declaration, Rules.declaration, hname]
    have hbefore : Does defaultWord? σ.opened ([], i :: rest) := by
      refine .look ?_
      rw [hword, hname]
      exact does_done hrest
    exact does_rule h hbefore (hrest ▸ hn)
  · have hprogram : declaration i.kind = .call (.restOfLine []) := by
      unfold declaration
      split <;> first | contradiction | rfl
    have hrule : r.declaration σ.scope i rest = restOfLine σ.scope [] i rest := by
      unfold Rules.declaration
      split <;> first | contradiction | rfl
    rw [hprogram, hrule]
    exact does_restOfLine [] hrest

/-- All declarations of a text. Each takes an item, and nothing is left. -/
theorem does_script {rounds : Nat} (hrounds : σ.rest.length ≤ rounds) (hn : σ.rest.length < n) :
    Does (.call .script) σ (r.declarations σ.scope rounds σ.rest, []) := by
  induction rounds generalizing σ with
  | zero =>
    have hrest : σ.rest = [] := List.eq_nil_of_length_eq_zero (Nat.le_zero.mp hrounds)
    refine .call (.look ?_)
    rw [hrest]
    exact does_done hrest
  | succ rounds ih =>
    refine .call (.look ?_)
    cases hrest : σ.rest with
    | nil =>
      exact does_done hrest
    | cons i rest =>
      have hnode := does_declaration h hrest hn
      -- Every declaration takes an item, so a round is left for each one after it.
      have hshorter : (r.declaration σ.scope i rest).2.length < σ.rest.length :=
        (takes_declaration hrest).length_lt hnode
      rw [hrest] at hrounds hn hshorter
      have hmore : ∀ {τ : State}, τ.rest.length ≤ rest.length →
          Does (.call .script) τ (r.declarations τ.scope rounds τ.rest, []) := fun hτ =>
        ih (Nat.le_trans hτ (Nat.le_of_succ_le_succ hrounds))
          (Nat.lt_of_le_of_lt hτ (Nat.lt_of_succ_lt hn))
      have hline := Nat.le_trans (wrongOnLine_length σ.scope [] _) (Nat.le_of_lt_succ hshorter)
      rw [declarations_cons]
      exact hnode.seq ((does_endOfLine []).seq (hmore hline))

omit h in
/-- Whatever is left after an expression is misplaced. -/
theorem does_strays {ts : List Item} (hrest : σ.rest = ts) :
    Does (.call .strays) σ (ts.map fun i => misplaced σ.scope [i], []) := by
  induction ts generalizing σ with
  | nil =>
    refine .call (.look ?_)
    rw [hrest]
    exact does_done hrest
  | cons i rest ih =>
    refine .call (.look ?_)
    rw [hrest]
    exact (does_misplaced hrest).seq (ih rfl)

theorem does_standalone (hn : σ.rest.length < n) :
    let p := r.expr σ.scope assignLevel σ.rest
    Does (.call .standalone) σ (p.1 :: p.2.map fun i => misplaced σ.scope [i], []) := by
  have hnode := (h.expr assignLevel).does σ hn
  exact .call (hnode.seq (does_strays rfl))

end

end PolicyEditor.Grammar.Machine
