import PolicyEditor.Proofs.Machine.Effect

/-!
Operands on the machine. Given that it reads expressions and statements of shorter lists as the
rules do, the machine reads operands, what follows them, and operators as the rules do. Every loop
of the machine goes on until it finds its end, and the bounded rounds of a rule are enough for that.
-/

namespace PolicyEditor.Grammar.Machine

open Program

/-- On lists of fewer than `n` items the program does what a rule for one node gives. -/
structure Obeys (c : Program) (rule : Scope → List Item → Parsed) (n : Nat) : Prop where
  does : ∀ σ : State, σ.rest.length < n → Does c σ (single (rule σ.scope σ.rest))
  length_le : ∀ (s : Scope) (ts : List Item), (rule s ts).2.length ≤ ts.length

/-- On lists of fewer than `n` items the machine does what the rules give. -/
structure Follows (r : Rules) (n : Nat) : Prop where
  expr : ∀ level, Obeys (.call (.expression level)) (fun s => r.expr s level) n
  unary : Obeys (.call .unary) (fun s => r.expr s unaryLevel) n
  statements : ∀ (σ : State) (closer : Token.Kind), σ.rest.length < n →
    Does (.call (.statements closer)) σ (r.statements σ.scope closer σ.rest)
  covers : r.Composed Covers

section

variable {c : Program} {rule : Scope → List Item → Parsed} {n : Nat}

theorem Obeys.lt (h : Obeys c rule n) (s : Scope) {ts : List Item} (hn : ts.length < n) :
    (rule s ts).2.length < n :=
  Nat.lt_of_le_of_lt (h.length_le s ts) hn

/-! ### Items between commas -/

/-- A loop over items between commas. Each round but the last takes a comma, so as many rounds as
there are items are enough. -/
theorem does_separated {objects : Bool} (h : Obeys (element objects) rule n) (closer : Token.Kind)
    {rounds : Nat} {σ : State} (hrounds : σ.rest.length ≤ rounds) (hn : σ.rest.length < n) :
    Does (.call (.separated objects closer)) σ
      (separated (rule σ.scope) closer rounds σ.rest) := by
  induction rounds generalizing σ with
  | zero =>
    have hrest : σ.rest = [] := List.eq_nil_of_length_eq_zero (Nat.le_zero.mp hrounds)
    refine Does.call (.look ?_)
    rw [hrest]
    exact does_done hrest
  | succ rounds ih =>
    have helement := h.does σ hn
    have hshorter := h.length_le σ.scope σ.rest
    refine Does.call (.look ?_)
    cases hrest : σ.rest with
    | nil =>
      exact does_done hrest
    | cons i rest =>
      rw [hrest] at helement hshorter hrounds hn
      by_cases hcloser : i.kind = closer
      · simp only [separated, hcloser, if_true]
        exact does_done hrest
      · rcases hp : rule σ.scope (i :: rest) with ⟨node, after⟩
        rw [hp] at helement hshorter
        simp only [separated, hcloser, if_false, hp]
        -- What the element left decides whether another round follows.
        cases after with
        | nil => exact helement.seq (does_afterComma_nil rfl)
        | cons j next =>
          by_cases hcomma : j.kind = .mark .comma
          · simp only [hcomma, if_true]
            have hfewer : next.length ≤ rest.length := Nat.le_of_succ_le_succ hshorter
            have hmore := ih (σ := (σ.emit [node] (j :: next)).emit [j.leaf] next)
              (Nat.le_trans hfewer (Nat.le_of_succ_le_succ hrounds))
              (Nat.lt_of_le_of_lt hfewer (Nat.lt_of_succ_lt hn))
            exact helement.seq (does_afterComma rfl hcomma hmore)
          · simp only [hcomma, if_false]
            exact helement.seq (does_afterComma_of_ne rfl hcomma)

/-- A bracket, items between commas and the closing bracket. -/
theorem does_collection {objects : Bool} (h : Obeys (element objects) rule n) (kind : NodeKind)
    (closer : Token.Kind) {σ : State} {i : Item} {ts : List Item} (hrest : σ.rest = i :: ts)
    (hn : ts.length < n) :
    Does (collection kind objects closer) σ
      (single (Rules.collection kind (rule σ.scope.bracketed) closer σ.scope i ts)) := by
  let inside := (σ.opened.emit [i.leaf] ts).entered Scope.bracketed
  have hparts : Does (.call (.separated objects closer)) inside
      (separated (rule σ.scope.bracketed) closer ts.length ts) :=
    does_separated h closer (Nat.le_refl ts.length) hn
  have hopener : Does bump σ.opened ([i.leaf], ts) := does_bump hrest
  exact (hopener.seq (hparts.within.seq (does_expect closer))).node kind

end

/-! ### Brackets and what stands in them -/

section

variable {r : Rules} {n : Nat} (h : Follows r n)
include h

theorem Follows.element : Obeys (element false) (fun s => r.expr s assignLevel) n :=
  h.expr assignLevel

theorem Follows.objectItem : Obeys (.call .objectItem) r.objectItem n where
  does σ hn := by
    have hkey : Does term σ.opened (single (r.expr σ.scope setOpLevel σ.rest)) :=
      (h.expr setOpLevel).does σ.opened hn
    have hvalue := Nat.lt_of_le_of_lt (expect_length_le (.mark .colon) σ.scope _)
      ((h.expr setOpLevel).lt σ.scope hn)
    have hparts := hkey.seq ((does_expect (.mark .colon)).seq
      ((h.expr setOpLevel).does _ hvalue))
    exact .call (hparts.node .objectItem)
  length_le s ts := (Rules.objectItem_composes h.covers s ts).length_le

theorem does_comprehensionBody {σ : State} (closer : Token.Kind) (hn : σ.rest.length < n) :
    let p := r.statements σ.scope.statement closer σ.rest
    Does (.call (.comprehensionBody closer)) σ
      (single (.enclose .body (σ.scope.here p.2) p.1, p.2)) := by
  have hbody := h.statements (σ.opened.entered Scope.statement) closer hn
  exact .call (hbody.within.node .body)

variable {σ : State} {i : Item} {ts : List Item} (hrest : σ.rest = i :: ts) (hn : ts.length < n)
include hrest hn

theorem does_index : Does Program.index σ (index r.expr σ.scope i ts) := by
  let inside := (σ.emit [i.leaf] ts).entered Scope.bracketed
  have hvalue : Does Program.expression inside (single (r.expr _ assignLevel ts)) :=
    (h.expr assignLevel).does inside hn
  exact (does_bump hrest).seq (hvalue.within.seq (does_expect (.mark .rbracket)))

theorem does_arguments : Does (.call .arguments) σ (single (arguments r.expr σ.scope i ts)) :=
  .call (does_collection h.element .argumentList (.mark .rparen) hrest hn)

/-- Statements in braces. -/
theorem does_braced : Does braced σ (single (r.bracedBody σ.scope i ts)) := by
  let inside := (σ.opened.emit [i.leaf] ts).entered Scope.statement
  have hopener : Does bump σ.opened ([i.leaf], ts) := does_bump hrest
  have hbody : Does (.call (.statements (.mark .rbrace))) inside
      (r.statements σ.scope.statement (.mark .rbrace) ts) := h.statements inside _ hn
  exact (hopener.seq (hbody.within.seq (does_expect (.mark .rbrace)))).node .body

theorem does_comprehension {c : Program} {head : Scope → List Item → Parsed}
    (hhead : Obeys c head n) (kind : NodeKind) (closer : Token.Kind) :
    Does (comprehension kind c closer) σ
      (single (r.comprehension kind (head σ.scope.head) closer σ.scope i ts)) := by
  let inside := (σ.opened.emit [i.leaf] ts).entered Scope.head
  have hopener : Does bump σ.opened ([i.leaf], ts) := does_bump hrest
  have hvalue : Does c inside (single (head σ.scope.head ts)) := hhead.does inside hn
  have hbar := Nat.lt_of_le_of_lt (expect_length_le (.operator .pipe) σ.scope _)
    (hhead.lt σ.scope.head hn)
  have hparts := hvalue.within.seq ((does_expect (.operator .pipe)).seq
    ((does_comprehensionBody h closer hbar).seq (does_expect closer)))
  exact (hopener.seq hparts).node kind

theorem does_parens :
    Does (node .parenExpression
      (bump >> within Scope.bracketed Program.expression >> Program.expect (.mark .rparen))) σ
      (single (r.parens σ.scope i ts)) := by
  let inside := (σ.opened.emit [i.leaf] ts).entered Scope.bracketed
  have hopener : Does bump σ.opened ([i.leaf], ts) := does_bump hrest
  have hvalue : Does Program.expression inside (single (r.expr _ assignLevel ts)) :=
    (h.expr assignLevel).does inside hn
  exact (hopener.seq (hvalue.within.seq (does_expect (.mark .rparen)))).node .parenExpression

theorem does_bracket : Does (.call .bracket) σ (single (r.brackets σ.scope i ts)) := by
  refine Does.call (.look ?_)
  rw [hrest, List.tail_cons, Rules.brackets]
  unfold classifyBracket
  cases barBeforeClose 0 ts with
  | true =>
    exact does_comprehension h hrest hn (h.expr assignLevel) .arrayComprehension (.mark .rbracket)
  | false => exact does_collection h.element .array (.mark .rbracket) hrest hn

end

/-- What a brace can open. -/
theorem run_cases (b : BraceScan) (ts : List Item) :
    b.run ts = .objectComprehension ∨ b.run ts = .setComprehension ∨ b.run ts = .object ∨
      b.run ts = .set ∨ b.run ts = .body := by
  have hverdict : ∀ b : BraceScan, b.verdict = .object ∨ b.verdict = .set ∨ b.verdict = .body := by
    intro b
    unfold BraceScan.verdict
    split
    · exact .inl rfl
    split
    · exact .inr (.inr rfl)
    · exact .inr (.inl rfl)
  induction ts generalizing b with
  | nil => exact .inr (.inr (hverdict b))
  | cons i rest ih =>
    unfold BraceScan.run
    split
    · split
      · exact .inr (.inr (hverdict b))
      split
      · split
        · exact .inl rfl
        · exact .inr (.inl rfl)
      · exact ih _
    · exact ih _

section

variable {r : Rules} {n : Nat} (h : Follows r n) {σ : State} {i : Item} {ts : List Item}
include h

theorem does_brace (hrest : σ.rest = i :: ts) (hn : ts.length < n) :
    Does (.call .brace) σ (single (r.braces σ.scope i ts)) := by
  refine Does.call (.look ?_)
  rw [hrest, List.tail_cons, Rules.braces]
  rcases run_cases {} ts with hkind | hkind | hkind | hkind | hkind
  · rw [classifyBrace, hkind]
    exact does_comprehension h hrest hn h.objectItem .objectComprehension (.mark .rbrace)
  · rw [classifyBrace, hkind]
    exact does_comprehension h hrest hn (h.expr assignLevel) .setComprehension (.mark .rbrace)
  · rw [classifyBrace, hkind]
    have hitem : Obeys (element true) r.objectItem n := h.objectItem
    exact does_collection hitem .object (.mark .rbrace) hrest hn
  · rw [classifyBrace, hkind]
    exact does_collection h.element .set (.mark .rbrace) hrest hn
  · rw [classifyBrace, hkind]
    exact does_braced h hrest hn

end

end PolicyEditor.Grammar.Machine
