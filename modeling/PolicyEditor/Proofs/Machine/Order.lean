import Mathlib.Logic.Relation
import PolicyEditor.Proofs.Machine.Progress

/-!
The order of calls. Procedures are numbered in the order in which they call each other: before a
procedure has taken an item it calls only procedures with greater numbers, and an item taken is
never given back. So between two entries of one procedure, the second within the first, an item is
taken; the rounds of a loop are such entries.
-/

namespace PolicyEditor.Grammar.Machine

open Program

@[simp] def Procedure.number : Procedure → Nat
  | .script => 1
  | .standalone => 2
  | .strays => 3
  | .package => 4
  | .importOf => 5
  | .declaredPath => 6
  | .rule => 7
  | .head => 8
  | .tail => 9
  | .bodyOnLine => 10
  | .alternatives => 11
  | .alternative => 12
  | .pathTail => 13
  | .ifBody => 14
  | .bracedBody => 15
  | .comprehensionBody _ => 16
  | .statements _ => 17
  | .statement => 18
  | .modifiers => 19
  | .modifier => 20
  | .some => 21
  | .every => 22
  | .termList => 23
  | .moreTerms => 24
  | .separated _ _ => 25
  | .objectItem => 26
  | .expression _ => 27
  | .operators _ _ => 28
  | .unary => 29
  | .operand => 30
  | .suffixes _ => 31
  | .primary => 32
  | .restOfLine _ => 33
  | .skip _ => 34
  | .arguments => 35
  | .bracket => 36
  | .brace => 37

/-- The place of a procedure in the order of calls. At the end of the text the procedures for
brackets, which then find no bracket, come first. -/
def Procedure.place (p : Procedure) (ts : List Item) : Nat :=
  match p, ts with
  | .arguments, [] | .bracket, [] | .brace, [] => 0
  | p, _ => p.number

/-- The second entry is further on than the first: it has fewer items before it, or as many and a
greater place. -/
def Further (x y : Procedure × State) : Prop :=
  y.2.rest.length < x.2.rest.length ∨
    y.2.rest.length = x.2.rest.length ∧ x.1.place x.2.rest < y.1.place y.2.rest

def Leads (x : Procedure × State) (c : Program) (σ : State) : Prop :=
  ∀ y, Calls c σ y → Further x y

/-- From every state with no more items than the entry, the program leads on. -/
def LeadsOn (x : Procedure × State) (c : Program) : Prop :=
  ∀ σ : State, σ.rest.length ≤ x.2.rest.length → Leads x c σ

section

variable {x : Procedure × State} {c d : Program} {σ : State}

/-- With an item taken every call is further on. -/
theorem leads_of_lt (h : σ.rest.length < x.2.rest.length) : Leads x c σ :=
  fun _ hcall => .inl (Nat.lt_of_le_of_lt hcall.length_le h)

theorem leads_act (a : Action) : Leads x (.act a) σ := by
  intro y hcall
  cases hcall

theorem Leads.look {next : State → Program} (h : Leads x (next σ) σ) :
    Leads x (.look next) σ := by
  intro y hcall
  cases hcall with
  | look hcall => exact h y hcall

theorem Leads.bind {next : Bool → Program} (h : Leads x c σ)
    (hnext : ∀ value τ, Runs c σ value τ → Leads x (next value) τ) :
    Leads x (.bind c next) σ := by
  intro y hcall
  cases hcall with
  | first hcall => exact h y hcall
  | next hrun hcall => exact hnext _ _ hrun y hcall

/-- What comes after an item is taken need not be looked at. -/
theorem Leads.takes (h : Leads x c σ) (htakes : Takes c σ)
    (hle : σ.rest.length ≤ x.2.rest.length) : Leads x (c >> d) σ :=
  h.bind fun _ _ hrun => leads_of_lt (Nat.lt_of_lt_of_le (htakes _ _ hrun) hle)

/-- So it is when a program takes an item first. -/
theorem TakesFirst.leads (h : TakesFirst c) (hne : σ.rest ≠ [])
    (hle : σ.rest.length ≤ x.2.rest.length) : Leads x c σ := by
  induction h generalizing σ with
  | bump => exact leads_act .bump
  | name => exact leads_act .bumpName
  | seq hc ih => exact (ih hne hle).takes (hc.takes hne) hle
  | act _ ih =>
    refine (leads_act _).bind fun _ τ hrun => ?_
    rcases Nat.lt_or_ge τ.rest.length σ.rest.length with hlt | hge
    · exact leads_of_lt (Nat.lt_of_lt_of_le hlt hle)
    · exact ih (State.rest_ne_nil hne hge) (Nat.le_trans hrun.length_le hle)
  | look _ ih => exact .look (ih σ hne hle)

theorem leadsOn_act (a : Action) : LeadsOn x (.act a) :=
  fun _ _ => leads_act a

theorem leads_ret (value : Bool) : Leads x (.ret value) σ := by
  intro y hcall
  cases hcall

theorem leadsOn_ret (value : Bool) : LeadsOn x (.ret value) :=
  fun _ _ => leads_ret value

theorem LeadsOn.seq (h : LeadsOn x c) (hd : LeadsOn x d) : LeadsOn x (c >> d) :=
  fun σ hle => (h σ hle).bind fun _ τ hrun => hd τ (Nat.le_trans hrun.length_le hle)

theorem LeadsOn.look {next : State → Program} (h : ∀ σ, LeadsOn x (next σ)) :
    LeadsOn x (.look next) :=
  fun σ hle => .look (h σ σ hle)

theorem LeadsOn.node (h : LeadsOn x c) (kind : NodeKind) : LeadsOn x (node kind c) :=
  (leadsOn_act _).seq (h.seq (leadsOn_act _))

theorem LeadsOn.within (h : LeadsOn x c) (change : Scope → Scope) : LeadsOn x (within change c) :=
  (leadsOn_act _).seq (h.seq (leadsOn_act _))

theorem leadsOn_missing : LeadsOn x Program.missing :=
  (leadsOn_ret true).node .error

theorem leadsOn_misplaced : LeadsOn x Program.misplaced :=
  (leadsOn_act .bump).node .error

theorem leadsOn_expect (kind : Token.Kind) : LeadsOn x (Program.expect kind) := by
  refine .look fun σ => ?_
  split
  · exact leadsOn_act .bump
  · exact leadsOn_missing

/-- A call is further on if its place is greater. -/
theorem leads_call {p : Procedure} (hle : σ.rest.length ≤ x.2.rest.length)
    (h : σ.rest.length = x.2.rest.length → x.1.place x.2.rest < p.place σ.rest) :
    Leads x (.call p) σ := by
  intro y hcall
  cases hcall
  rcases Nat.lt_or_eq_of_le hle with hlt | heq
  · exact .inl hlt
  · exact .inr ⟨heq, h heq⟩

/-- The procedures for brackets are called where a bracket stands, and their place is their number
there. -/
theorem place_of_ne_nil (p : Procedure) {ts : List Item} (hne : ts ≠ []) :
    p.place ts = p.number := by
  cases ts with
  | nil => exact absurd rfl hne
  | cons i ts => cases p <;> rfl

theorem place_le_number (p : Procedure) (ts : List Item) : p.place ts ≤ p.number := by
  unfold Procedure.place
  split <;> first | exact Nat.zero_le _ | exact Nat.le_refl _

theorem leadsOn_call_of_place {p : Procedure} (hplace : ∀ ts, p.place ts = p.number)
    (h : x.1.place x.2.rest < p.number) : LeadsOn x (.call p) := by
  refine fun σ hle => leads_call hle fun _ => ?_
  rw [hplace]
  exact h

theorem leadsOn_call {p : Procedure} (hplace : ∀ ts, p.place ts = p.number)
    (h : x.1.number < p.number) : LeadsOn x (.call p) :=
  leadsOn_call_of_place hplace (Nat.lt_of_le_of_lt (place_le_number x.1 x.2.rest) h)

theorem leads_call_of_ne_nil {p : Procedure} (hle : σ.rest.length ≤ x.2.rest.length)
    (hne : σ.rest ≠ []) (h : x.1.number < p.number) : Leads x (.call p) σ := by
  refine leads_call hle fun _ => ?_
  rw [place_of_ne_nil p hne]
  exact Nat.lt_of_le_of_lt (place_le_number x.1 x.2.rest) h

end

/-! ### Where procedures lead -/

section

variable {x : Procedure × State}

theorem leadsOn_declaration (h : x.1.number < Procedure.package.number) (k : Token.Kind) :
    LeadsOn x (declaration k) := by
  have hcall : ∀ {p : Procedure}, (∀ ts, p.place ts = p.number) →
      Procedure.package.number ≤ p.number → LeadsOn x (.call p) :=
    fun hplace hp => leadsOn_call hplace (Nat.lt_of_lt_of_le h hp)
  unfold declaration
  split
  · exact hcall (fun _ => rfl) (by decide)
  · exact hcall (fun _ => rfl) (by decide)
  · exact hcall (fun _ => rfl) (by decide)
  · exact hcall (fun _ => rfl) (by decide)
  · exact hcall (fun _ => rfl) (by decide)

theorem leadsOn_expression {level : Nat}
    (h : x.1.place x.2.rest < (Procedure.expression level).number) :
    LeadsOn x (.call (.expression level)) :=
  leadsOn_call_of_place (fun _ => rfl) h

theorem leadsOn_afterComma (c : Program) : LeadsOn x (afterComma c) := by
  refine fun σ hle => .look ?_
  split
  · exact (TakesFirst.seq .bump).leads (State.ne_nil_of_at? ‹_›) hle
  · exact leads_ret true

theorem leadsOn_body? (h : x.1.number < Procedure.ifBody.number) : LeadsOn x body? := by
  refine .look fun σ => ?_
  split
  · exact leadsOn_call (fun _ => rfl) h
  split
  · exact leadsOn_call (fun _ => rfl) (Nat.lt_succ_of_lt h)
  · exact leadsOn_ret true

theorem leadsOn_statements {closer : Token.Kind}
    (h : x.1.place x.2.rest < (Procedure.statements closer).number) :
    LeadsOn x (within Scope.statement (.call (.statements closer))) :=
  (leadsOn_call_of_place (fun _ => rfl) h).within _

theorem leadsOn_braced
    (h : x.1.place x.2.rest < (Procedure.statements (.mark .rbrace)).number) :
    LeadsOn x braced :=
  ((leadsOn_act .bump).seq ((leadsOn_statements h).seq (leadsOn_expect _))).node .body

theorem leadsOn_collection {objects : Bool} {closer : Token.Kind}
    (h : x.1.place x.2.rest < (Procedure.separated objects closer).number) (kind : NodeKind) :
    LeadsOn x (collection kind objects closer) := by
  have hitems : LeadsOn x (.call (.separated objects closer)) :=
    leadsOn_call_of_place (fun _ => rfl) h
  exact ((leadsOn_act .bump).seq ((hitems.within _).seq (leadsOn_expect _))).node kind

theorem leadsOn_comprehension {head : Program} {closer : Token.Kind}
    (h : x.1.place x.2.rest < (Procedure.comprehensionBody closer).number)
    (hhead : LeadsOn x head) (kind : NodeKind) :
    LeadsOn x (comprehension kind head closer) := by
  have hbody : LeadsOn x (.call (.comprehensionBody closer)) :=
    leadsOn_call_of_place (fun _ => rfl) h
  have hparts := (hhead.within Scope.head).seq ((leadsOn_expect (.operator .pipe)).seq
    (hbody.seq (leadsOn_expect closer)))
  exact ((leadsOn_act .bump).seq hparts).node kind

end

variable (σ : State)

theorem leads_script : Leads (.script, σ) (of .script) σ := by
  refine .look ?_
  split
  · exact leads_ret true
  · rename_i i ts hrest
    have hnode : LeadsOn (.script, σ) (declaration i.kind) :=
      leadsOn_declaration (by simp) i.kind
    exact (hnode σ (Nat.le_refl _)).takes (takes_declaration hrest) (Nat.le_refl _)

theorem leads_strays : Leads (.strays, σ) (of .strays) σ := by
  refine .look ?_
  split
  · exact leads_ret true
  · rename_i i ts hrest
    exact (TakesFirst.seq takesFirst_misplaced).leads (hrest ▸ List.cons_ne_nil i ts)
      (Nat.le_refl _)

theorem leads_head : Leads (.head, σ) (of .head) σ := by
  have hname : LeadsOn (.head, σ) (Program.expect .identifier) := leadsOn_expect .identifier
  have hpath : LeadsOn (.head, σ) (.call .pathTail) := leadsOn_call (fun _ => rfl) (by simp)
  have hargs : LeadsOn (.head, σ) parameters? := by
    refine fun τ hle => .look ?_
    split
    · rename_i hat
      have hne := State.ne_nil_of_at? (Bool.and_eq_true_iff.mp hat).1
      exact leads_call_of_ne_nil hle hne (by simp)
    · exact leads_ret true
  exact (hname.seq (hpath.seq hargs)).node .ruleHead σ (Nat.le_refl _)

theorem leads_tail : Leads (.tail, σ) (of .tail) σ := by
  have hvalue : LeadsOn (.tail, σ) term := leadsOn_expression (by simp [Procedure.place])
  have hbody : LeadsOn (.tail, σ) (.call .bodyOnLine) := leadsOn_call (fun _ => rfl) (by simp)
  refine .look ?_
  split
  · exact leads_ret true
  split
  · exact (leadsOn_act .bump).seq (hvalue.seq hbody) σ (Nat.le_refl _)
  · exact leadsOn_body? (by simp) σ (Nat.le_refl _)

theorem leads_bodyOnLine : Leads (.bodyOnLine, σ) (of .bodyOnLine) σ := by
  refine .look ?_
  split
  · exact leads_ret true
  · exact leadsOn_body? (by simp) σ (Nat.le_refl _)

theorem leads_alternatives : Leads (.alternatives, σ) (of .alternatives) σ := by
  refine .look ?_
  split
  · rename_i hat
    have hnode : Takes (of .alternative) σ :=
      (TakesFirst.node (.seq .bump) .elseClause).takes (State.ne_nil_of_at? hat)
    have hcall : Leads (.alternatives, σ) (.call .alternative) σ :=
      leads_call_of_ne_nil (Nat.le_refl _) (State.ne_nil_of_at? hat) (by simp)
    exact hcall.takes hnode.call (Nat.le_refl _)
  · exact leads_ret true

theorem leads_alternative : Leads (.alternative, σ) (of .alternative) σ := by
  have hvalue : LeadsOn (.alternative, σ) value? := by
    refine .look fun τ => ?_
    split
    · exact (leadsOn_act .bump).seq (leadsOn_expression (by simp [Procedure.place]))
    · exact leadsOn_ret true
  have hbody : LeadsOn (.alternative, σ) body? := leadsOn_body? (by simp)
  exact ((leadsOn_act .bump).seq (hvalue.seq hbody)).node .elseClause σ (Nat.le_refl _)

theorem leads_pathTail : Leads (.pathTail, σ) (of .pathTail) σ := by
  refine .look ?_
  split
  · exact leads_ret true
  rename_i i ts hrest
  have hne : σ.rest ≠ [] := hrest ▸ List.cons_ne_nil i ts
  split
  · exact leads_ret true
  split
  · split
    · exact (TakesFirst.seq .bump).leads hne (Nat.le_refl _)
    · exact leads_ret true
  split
  · exact (TakesFirst.seq takesFirst_index).leads hne (Nat.le_refl _)
  · exact leads_ret true

theorem leads_ifBody : Leads (.ifBody, σ) (of .ifBody) σ := by
  have hbody : LeadsOn (.ifBody, σ) (.look fun τ =>
      if τ.at? (.mark .lbrace) then .call .bracedBody
      else node .body (within Scope.statement (.call .statement))) := by
    refine .look fun τ => ?_
    split
    · exact leadsOn_call (fun _ => rfl) (by simp)
    · have hone : LeadsOn (.ifBody, σ) (.call .statement) :=
        leadsOn_call (fun _ => rfl) (by simp)
      exact (hone.within _).node .body
  exact (leadsOn_act .bump).seq hbody σ (Nat.le_refl _)

/-- A statement that can begin is read, and what comes after it, the next round too, is further
on. -/
theorem leads_statements (closer : Token.Kind) :
    Leads (.statements closer, σ) (of (.statements closer)) σ := by
  refine .look ?_
  split
  · exact leads_ret true
  rename_i i ts hrest
  have hne : σ.rest ≠ [] := hrest ▸ List.cons_ne_nil i ts
  split
  · exact leads_ret true
  split
  · exact (TakesFirst.seq .bump).leads hne (Nat.le_refl _)
  split
  · exact (TakesFirst.seq takesFirst_misplaced).leads hne (Nat.le_refl _)
  · rename_i hcloser hsemicolon hstray
    have hoperand := neverOperand_of_not_stray hcloser hsemicolon hstray
    have hcall : Leads (.statements closer, σ) (.call .statement) σ :=
      leads_call_of_ne_nil (Nat.le_refl _) hne (by simp)
    exact hcall.takes (takes_statement hrest hoperand).call (Nat.le_refl _)

theorem leads_statement : Leads (.statement, σ) (of .statement) σ := by
  have hexpr : LeadsOn (.statement, σ) Program.expression :=
    leadsOn_expression (by simp [Procedure.place])
  have hclause : LeadsOn (.statement, σ) clause := by
    refine .look fun τ => ?_
    split
    · exact leadsOn_call (fun _ => rfl) (by simp)
    split
    · exact leadsOn_call (fun _ => rfl) (by simp)
    split
    · exact ((leadsOn_act .bump).seq hexpr).node .negation
    · exact hexpr
  have hmodifiers : LeadsOn (.statement, σ) (.call .modifiers) :=
    leadsOn_call (fun _ => rfl) (by simp)
  exact ((leadsOn_act .settle).seq (hclause.seq hmodifiers)).node .statement σ (Nat.le_refl _)

theorem leads_modifiers : Leads (.modifiers, σ) (of .modifiers) σ := by
  refine .look ?_
  split
  · rename_i hat
    have hne := State.ne_nil_of_at? (Bool.and_eq_true_iff.mp hat).1
    have hnode : Takes (of .modifier) σ :=
      (TakesFirst.node (.seq .bump) .withModifier).takes hne
    have hcall : Leads (.modifiers, σ) (.call .modifier) σ :=
      leads_call_of_ne_nil (Nat.le_refl _) hne (by simp)
    exact hcall.takes hnode.call (Nat.le_refl _)
  · exact leads_ret true

theorem leads_every : Leads (.every, σ) (of .every) σ := by
  have hterms : LeadsOn (.every, σ) (.call .termList) := leadsOn_call (fun _ => rfl) (by simp)
  cases hrest : σ.rest with
  | cons i ts =>
    have hne : σ.rest ≠ [] := hrest ▸ List.cons_ne_nil i ts
    exact (TakesFirst.node (.seq .bump) .everyExpression).leads hne (Nat.le_refl _)
  | nil =>
    -- At the end of the text no brace follows.
    have hbody : LeadsOn (.every, σ) (.look fun τ =>
        if τ.at? (.mark .lbrace) then .call .bracedBody else Program.missing) := by
      refine fun τ hle => .look ?_
      have hend : τ.rest = [] := by
        have hlength : τ.rest.length ≤ σ.rest.length := hle
        rw [hrest] at hlength
        exact List.eq_nil_of_length_eq_zero (Nat.le_zero.mp hlength)
      have hat : ¬ τ.at? (.mark .lbrace) = true := fun hat => State.ne_nil_of_at? hat hend
      rw [if_neg hat]
      exact leadsOn_missing τ hle
    exact ((leadsOn_act .bump).seq (hterms.seq hbody)).node .everyExpression σ (Nat.le_refl _)

theorem leads_moreTerms : Leads (.moreTerms, σ) (of .moreTerms) σ :=
  leadsOn_afterComma _ σ (Nat.le_refl _)

theorem leads_separated (objects : Bool) (closer : Token.Kind) :
    Leads (.separated objects closer, σ) (of (.separated objects closer)) σ := by
  have hone : LeadsOn (.separated objects closer, σ) (element objects) := by
    unfold element
    split
    · exact leadsOn_call (fun _ => rfl) (by simp)
    · exact leadsOn_expression (by simp [Procedure.place])
  refine .look ?_
  split
  · exact leads_ret true
  split
  · exact leads_ret true
  · exact hone.seq (leadsOn_afterComma _) σ (Nat.le_refl _)

theorem leads_expression (level : Nat) :
    Leads (.expression level, σ) (of (.expression level)) σ := by
  have hunary : LeadsOn (.expression level, σ) (.call .unary) :=
    leadsOn_call (fun _ => rfl) (by simp)
  have hmore : ∀ mark, LeadsOn (.expression level, σ) (.call (.operators level mark)) :=
    fun mark => leadsOn_call (fun _ => rfl) (by simp)
  exact .look (hunary.seq (hmore _) σ (Nat.le_refl _))

theorem leads_operators (level mark : Nat) :
    Leads (.operators level mark, σ) (of (.operators level mark)) σ := by
  refine .look ?_
  split
  · exact leads_ret true
  rename_i i ts hrest
  unfold operatorAt
  split
  · exact leads_ret true
  split
  · exact leads_ret true
  · exact (TakesFirst.seq (.wrap (.seq .bump) _ mark)).leads (hrest ▸ List.cons_ne_nil i ts)
      (Nat.le_refl _)

theorem leads_unary : Leads (.unary, σ) (of .unary) σ := by
  refine .look ?_
  split
  · rename_i hsign
    have hne : σ.rest ≠ [] := by
      rcases Bool.or_eq_true_iff.mp (Bool.and_eq_true_iff.mp hsign).1 with hat | hat
      · exact State.ne_nil_of_at? hat
      · exact State.ne_nil_of_at? hat
    exact (TakesFirst.node (.seq .bump) .unaryExpression).leads hne (Nat.le_refl _)
  · exact leadsOn_call (fun _ => rfl) (by simp) σ (Nat.le_refl _)

theorem leads_operand : Leads (.operand, σ) (of .operand) σ := by
  have hprimary : LeadsOn (.operand, σ) (.call .primary) := leadsOn_call (fun _ => rfl) (by simp)
  refine .look ((hprimary σ (Nat.le_refl _)).bind fun value τ hrun => ?_)
  split
  · exact leadsOn_call (fun _ => rfl) (by simp) τ hrun.length_le
  · exact leads_ret true

/-- What goes on with an operand takes the item that it begins with. -/
theorem takes_wrap_part {s : Scope} {i : Item} {kind : NodeKind} {c : Program}
    (h : partAt? s i = some (kind, c)) (mark : Nat) {σ : State} (hne : σ.rest ≠ []) :
    Takes (wrap kind mark c) σ ∧ Leads (.suffixes mark, σ) (wrap kind mark c) σ := by
  have hfirst : ∀ {c : Program}, TakesFirst c →
      Takes (wrap kind mark c) σ ∧ Leads (.suffixes mark, σ) (wrap kind mark c) σ := fun hc =>
    ⟨(TakesFirst.wrap hc kind mark).takes hne,
      (TakesFirst.wrap hc kind mark).leads hne (Nat.le_refl _)⟩
  unfold partAt? at h
  split at h
  · cases h
  split at h
  · cases h
    exact hfirst (.seq .bump)
  split at h
  · cases h
    exact hfirst takesFirst_index
  split at h
  · cases h
    -- The list of arguments is a procedure of its own, which takes the opening parenthesis.
    have hbody : TakesFirst (of .arguments) := takesFirst_collection _ _ _
    constructor
    · refine .act fun τ hafter => ?_
      cases hafter
      exact Takes.bind (Takes.call (hbody.takes hne))
    · refine (leads_act _).bind fun _ τ hrun => ?_
      cases hrun with
      | act hafter =>
        cases hafter
        refine Leads.bind ?_ fun _ _ _ => leads_act _
        exact leads_call_of_ne_nil (Nat.le_refl _) hne (by simp)
  · cases h

theorem leads_suffixes (mark : Nat) : Leads (.suffixes mark, σ) (of (.suffixes mark)) σ := by
  refine .look ?_
  split
  · exact leads_ret true
  rename_i i ts hrest
  have hne : σ.rest ≠ [] := hrest ▸ List.cons_ne_nil i ts
  unfold suffixAt
  split
  · exact leads_ret true
  · rename_i hpart
    obtain ⟨htakes, hleads⟩ := takes_wrap_part hpart mark hne
    exact hleads.takes htakes (Nat.le_refl _)

theorem leads_primary : Leads (.primary, σ) (of .primary) σ := by
  refine .look ?_
  split
  · exact leadsOn_missing.seq (leadsOn_ret false) σ (Nat.le_refl _)
  rename_i i ts hrest
  have hne : σ.rest ≠ [] := hrest ▸ List.cons_ne_nil i ts
  unfold primaryAt
  split
  · exact leadsOn_missing.seq (leadsOn_ret false) σ (Nat.le_refl _)
  split
  · exact leads_act .bump
  split
  · exact (TakesFirst.node (.seq .bump) .parenExpression).leads hne (Nat.le_refl _)
  split
  · exact leads_call_of_ne_nil (Nat.le_refl _) hne (by simp)
  split
  · exact leads_call_of_ne_nil (Nat.le_refl _) hne (by simp)
  · exact leadsOn_misplaced.seq (leadsOn_ret false) σ (Nat.le_refl _)

theorem leads_skip (stops : List Token.Kind) : Leads (.skip stops, σ) (of (.skip stops)) σ := by
  refine .look ?_
  split
  · rename_i hfits
    have hne : σ.rest ≠ [] := by
      intro hrest
      rw [hrest] at hfits
      cases hfits
    exact (TakesFirst.seq .bump).leads hne (Nat.le_refl _)
  · exact leads_ret true

/-- Brackets lead on: where one stands it is taken, and at the end of the text they come first. -/
theorem leads_brackets {p : Procedure} {σ : State} (hfirst : TakesFirst (of p))
    (hend : σ.rest = [] → LeadsOn (p, σ) (of p)) : Leads (p, σ) (of p) σ := by
  by_cases hrest : σ.rest = []
  · exact hend hrest σ (Nat.le_refl _)
  · exact hfirst.leads hrest (Nat.le_refl _)

theorem leads_bracket : Leads (.bracket, σ) (of .bracket) σ := by
  refine leads_brackets takesFirst_bracket fun hrest => .look fun τ => ?_
  have hplace : Procedure.bracket.place σ.rest = 0 := by rw [hrest]; rfl
  split
  · have hhead : LeadsOn (.bracket, σ) Program.expression :=
      leadsOn_expression (by simp [hplace])
    exact leadsOn_comprehension (by simp [hplace]) hhead _
  · exact leadsOn_collection (by simp [hplace]) _

theorem leads_brace : Leads (.brace, σ) (of .brace) σ := by
  refine leads_brackets takesFirst_brace fun hrest => .look fun τ => ?_
  have hplace : Procedure.brace.place σ.rest = 0 := by rw [hrest]; rfl
  split
  · have hhead : LeadsOn (.brace, σ) (.call .objectItem) :=
      leadsOn_call_of_place (fun _ => rfl) (by simp [hplace])
    exact leadsOn_comprehension (by simp [hplace]) hhead _
  · have hhead : LeadsOn (.brace, σ) Program.expression :=
      leadsOn_expression (by simp [hplace])
    exact leadsOn_comprehension (by simp [hplace]) hhead _
  · exact leadsOn_collection (by simp [hplace]) _
  · exact leadsOn_collection (by simp [hplace]) _
  · exact leadsOn_braced (by simp [hplace])

theorem leads_arguments : Leads (.arguments, σ) (of .arguments) σ := by
  refine leads_brackets (takesFirst_collection _ _ _) fun hrest => ?_
  have hplace : Procedure.arguments.place σ.rest = 0 := by rw [hrest]; rfl
  exact leadsOn_collection (by simp [hplace]) _

/-- Whatever a procedure calls is further on than its own entry. -/
theorem leads_of (p : Procedure) : Leads (p, σ) (of p) σ := by
  have hcall : ∀ {q : Procedure}, (∀ ts, q.place ts = q.number) → p.number < q.number →
      LeadsOn (p, σ) (.call q) := fun hplace hnumber => leadsOn_call hplace hnumber
  have hterm : p.place σ.rest < (Procedure.expression setOpLevel).number → LeadsOn (p, σ) term :=
    fun h => leadsOn_expression h
  cases p with
  | script => exact leads_script σ
  | standalone =>
    have hexpr : LeadsOn (.standalone, σ) Program.expression :=
      leadsOn_expression (by simp [Procedure.place])
    exact hexpr.seq (hcall (fun _ => rfl) (by simp)) σ (Nat.le_refl _)
  | strays => exact leads_strays σ
  | package =>
    have hpath := hcall (q := .declaredPath) (fun _ => rfl) (by simp)
    exact ((leadsOn_act .bump).seq hpath).node _ σ (Nat.le_refl _)
  | importOf =>
    have hpath := hcall (q := .declaredPath) (fun _ => rfl) (by simp)
    have halias : LeadsOn (.importOf, σ) Program.alias? := by
      refine .look fun τ => ?_
      split
      · exact (leadsOn_act .bump).seq (leadsOn_expect _)
      · exact leadsOn_ret true
    exact ((leadsOn_act .bump).seq (hpath.seq halias)).node _ σ (Nat.le_refl _)
  | declaredPath =>
    refine LeadsOn.look (fun τ => ?_) σ (Nat.le_refl _)
    split
    · exact leadsOn_missing
    · exact ((leadsOn_act .bumpName).seq
        (hcall (fun _ => rfl) (by simp))).node _
  | rule =>
    have hword : LeadsOn (.rule, σ) defaultWord? := by
      refine .look fun τ => ?_
      split
      · exact leadsOn_act .bump
      · exact leadsOn_ret true
    have hhead := hcall (q := .head) (fun _ => rfl) (by simp)
    have htail := hcall (q := .tail) (fun _ => rfl) (by simp)
    have hothers := hcall (q := .alternatives) (fun _ => rfl) (by simp)
    exact (hword.seq (hhead.seq (htail.seq hothers))).node _ σ (Nat.le_refl _)
  | head => exact leads_head σ
  | tail => exact leads_tail σ
  | bodyOnLine => exact leads_bodyOnLine σ
  | alternatives => exact leads_alternatives σ
  | alternative => exact leads_alternative σ
  | pathTail => exact leads_pathTail σ
  | ifBody => exact leads_ifBody σ
  | bracedBody =>
    exact leadsOn_braced (by simp [Procedure.place]) σ (Nat.le_refl _)
  | comprehensionBody closer =>
    have hbody : LeadsOn (.comprehensionBody closer, σ)
        (within Scope.statement (.call (.statements closer))) :=
      leadsOn_statements (by simp [Procedure.place])
    exact hbody.node _ σ (Nat.le_refl _)
  | statements closer => exact leads_statements σ closer
  | statement => exact leads_statement σ
  | modifiers => exact leads_modifiers σ
  | modifier =>
    have htarget := hcall (q := .unary) (fun _ => rfl) (by simp)
    have hvalue := hterm (by simp [Procedure.place])
    exact ((leadsOn_act .bump).seq (htarget.seq ((leadsOn_expect _).seq hvalue))).node _ σ
      (Nat.le_refl _)
  | some =>
    have hterms := hcall (q := .termList) (fun _ => rfl) (by simp)
    exact ((leadsOn_act .bump).seq hterms).node _ σ (Nat.le_refl _)
  | every => exact leads_every σ
  | termList =>
    have hone := hterm (by simp [Procedure.place])
    exact hone.seq (hcall (fun _ => rfl) (by simp)) σ (Nat.le_refl _)
  | moreTerms => exact leads_moreTerms σ
  | separated objects closer => exact leads_separated σ objects closer
  | objectItem =>
    have hone := hterm (by simp [Procedure.place])
    exact (hone.seq ((leadsOn_expect _).seq hone)).node _ σ (Nat.le_refl _)
  | expression level => exact leads_expression σ level
  | operators level mark => exact leads_operators σ level mark
  | unary => exact leads_unary σ
  | operand => exact leads_operand σ
  | suffixes mark => exact leads_suffixes σ mark
  | primary => exact leads_primary σ
  | restOfLine stops =>
    have hmore := hcall (q := .skip stops) (fun _ => rfl) (by simp)
    exact ((leadsOn_act .bump).seq hmore).node _ σ (Nat.le_refl _)
  | skip stops => exact leads_skip σ stops
  | arguments => exact leads_arguments σ
  | bracket => exact leads_bracket σ
  | brace => exact leads_brace σ

/-! ### Chains of calls -/

theorem Further.trans {x y z : Procedure × State} (h : Further x y) (h' : Further y z) :
    Further x z := by
  unfold Further at h h' ⊢
  omega

/-- Down a chain of calls every entry is further on. -/
theorem further_of_transGen {x y : Procedure × State} (h : Relation.TransGen Enters x y) :
    Further x y := by
  induction h with
  | single hcall => exact leads_of _ _ _ hcall
  | tail _ hcall ih => exact ih.trans (leads_of _ _ _ hcall)

/-- With as many items before it a procedure has the same place. -/
theorem place_eq_of_length {p q : Procedure} (h : p.number = q.number) {ts us : List Item}
    (hlength : ts.length = us.length) : p.place ts = q.place us := by
  cases ts with
  | nil =>
    have hend : ∀ r : Procedure,
        r.place [] = if Procedure.arguments.number ≤ r.number then 0 else r.number := by
      intro r
      cases r <;> rfl
    rw [List.eq_nil_of_length_eq_zero hlength.symm, hend p, hend q, h]
  | cons i ts =>
    have hne : us ≠ [] := by
      rintro rfl
      cases hlength
    rw [place_of_ne_nil p (List.cons_ne_nil i ts), place_of_ne_nil q hne, h]

/-- Before a procedure is entered again from within, an item is taken. -/
theorem length_lt_of_reenters {p q : Procedure} {σ τ : State}
    (h : Relation.TransGen Enters (p, σ) (q, τ)) (hsame : p.number = q.number) :
    τ.rest.length < σ.rest.length := by
  rcases further_of_transGen h with hlt | ⟨hlength, hplace⟩
  · exact hlt
  -- With as many items before it the procedure would have a place greater than its own.
  · rw [place_eq_of_length hsame hlength.symm] at hplace
    exact absurd hplace (Nat.lt_irrefl _)

end PolicyEditor.Grammar.Machine
