import PolicyEditor.Proofs.Grammar.ExpressionGrouping
import PolicyEditor.Proofs.Grammar.OperandLocality

/-!
Expressions on a single line. Where no line break can end a statement, it does not matter whether
the expression stands in a statement or in brackets. Nor does it matter whether assignments are
allowed, if the expression is none.
-/

namespace PolicyEditor.Grammar

/-! ### Line breaks -/

/-- No line break before one of these items can end a statement. -/
def Flowing (ts : List Item) : Prop :=
  ∀ i ∈ ts, i.breaks = false

def StaysFlowing : Account :=
  fun _ ts _ rest => Flowing ts → Flowing rest

theorem Flowing.settle {ts : List Item} (h : Flowing ts) : Flowing (settle ts) := by
  cases ts with
  | nil => exact h
  | cons i rest => exact List.forall_mem_cons.mpr ⟨rfl, (List.forall_mem_cons.mp h).2⟩

instance : Composes StaysFlowing where
  nil _ := id
  leaf _ h hts := h (List.forall_mem_cons.mp hts).2
  nameLeaf _ h hts := h (List.forall_mem_cons.mp hts).2
  append h h' hts := h' (h hts)
  enclose _ _ h := h
  settled h hts := h hts.settle

def Scope.onLines (s : Scope) (lines : Bool) : Scope :=
  { s with lines := lines }

/-- On such items the parser makes the same in statements and in brackets. -/
def LineFree (expr : ExprParser) : Prop :=
  ∀ s lines level ts, Flowing ts → expr (s.onLines lines) level ts = expr s level ts

section

variable {i : Item} {rest ts : List Item}

theorem Flowing.stops (h : Flowing (i :: rest)) (s : Scope) : s.stops i = false := by
  rw [Scope.stops, (List.forall_mem_cons.mp h).1, Bool.and_false]

theorem Flowing.tail (h : Flowing (i :: rest)) : Flowing rest :=
  (List.forall_mem_cons.mp h).2

variable {expr : ExprParser} (s : Scope) (lines : Bool)

theorem part_onLines (h : Flowing (i :: rest)) :
    part expr (s.onLines lines) i rest = part expr s i rest := by
  have hmember : member (s.onLines lines) rest = member s rest := by
    cases rest <;> rfl
  rw [part, part, h.stops, h.stops, hmember]
  rfl

theorem references_onLines (hstays : ComposesExpr StaysFlowing expr) (rounds : Nat) (base : Tree)
    (h : Flowing ts) :
    references expr (s.onLines lines) rounds base ts = references expr s rounds base ts := by
  induction rounds generalizing base ts with
  | zero => rfl
  | succ rounds ih =>
    cases ts with
    | nil => rfl
    | cons i rest =>
      have hpart : part expr (s.onLines lines) i rest = part expr s i rest :=
        part_onLines s lines h
      cases hq : part expr s i rest with
      | none =>
        rw [references_none hq, references_none (hpart.trans hq)]
      | some q =>
        rw [references_some hq, references_some (hpart.trans hq), ih _ (part_composes hstays hq h)]
        rfl

theorem unaryWith_onLines {operand operand' : List Item → Parsed}
    (hoperand : ∀ ts, Flowing ts → operand' ts = operand ts) (h : Flowing ts) :
    unaryWith operand' (s.onLines lines) ts = unaryWith operand s ts := by
  induction ts with
  | nil => exact hoperand [] h
  | cons i rest ih =>
    rw [unaryWith, unaryWith, h.stops, h.stops, ih h.tail, hoperand _ h]
    rfl

theorem binaryTail_onLines (hexpr : LineFree expr) (hstays : ComposesExpr StaysFlowing expr)
    (level rounds : Nat) (left : Tree) (h : Flowing ts) :
    binaryTail expr (s.onLines lines) level rounds left ts =
      binaryTail expr s level rounds left ts := by
  induction rounds generalizing left ts with
  | zero => rfl
  | succ rounds ih =>
    cases ts with
    | nil => rfl
    | cons i rest =>
      rw [binaryTail, binaryTail]
      cases binding? i.kind with
      | none => rfl
      | some b =>
        have hafter := hstays s (b.level + 1) rest h.tail
        simp only [h.stops, hexpr s lines (b.level + 1) rest h.tail, ih _ hafter]
        rfl

end

namespace Rules

variable {r : Rules}

theorem operand_onLines (hr : r.Composed StaysFlowing) (s : Scope) (lines : Bool) {ts : List Item}
    (h : Flowing ts) : r.operand (s.onLines lines) ts = r.operand s ts := by
  cases ts with
  | nil => rfl
  | cons i rest =>
    have hcontinued : ∀ p : Parsed, Flowing p.2 →
        references r.expr (s.onLines lines) p.2.length p.1 p.2 =
          references r.expr s p.2.length p.1 p.2 := fun p hp =>
      references_onLines s lines hr.expr p.2.length p.1 hp
    rw [operand, operand, h.stops, h.stops]
    split
    · rfl
    split
    · exact hcontinued (i.leaf, rest) h.tail
    split
    · exact hcontinued _ (parens_compose hr s i rest h)
    split
    · exact hcontinued _ (brackets_compose hr s i rest h)
    split
    · exact hcontinued _ (braces_compose hr s i rest h)
    · rfl

theorem upTo_lineFree (n : Nat) : LineFree (upTo n).expr := by
  induction n with
  | zero =>
    intro s lines level ts _
    cases ts <;> rfl
  | succ n ih =>
    intro s lines level ts h
    have hr := upTo_compose (C := StaysFlowing) n
    show (upTo n).expression (s.onLines lines) level ts = (upTo n).expression s level ts
    have hleft := unaryWith_onLines s lines (fun ts hts => operand_onLines hr s lines hts) h
    have hafter := unaryWith_composes (operand_composes hr s) ts h
    rw [expression, expression, hleft]
    exact binaryTail_onLines s lines ih hr.expr level _ _ hafter

end Rules

/-! ### Assignments -/

theorem assign_of_level {k : Token.Kind} {b : Binding} (h : binding? k = some b)
    (hlevel : b.level < setOpLevel) : b.node = .assignExpression := by
  unfold binding? at h
  split at h <;> cases h <;> first | rfl | exact absurd hlevel (by decide)

theorem endsAtOperator_iff {s : Scope} {level : Nat} {i : Item} {b : Binding} :
    EndsAtOperator s level i b ↔
      b.level < level ∨ (i.kind == .operator .pipe && s.bars) = true ∨ s.stops i = true := by
  simp only [EndsAtOperator, Bool.or_eq_true, decide_eq_true_eq, or_assoc]

/-- Either no operator goes on with the items at a level, or the first of them is one that does. -/
theorem operator_cases (s : Scope) (level : Nat) (i : Item) :
    (∀ b, binding? i.kind = some b → EndsAtOperator s level i b) ∨
      ∃ b, binding? i.kind = some b ∧ ¬ EndsAtOperator s level i b := by
  by_cases h : ∀ b, binding? i.kind = some b → EndsAtOperator s level i b
  · exact .inl h
  · simp only [Classical.not_forall] at h
    obtain ⟨b, hb, hgoes⟩ := h
    exact .inr ⟨b, hb, hgoes⟩

section

variable {n : Nat} {expr : ExprParser} (h : Climbing n expr) (s : Scope) {rounds : Nat}
  {left : Tree} {ts : List Item} (hts : ts.length ≤ n)
include h hts

/-- What begins with an assignment is one: only assignments can follow its right side. -/
theorem binaryTail_assign (hleft : left.kind = .assignExpression)
    (hhalts : Halts s setOpLevel ts) :
    (binaryTail expr s assignLevel rounds left ts).1.kind = .assignExpression := by
  induction rounds generalizing left ts with
  | zero => exact hleft
  | succ rounds ih =>
    cases ts with
    | nil => exact hleft
    | cons i rest =>
      rcases operator_cases s assignLevel i with hstop | ⟨b, hb, hgoes⟩
      · rw [binaryTail_stops hstop]
        exact hleft
      rw [binaryTail_goes hb hgoes]
      simp only [endsAtOperator_iff, not_or, Nat.not_lt] at hgoes
      obtain ⟨hlow, hbar, hline⟩ := hgoes
      -- What halted one level up can only be an assignment, so its right side halts there again.
      have hloose : b.level < setOpLevel :=
        (hhalts i rfl b hb).resolve_right fun hstop => hstop.elim hbar hline
      have hlevel : b.level + 1 = setOpLevel := Nat.le_antisymm hloose (Nat.succ_le_succ hlow)
      have hright := h.climbs s (b.level + 1) rest hts
      have hle := h.length_le s (b.level + 1) rest
      rw [List.length_cons] at hts
      exact ih (by omega) (assign_of_level hb hloose) (hlevel ▸ hright.halts)

/-- Operators that make no assignment are read alike where assignments are not allowed. -/
theorem binaryTail_term
    (hne : (binaryTail expr s assignLevel rounds left ts).1.kind ≠ .assignExpression) :
    binaryTail expr s setOpLevel rounds left ts =
      binaryTail expr s assignLevel rounds left ts := by
  induction rounds generalizing left ts with
  | zero => rfl
  | succ rounds ih =>
    cases ts with
    | nil => rfl
    | cons i rest =>
      rcases operator_cases s assignLevel i with hstop | ⟨b, hb, hgoes⟩
      · have hstop' : ∀ b, binding? i.kind = some b → EndsAtOperator s setOpLevel i b := by
          intro b hb
          rw [endsAtOperator_iff]
          exact (endsAtOperator_iff.mp (hstop b hb)).imp_left Nat.lt_succ_of_lt
        rw [binaryTail_stops hstop, binaryTail_stops hstop']
      have hright := h.climbs s (b.level + 1) rest hts
      have hle := h.length_le s (b.level + 1) rest
      have hlow : assignLevel ≤ b.level :=
        Nat.le_of_not_lt fun hlow => hgoes (endsAtOperator_iff.mpr (.inl hlow))
      rw [List.length_cons] at hts
      rw [binaryTail_goes hb hgoes] at hne ⊢
      by_cases hloose : b.level < setOpLevel
      -- One assignment on the way makes the whole an assignment, which it is not.
      · have hlevel : b.level + 1 = setOpLevel := Nat.le_antisymm hloose (Nat.succ_le_succ hlow)
        refine absurd ?_ hne
        exact binaryTail_assign h s (by omega) (assign_of_level hb hloose) (hlevel ▸ hright.halts)
      · have hgoes' : ¬ EndsAtOperator s setOpLevel i b := by
          rw [endsAtOperator_iff] at hgoes ⊢
          exact fun hstop => hgoes (.inr (hstop.resolve_left hloose))
        rw [binaryTail_goes hb hgoes']
        exact ih (by omega) hne

end

namespace Rules

/-- An expression that is no assignment is read alike where assignments are not allowed. -/
theorem expr_term (n : Nat) (s : Scope) {ts : List Item} (hts : ts.length < n)
    (hne : ((upTo n).expr s assignLevel ts).1.kind ≠ .assignExpression) :
    (upTo n).expr s setOpLevel ts = (upTo n).expr s assignLevel ts := by
  cases n with
  | zero => exact absurd hts (Nat.not_lt_zero _)
  | succ n =>
    have hle := Covers.length_le (unaryWith_composes (operand_composes (upTo_compose n) s) ts)
    exact binaryTail_term (upTo_groups n).climbing s (by omega) hne

end Rules

end PolicyEditor.Grammar
