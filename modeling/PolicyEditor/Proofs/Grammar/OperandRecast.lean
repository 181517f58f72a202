import PolicyEditor.Proofs.Grammar.OperandExtension
import PolicyEditor.Proofs.Grammar.Recast

/-!
Pieces of the grammar on recast items. Given a parser of expressions that makes recast trees of
recast items, so do lists between commas, references and operators.
-/

namespace PolicyEditor.Grammar.Recast

variable {φ : Recast}

theorem separated_recast {one one' : List Item → Parsed} (hone : φ.Casts one one')
    (closer : Token.Kind) (rounds : Nat) {ts : List Item} (h : φ.Intact ts) :
    φ.CarriesList (separated one closer rounds ts)
      (separated one' closer rounds (ts.map φ.item)) := by
  induction rounds generalizing ts with
  | zero => exact fun _ => ⟨rfl, h⟩
  | succ rounds ih =>
    cases ts with
    | nil => exact fun _ => ⟨rfl, .nil⟩
    | cons i rest =>
      by_cases hc : i.kind = closer
      · simp only [List.map_cons, separated, h.kind_item, if_pos hc]
        exact fun _ => ⟨rfl, h⟩
      have hnode := hone (i :: rest) h
      rcases hp : one (i :: rest) with ⟨node, after⟩
      rw [hp, List.map_cons] at hnode
      simp only [List.map_cons, separated, h.kind_item, if_neg hc, hp]
      cases after with
      | nil =>
        intro hspares
        obtain ⟨hone', hafter⟩ := hnode hspares
        rw [hone']
        exact ⟨rfl, hafter⟩
      | cons j next =>
        simp only
        by_cases hj : j.kind = .mark .comma
        · simp only [if_pos hj]
          intro hspares
          obtain ⟨hfirst, hothers⟩ := Spares.cons_iff.mp hspares
          obtain ⟨hone', hafter⟩ := hnode hfirst
          obtain ⟨hmore, hlast⟩ :=
            ih (hafter.tail_of_eq hj (by decide)) (Spares.cons_iff.mp hothers).2
          rw [hone']
          simp only [parsed, List.map_cons, hafter.kind_item, if_pos hj, hmore,
            leaf_item hafter.kind_item]
          exact ⟨rfl, hlast⟩
        · simp only [if_neg hj]
          intro hspares
          obtain ⟨hone', hafter⟩ := hnode hspares
          rw [hone']
          simp only [parsed, List.map_cons, hafter.kind_item, if_neg hj]
          exact ⟨rfl, hafter⟩

theorem terms_recast {one one' : List Item → Parsed} (hone : φ.Casts one one') (rounds : Nat)
    {ts : List Item} (h : φ.Intact ts) :
    φ.CarriesList (terms one rounds ts) (terms one' rounds (ts.map φ.item)) := by
  induction rounds generalizing ts with
  | zero => exact fun _ => ⟨rfl, h⟩
  | succ rounds ih =>
    have hnode := hone ts h
    rcases hp : one ts with ⟨node, after⟩
    rw [hp] at hnode
    simp only [terms, hp]
    cases after with
    | nil =>
      intro hspares
      obtain ⟨hone', hafter⟩ := hnode hspares
      rw [hone']
      exact ⟨rfl, hafter⟩
    | cons j next =>
      simp only
      by_cases hj : j.kind = .mark .comma
      · simp only [if_pos hj]
        intro hspares
        obtain ⟨hfirst, hothers⟩ := Spares.cons_iff.mp hspares
        obtain ⟨hone', hafter⟩ := hnode hfirst
        obtain ⟨hmore, hlast⟩ :=
          ih (hafter.tail_of_eq hj (by decide)) (Spares.cons_iff.mp hothers).2
        rw [hone']
        simp only [parsed, List.map_cons, hafter.kind_item, if_pos hj, hmore,
          leaf_item hafter.kind_item]
        exact ⟨rfl, hlast⟩
      · simp only [if_neg hj]
        intro hspares
        obtain ⟨hone', hafter⟩ := hnode hspares
        rw [hone']
        simp only [parsed, List.map_cons, hafter.kind_item, if_neg hj]
        exact ⟨rfl, hafter⟩

/-- Whoever takes a dot takes the name behind it. -/
theorem member_recast (s : Scope) {i : Item} {rest : List Item} (h : φ.Intact (i :: rest)) :
    member (scope s) (rest.map φ.item) = φ.parsed (member s rest) ∧
      φ.Intact (member s rest).2 := by
  cases h with
  | cons _ _ hrest =>
    cases rest with
    | nil => exact ⟨Prod.ext (missing_recast s []) rfl, .nil⟩
    | cons j next =>
      simp only [List.map_cons, member, hrest.kind_item, newline_item]
      split
      case isTrue hj => exact ⟨rfl, hrest.tail_of_isName (Bool.and_eq_true_iff.mp hj).1⟩
      case isFalse => exact ⟨Prod.ext (missing_recast s (j :: next)) rfl, hrest⟩
  | @member _ j rest _ _ _ hname hname' hline hrest =>
    have hmapped : (φ.item j).kind.isName = true := hname'
    rw [List.map_cons, member, member, newline_item, hline, hname, hmapped]
    exact ⟨rfl, hrest⟩

section

variable {expr : ExprParser} (hexpr : φ.CastsExpr expr)
include hexpr

theorem arguments_recast (s : Scope) {opener : Item} (hopener : (φ.item opener).kind = opener.kind)
    {rest : List Item} (h : φ.Intact rest) :
    φ.Carries (arguments expr s opener rest)
      (arguments expr (scope s) (φ.item opener) (rest.map φ.item)) := by
  intro hspares
  simp only [arguments] at hspares
  obtain ⟨hargs, -⟩ := Spares.append_iff.mp (Spares.cons_iff.mp hspares.children).2
  obtain ⟨hlist, hafter⟩ := separated_recast (hexpr s.bracketed assignLevel) (.mark .rparen)
    rest.length h hargs
  obtain ⟨hcloser, hlast⟩ := expect_recast (.mark .rparen) s hafter (by decide)
  simp only [arguments, List.length_map, bracketed_scope, hlist, parsedList, hcloser, parsed,
    leaf_item hopener, here_scope, tree_enclose, List.map_cons, List.map_append]
  exact ⟨rfl, hlast⟩

theorem index_recast (s : Scope) {opener : Item} (hopener : (φ.item opener).kind = opener.kind)
    {rest : List Item} (h : φ.Intact rest) :
    φ.CarriesList (index expr s opener rest)
      (index expr (scope s) (φ.item opener) (rest.map φ.item)) := by
  intro hspares
  simp only [index] at hspares
  obtain ⟨hinside, -⟩ := Spares.cons_iff.mp (Spares.cons_iff.mp hspares).2
  obtain ⟨hvalue, hafter⟩ := hexpr s.bracketed assignLevel rest h hinside
  obtain ⟨hcloser, hlast⟩ := expect_recast (.mark .rbracket) s hafter (by decide)
  simp only [index, bracketed_scope, hvalue, parsed, hcloser, leaf_item hopener]
  exact ⟨rfl, hlast⟩

theorem part_recast {s : Scope} {i : Item} {rest : List Item} (h : φ.Intact (i :: rest))
    (hspares : ∀ q ∈ part expr s i rest, φ.Spares q.2.1) :
    part expr (scope s) (φ.item i) (rest.map φ.item) =
        (part expr s i rest).map (fun q => (q.1, φ.parsedList q.2)) ∧
      ∀ q ∈ part expr s i rest, φ.Intact q.2.2 := by
  by_cases hstops : s.stops i = true
  · simp only [part, stops_scope, if_pos hstops]
    exact ⟨rfl, by rintro _ ⟨⟩⟩
  simp only [part, stops_scope, h.kind_item, if_neg hstops] at hspares ⊢
  by_cases hdot : i.kind = .mark .dot
  · obtain ⟨hname, hafter⟩ := member_recast s h
    simp only [if_pos hdot, hname, leaf_item h.kind_item]
    exact ⟨rfl, by rintro _ ⟨⟩; exact hafter⟩
  simp only [if_neg hdot] at hspares ⊢
  have hrest := h.tail hdot
  by_cases hbracket : i.kind = .mark .lbracket
  · simp only [if_pos hbracket] at hspares ⊢
    obtain ⟨hindex, hafter⟩ := index_recast hexpr s h.kind_item hrest (hspares _ rfl)
    rw [hindex]
    exact ⟨rfl, by rintro _ ⟨⟩; exact hafter⟩
  simp only [if_neg hbracket] at hspares ⊢
  by_cases hparen : i.kind = .mark .lparen
  · simp only [if_pos hparen] at hspares ⊢
    obtain ⟨hargs, hafter⟩ := arguments_recast hexpr s h.kind_item hrest (hspares _ rfl)
    rw [hargs]
    exact ⟨rfl, by rintro _ ⟨⟩; exact hafter⟩
  · rw [if_neg hparen, if_neg hparen]
    exact ⟨rfl, by rintro _ ⟨⟩⟩

end

/-! ### Tails of references and operators -/

theorem references_spares {expr : ExprParser} {s : Scope} {rounds : Nat} {base : Tree}
    {ts : List Item} (h : φ.Spares [(references expr s rounds base ts).1]) : φ.Spares [base] := by
  induction rounds generalizing base ts with
  | zero => exact h
  | succ rounds ih =>
    cases ts with
    | nil => exact h
    | cons i rest =>
      rcases hpart : part expr s i rest with _ | q
      · rwa [references_none hpart] at h
      · rw [references_some hpart] at h
        exact (Spares.cons_iff.mp (ih h).children).1

theorem references_recast {expr : ExprParser} (hexpr : φ.CastsExpr expr) (s : Scope) (rounds : Nat)
    (base : Tree) {ts : List Item} (h : φ.Intact ts) :
    φ.Carries (references expr s rounds base ts)
      (references expr (scope s) rounds (φ.tree base) (ts.map φ.item)) := by
  induction rounds generalizing base ts with
  | zero => exact fun _ => ⟨rfl, h⟩
  | succ rounds ih =>
    cases ts with
    | nil => exact fun _ => ⟨rfl, .nil⟩
    | cons i rest =>
      have hpart' := part_recast hexpr (s := s) h
      rcases hpart : part expr s i rest with _ | q
      · rw [hpart] at hpart'
        rw [references_none hpart, List.map_cons, references_none (hpart' (by rintro _ ⟨⟩)).1]
        exact fun _ => ⟨rfl, h⟩
      · rw [hpart] at hpart'
        rw [references_some hpart]
        intro hspares
        -- The node of this round is part of the result, so it spares what that spares.
        have hparts := (Spares.cons_iff.mp (references_spares hspares).children).2
        obtain ⟨hsame, hafter⟩ := hpart' (by rintro _ ⟨⟩; exact hparts)
        obtain ⟨hrest, hlast⟩ := ih _ (hafter q rfl) hspares
        rw [List.map_cons, references_some hsame]
        simp only [parsedList, here_scope]
        rw [← hrest, tree_enclose, List.map_cons]
        exact ⟨rfl, hlast⟩

theorem unaryWith_recast {operand operand' : List Item → Parsed}
    (hoperand : φ.Casts operand operand') (s : Scope) :
    φ.Casts (unaryWith operand s) (unaryWith operand' (scope s)) := by
  intro ts h
  induction ts with
  | nil => exact hoperand [] h
  | cons i rest ih =>
    simp only [unaryWith, List.map_cons, h.kind_item, stops_scope]
    split
    case isTrue hi =>
      intro hspares
      have hsign : i.kind ≠ .mark .dot := by
        intro hdot
        rw [hdot] at hi
        cases hi
      obtain ⟨hnode, hafter⟩ := ih (h.tail hsign) (Spares.cons_iff.mp hspares.children).2
      simp only [hnode, parsed, here_scope, leaf_item h.kind_item, tree_enclose]
      exact ⟨rfl, hafter⟩
    case isFalse => exact hoperand (i :: rest) h

theorem binaryTail_spares {expr : ExprParser} {s : Scope} {level rounds : Nat} {left : Tree}
    {ts : List Item} (h : φ.Spares [(binaryTail expr s level rounds left ts).1]) :
    φ.Spares [left] := by
  induction rounds generalizing left ts with
  | zero => exact h
  | succ rounds ih =>
    cases ts with
    | nil => exact h
    | cons i rest =>
      rw [binaryTail] at h
      split at h
      · exact h
      split at h
      · exact h
      · exact (Spares.cons_iff.mp (ih h).children).1

theorem binaryTail_recast {expr : ExprParser} (hexpr : φ.CastsExpr expr) (s : Scope) (level : Nat)
    (rounds : Nat) (left : Tree) {ts : List Item} (h : φ.Intact ts) :
    φ.Carries (binaryTail expr s level rounds left ts)
      (binaryTail expr (scope s) level rounds (φ.tree left) (ts.map φ.item)) := by
  induction rounds generalizing left ts with
  | zero => exact fun _ => ⟨rfl, h⟩
  | succ rounds ih =>
    cases ts with
    | nil => exact fun _ => ⟨rfl, .nil⟩
    | cons i rest =>
      simp only [binaryTail, List.map_cons, h.kind_item, stops_scope, bars_scope]
      split
      · exact fun _ => ⟨rfl, h⟩
      case h_2 b hb =>
        split
        · exact fun _ => ⟨rfl, h⟩
        · intro hspares
          have hparts := (binaryTail_spares hspares).children
          have hnode := (Spares.cons_iff.mp (Spares.cons_iff.mp hparts).2).2
          have hsign : i.kind ≠ .mark .dot := by
            intro hdot
            rw [hdot] at hb
            cases hb
          obtain ⟨hright, hafter⟩ := hexpr s (b.level + 1) rest (h.tail hsign) hnode
          obtain ⟨hrest, hlast⟩ := ih _ hafter hspares
          rw [hright, ← hrest, tree_enclose]
          simp only [parsed, here_scope, leaf_item h.kind_item]
          exact ⟨rfl, hlast⟩

end PolicyEditor.Grammar.Recast
