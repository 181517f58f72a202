import PolicyEditor.Proofs.Grammar.Extension
import PolicyEditor.Proofs.Grammar.Pairing

/-!
Pieces of the grammar in a longer text. Given parsers of expressions that make the same of a text
and of the same text within a longer one, so do lists between commas, references and operators.
-/

namespace PolicyEditor.Grammar

open PolicyEditor.Tree (cleanAll)

theorem beginsDeclaration_ne_mark {k : Token.Kind} (h : beginsDeclaration k = true) (m : Mark) :
    k ≠ .mark m := by
  rintro rfl
  cases h

theorem binding?_of_beginsDeclaration {k : Token.Kind} (h : beginsDeclaration k = true) :
    binding? k = none := by
  unfold beginsDeclaration at h
  split at h <;> first | rfl | cases h

namespace Extension

variable {x : Extension} {n : Nat}

/-- The second rule makes of items in the longer text what the first one makes of them in the text.
-/
def Extends (x : Extension) (n : Nat) (one one' : List Item → Parsed) : Prop :=
  ∀ ts, x.Fits n ts → x.Admits [(one ts).1] → one' (x.items ts) = x.parsed (one ts)

def ExtendsExpr (x : Extension) (n : Nat) (expr expr' : ExprParser) : Prop :=
  ∀ s level, x.Extends n (expr s level) (expr' (x.scope s) level)

/-- If something follows the text, then the items begin with a token of this kind. -/
def EndsAt (x : Extension) (kind : Token.Kind) (ts : List Item) : Prop :=
  x.more = [] ∨ ∃ i rest, ts = i :: rest ∧ i.kind = kind

theorem EndsAt.ne_nil {kind : Token.Kind} {ts : List Item} (h : x.EndsAt kind ts) :
    x.more = [] ∨ ts ≠ [] :=
  h.imp_right fun ⟨_, _, hts, _⟩ => by rw [hts]; exact nofun

theorem missing_extends {s : Scope} {ts : List Item} (h : x.Admits [missing s ts]) :
    missing (x.scope s) (x.items ts) = x.tree (missing s ts) := by
  rw [missing, missing, tree_enclose, here_scope s (.inl (h.nothing_follows rfl)), List.map_nil]

theorem misplaced_extends {s : Scope} {is : List Item} (h : x.Admits [misplaced s is]) :
    misplaced (x.scope s) (is.map (Item.shift x.offset)) = x.tree (misplaced s is) := by
  have hmore : x.more = [] := h.nothing_follows rfl
  rw [misplaced, misplaced, tree_enclose, ← here_scope s (.inl hmore), x.items_of_nothing hmore,
    List.map_map, List.map_map]
  rfl

theorem endsAt_of_expect {kind : Token.Kind} {s : Scope} {ts : List Item}
    (h : x.Admits [(expect kind s ts).1]) : x.EndsAt kind ts :=
  h.imp_right fun hclean => by
    obtain ⟨i, rest, hts, hi, -⟩ := expect_clean (Tree.cleanAll_cons.mp hclean).1
    exact ⟨i, rest, hts, hi⟩

/-- A rule that misses something where the text ends. -/
theorem extends_nil (one : List Item → Parsed) {one' : List Item → Parsed} {s : Scope}
    (hone : one [] = (missing s [], [])) (hone' : one' [] = (missing (x.scope s) [], []))
    (hclean : x.Admits [(one []).1]) :
    one' (x.items []) = x.parsed (one []) := by
  rw [hone] at hclean ⊢
  have hmore : x.more = [] := hclean.nothing_follows rfl
  have hmissing : missing (x.scope s) (x.items []) = x.tree (missing s []) := missing_extends hclean
  rw [items_nil, hmore] at hmissing
  rw [items_nil, hmore, hone', hmissing]
  exact Prod.ext rfl hmore.symm

theorem expect_extends {kind : Token.Kind} {s : Scope} {ts : List Item}
    (h : x.Admits [(expect kind s ts).1]) :
    expect kind (x.scope s) (x.items ts) = x.parsed (expect kind s ts) := by
  cases ts with
  | nil => exact extends_nil (expect kind s) rfl rfl h
  | cons i rest =>
    rw [items_cons, expect, expect, Item.kind_shift]
    split
    · rfl
    case isFalse hi =>
      rw [expect, if_neg hi] at h
      exact Prod.ext (missing_extends h) rfl

theorem separated_closer (one : List Item → Parsed) {closer : Token.Kind} (rounds : Nat) (i : Item)
    (hi : i.kind = closer) (rest : List Item) :
    separated one closer rounds (i :: rest) = ([], i :: rest) := by
  cases rounds with
  | zero => rfl
  | succ rounds => rw [separated, if_pos hi]

theorem separated_extends {one one' : List Item → Parsed} (hone : x.Extends n one one') {eof : Nat}
    (hcovers : ComposesOne Covers eof one) {closer : Token.Kind} {rounds : Nat} {ts : List Item}
    (hts : x.Fits n ts) (hclean : x.Admits (separated one closer rounds ts).1)
    (hend : x.EndsAt closer (separated one closer rounds ts).2) :
    separated one' closer (rounds + x.more.length) (x.items ts) =
      x.parsedList (separated one closer rounds ts) := by
  induction rounds generalizing ts with
  -- No round is left for the text, but some are for what follows: the bracket stops them.
  | zero =>
    rcases hend with hmore | ⟨i, rest, hi, hkind⟩
    · rw [hmore]; rfl
    · obtain rfl : ts = i :: rest := hi
      exact separated_closer one' _ (i.shift x.offset) hkind _
  | succ rounds ih =>
    rw [Nat.succ_add]
    cases ts with
    | nil =>
      rcases hend with hmore | ⟨i, rest, hi, -⟩
      · rw [items_nil, hmore]
        exact Prod.ext rfl hmore.symm
      · cases hi
    | cons i rest =>
      by_cases hc : i.kind = closer
      · rw [items_cons, separated_closer one' _ (i.shift x.offset) hc, separated_closer one _ i hc]
        rfl
      · have hnode := hone (i :: rest) hts
        have hafter := hts.of_covers (hcovers (i :: rest))
        rcases hp : one (i :: rest) with ⟨node, after⟩
        simp only [hp, items_cons] at hnode hafter
        simp only [separated, hc, if_false, hp] at hclean hend
        simp only [items_cons, separated, Item.kind_shift, hc, if_false, hp]
        cases after with
        | nil =>
          have hmore : x.more = [] := hend.ne_nil.resolve_right fun hne => hne rfl
          rw [hnode hclean]
          simp only [parsed, parsedList, items_nil, hmore]
          rfl
        | cons j next =>
          by_cases hj : j.kind = .mark .comma
          · simp only [hj, if_true] at hclean hend ⊢
            obtain ⟨hfirst, hrest⟩ := Admits.cons_iff.mp hclean
            have hnext := hafter.rest
            rw [hnode hfirst]
            simp only [parsed, items_cons, Item.kind_shift, hj, if_true,
              ih hnext (Admits.cons_iff.mp hrest).2 hend]
            rfl
          · simp only [hj, if_false] at hclean hend ⊢
            rw [hnode hclean]
            simp only [parsed, items_cons, Item.kind_shift, hj, if_false]
            rfl

theorem terms_extends {one one' : List Item → Parsed} (hone : x.Extends n one one') {eof : Nat}
    (hcovers : ComposesOne Covers eof one) {rounds : Nat} {ts : List Item}
    (hrounds : ts.length < rounds)
    (hts : x.Fits n ts) (hclean : x.Admits (terms one rounds ts).1) :
    terms one' (rounds + x.more.length) (x.items ts) = x.parsedList (terms one rounds ts) := by
  induction rounds generalizing ts with
  | zero => exact absurd hrounds (Nat.not_lt_zero _)
  | succ rounds ih =>
    have hnode := hone ts hts
    have hlength := (hcovers ts).length_le
    have hafter := hts.of_covers (hcovers ts)
    rcases hp : one ts with ⟨node, after⟩
    simp only [hp] at hnode hlength hafter
    simp only [terms, hp] at hclean
    simp only [Nat.succ_add, terms, hp]
    cases after with
    | nil =>
      rw [hnode hclean]
      rcases x.more_cases with hmore | ⟨i, rest, hmore, -, hi⟩
      · simp only [parsed, parsedList, items_nil, hmore]
        rfl
      -- What follows the text is no comma.
      · simp only [parsed, parsedList, items_nil, hmore, beginsDeclaration_ne_mark hi, if_false]
        rfl
    | cons j next =>
      by_cases hj : j.kind = .mark .comma
      · simp only [hj, if_true] at hclean ⊢
        obtain ⟨hfirst, hrest⟩ := Admits.cons_iff.mp hclean
        have hnext := hafter.rest
        rw [List.length_cons] at hlength
        rw [hnode hfirst]
        simp only [parsed, items_cons, Item.kind_shift, hj, if_true,
          ih (by omega) hnext (Admits.cons_iff.mp hrest).2]
        rfl
      · simp only [hj, if_false] at hclean ⊢
        rw [hnode hclean]
        simp only [parsed, items_cons, Item.kind_shift, hj, if_false]
        rfl

theorem member_extends {s : Scope} {rest : List Item} (h : x.Admits [(member s rest).1]) :
    member (x.scope s) (x.items rest) = x.parsed (member s rest) := by
  cases rest with
  | nil => exact extends_nil (member s) rfl rfl h
  | cons j next =>
    by_cases hj : (j.kind.isName && !j.newline) = true
    · simp only [items_cons, member, Item.kind_shift, Item.newline_shift, hj, if_true]
      rfl
    · simp only [member, hj] at h
      simp only [items_cons, member, Item.kind_shift, Item.newline_shift, hj]
      exact Prod.ext (missing_extends h) rfl

section

variable {expr expr' : ExprParser} (hexpr : x.ExtendsExpr n expr expr')
include hexpr

theorem arguments_extends (hcovers : ComposesExpr Covers expr) (s : Scope) (opener : Item)
    {rest : List Item} (hrest : x.Fits n rest)
    (hclean : x.Admits [(arguments expr s opener rest).1]) :
    arguments expr' (x.scope s) (opener.shift x.offset) (x.items rest) =
      x.parsed (arguments expr s opener rest) := by
  simp only [arguments] at hclean
  obtain ⟨hargs, hcloser⟩ := Admits.append_iff.mp (Admits.cons_iff.mp hclean.children).2
  have hseparated := separated_extends (hexpr s.bracketed assignLevel)
    (hcovers s.bracketed assignLevel) hrest hargs (endsAt_of_expect hcloser)
  simp only [arguments, bracketed_scope, length_items, hseparated, parsedList,
    expect_extends hcloser, parsed, tree_enclose, List.map_append]
  rfl

theorem index_extends (s : Scope) (opener : Item) {rest : List Item} (hrest : x.Fits n rest)
    (hclean : x.Admits (index expr s opener rest).1) :
    index expr' (x.scope s) (opener.shift x.offset) (x.items rest) =
      x.parsedList (index expr s opener rest) := by
  simp only [index] at hclean
  obtain ⟨hvalue, hcloser⟩ := Admits.cons_iff.mp (Admits.cons_iff.mp hclean).2
  simp only [index, bracketed_scope, hexpr _ _ _ hrest hvalue, expect_extends hcloser, parsed]
  rfl

theorem part_extends (hcovers : ComposesExpr Covers expr) {s : Scope} {i : Item} {rest : List Item}
    (hrest : x.Fits n rest) (hclean : ∀ q ∈ part expr s i rest, x.Admits q.2.1) :
    part expr' (x.scope s) (i.shift x.offset) (x.items rest) =
      (part expr s i rest).map fun q => (q.1, x.parsedList q.2) := by
  by_cases hstops : s.stops i = true
  · have hstops' : (x.scope s).stops (i.shift x.offset) = true := hstops
    rw [part, part, if_pos hstops, if_pos hstops']
    rfl
  simp only [part, stops_scope, Item.kind_shift, if_neg hstops] at hclean ⊢
  by_cases hdot : i.kind = .mark .dot
  · simp only [if_pos hdot] at hclean ⊢
    have hname := (Admits.cons_iff.mp (hclean _ rfl)).2
    simp only [member_extends hname, parsed]
    rfl
  simp only [if_neg hdot] at hclean ⊢
  by_cases hbracket : i.kind = .mark .lbracket
  · simp only [if_pos hbracket] at hclean ⊢
    simp only [index_extends hexpr s i hrest (hclean _ rfl)]
    rfl
  simp only [if_neg hbracket] at hclean ⊢
  by_cases hparen : i.kind = .mark .lparen
  · simp only [if_pos hparen] at hclean ⊢
    simp only [arguments_extends hexpr hcovers s i hrest (hclean _ rfl), parsed]
    rfl
  · rw [if_neg hparen, if_neg hparen]
    rfl

end

/-- What follows the text does not go on with an operand. -/
theorem references_more (expr : ExprParser) (s : Scope) (rounds : Nat) (base : Tree) :
    references expr s rounds base x.more = (base, x.more) := by
  rcases x.more_cases with hmore | ⟨i, rest, hmore, -, hi⟩
  · rw [hmore, references_nil]
  · rw [hmore]
    refine references_none ?_ rounds base
    rw [part, if_neg (beginsDeclaration_ne_mark hi _), if_neg (beginsDeclaration_ne_mark hi _),
      if_neg (beginsDeclaration_ne_mark hi _), ite_self]

theorem references_admits {expr : ExprParser} {s : Scope} {rounds : Nat} {base : Tree}
    {ts : List Item} (h : x.Admits [(references expr s rounds base ts).1]) : x.Admits [base] :=
  h.imp_right fun hclean => Tree.cleanAll_cons.mpr
    ⟨clean_of_references (Tree.cleanAll_cons.mp hclean).1, rfl⟩

theorem references_extends {expr expr' : ExprParser} (hexpr : x.ExtendsExpr n expr expr')
    (hcovers : ComposesExpr Covers expr) (s : Scope) {rounds : Nat} {base : Tree} {ts : List Item}
    (hrounds : ts.length ≤ rounds) (hts : x.Fits (n + 1) ts)
    (hclean : x.Admits [(references expr s rounds base ts).1]) :
    references expr' (x.scope s) (rounds + x.more.length) (x.tree base) (x.items ts) =
      x.parsed (references expr s rounds base ts) := by
  induction rounds generalizing base ts with
  | zero =>
    obtain rfl := List.eq_nil_of_length_eq_zero (Nat.le_zero.mp hrounds)
    exact references_more expr' (x.scope s) _ (x.tree base)
  | succ rounds ih =>
    cases ts with
    | nil => exact references_more expr' (x.scope s) _ (x.tree base)
    | cons i rest =>
      have hpart' := part_extends hexpr hcovers (s := s) (i := i) hts.tail
      rcases hpart : part expr s i rest with _ | q
      · rw [hpart] at hpart'
        rw [references_none hpart, items_cons, references_none (hpart' (by rintro _ ⟨⟩))]
        rfl
      · rw [hpart] at hpart'
        rw [references_some hpart] at hclean ⊢
        -- The node of this round is part of the result, so it has no error either.
        have hparts := (Admits.cons_iff.mp (references_admits hclean).children).2
        have hafter := part_composes hcovers hpart
        have hlength := Nat.le_trans (part_length hcovers hpart) (Nat.le_of_succ_le_succ hrounds)
        rw [items_cons, Nat.succ_add, references_some (hpart' (by rintro _ ⟨⟩; exact hparts)),
          ← ih hlength (hts.of_covers hafter) hclean, tree_enclose]
        rfl

theorem unaryWith_extends {operand operand' : List Item → Parsed}
    (hoperand : x.Extends n operand operand') (s : Scope) :
    x.Extends n (unaryWith operand s) (unaryWith operand' (x.scope s)) := by
  intro ts hts hclean
  induction ts with
  | nil =>
    -- No sign follows the text.
    have hmore : unaryWith operand' (x.scope s) x.more = operand' x.more := by
      rcases x.more_cases with hmore | ⟨i, rest, hmore, -, hi⟩
      · rw [hmore, unaryWith]
      · rw [hmore, unaryWith, if_neg]
        rw [Bool.and_eq_true, Bool.or_eq_true, decide_eq_true_eq, beq_iff_eq]
        rintro ⟨h | h, -⟩ <;> rw [h] at hi <;> cases hi
    exact hmore.trans (hoperand [] hts hclean)
  | cons i rest ih =>
    simp only [unaryWith, items_cons, stops_scope, Item.kind_shift] at hclean ⊢
    split
    case isTrue hi =>
      rw [if_pos hi] at hclean
      have hnode := (Admits.cons_iff.mp hclean.children).2
      rw [ih hts.rest hnode]
      simp only [parsed, tree_enclose]
      rfl
    case isFalse hi =>
      rw [if_neg hi] at hclean
      exact hoperand (i :: rest) hts hclean

/-- What follows the text is no operator. -/
theorem binaryTail_more (expr : ExprParser) (s : Scope) (level rounds : Nat) (left : Tree) :
    binaryTail expr s level rounds left x.more = (left, x.more) := by
  cases rounds with
  | zero => rfl
  | succ rounds =>
    rcases x.more_cases with hmore | ⟨i, rest, hmore, -, hi⟩
    · rw [hmore]
      rfl
    · rw [hmore, binaryTail, binding?_of_beginsDeclaration hi]

theorem binaryTail_admits {expr : ExprParser} {s : Scope} {level rounds : Nat} {left : Tree}
    {ts : List Item} (h : x.Admits [(binaryTail expr s level rounds left ts).1]) :
    x.Admits [left] :=
  h.imp_right fun hclean => Tree.cleanAll_cons.mpr
    ⟨clean_of_binaryTail (Tree.cleanAll_cons.mp hclean).1, rfl⟩

theorem binaryTail_extends {expr expr' : ExprParser} (hexpr : x.ExtendsExpr n expr expr')
    (hcovers : ComposesExpr Covers expr) (s : Scope) (level : Nat) {rounds : Nat} {left : Tree}
    {ts : List Item} (hrounds : ts.length ≤ rounds) (hts : x.Fits (n + 1) ts)
    (hclean : x.Admits [(binaryTail expr s level rounds left ts).1]) :
    binaryTail expr' (x.scope s) level (rounds + x.more.length) (x.tree left) (x.items ts) =
      x.parsed (binaryTail expr s level rounds left ts) := by
  induction rounds generalizing left ts with
  | zero =>
    obtain rfl := List.eq_nil_of_length_eq_zero (Nat.le_zero.mp hrounds)
    exact binaryTail_more expr' (x.scope s) level _ (x.tree left)
  | succ rounds ih =>
    cases ts with
    | nil => exact binaryTail_more expr' (x.scope s) level _ (x.tree left)
    | cons i rest =>
      have hrest := hts.tail
      simp only [binaryTail, items_cons, Nat.succ_add, stops_scope, bars_scope,
        Item.kind_shift] at hclean ⊢
      split
      · rfl
      case h_2 b hb =>
        rw [hb] at hclean
        split
        · rfl
        case isFalse hstop =>
          simp only [if_neg hstop] at hclean
          have hparts := (binaryTail_admits hclean).children
          have hnode := (Admits.cons_iff.mp (Admits.cons_iff.mp hparts).2).2
          have hcovered := hcovers s (b.level + 1) rest
          have hlength := Nat.le_trans hcovered.length_le (Nat.le_of_succ_le_succ hrounds)
          have hafter := (hrest.of_covers hcovered).mono (Nat.le_succ n)
          rw [← ih hlength hafter hclean, hexpr s (b.level + 1) rest hrest hnode, tree_enclose]
          rfl

end Extension

end PolicyEditor.Grammar
