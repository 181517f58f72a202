import PolicyEditor.Proofs.Grammar.ExpressionExtension

/-!
Declarations in a longer text. A declaration that is read without error ends before the next line
that begins one, so what follows a text adds its own declarations to those of the text.
-/

namespace PolicyEditor.Grammar

open PolicyEditor.Tree (cleanAll)

/-- All that remains is a dot that goes on with a line: a name may follow it on the next one. -/
def Dangling (ts : List Item) : Prop :=
  ∃ d, ts = [d] ∧ d.kind = .mark .dot ∧ d.newline = false

namespace Extension

/-- If something follows the text, then what remains does not wait for it. -/
def Done (x : Extension) (ts : List Item) : Prop :=
  x.more = [] ∨ ¬ Dangling ts

theorem Done.of_kept {x : Extension} {ts rest : List Item} (h : x.Done rest)
    (hkept : Dangling ts → rest = ts) : x.Done ts :=
  h.imp_right fun hrest hts => hrest (hkept hts ▸ hts)

end Extension

namespace Rules

open Extension

variable {x : Extension} {n : Nat} {r r' : Rules}

/-! ### What follows the text is left alone -/

section

variable (r) (s : Scope)

theorem pathTail_more (rounds : Nat) : r.pathTail s rounds x.more = ([], x.more) := by
  cases rounds with
  | zero => rfl
  | succ rounds =>
    rcases x.more_cases with hmore | ⟨i, rest, hmore, hi, -⟩
    · rw [hmore]
      rfl
    · rw [hmore]
      simp only [pathTail, hi, if_true]

theorem alias?_more : alias? s x.more = ([], x.more) := by
  rcases x.more_cases with hmore | ⟨i, rest, hmore, hi, -⟩
  · rw [hmore]
    rfl
  · rw [hmore, alias?, if_neg (by simp [hi])]

theorem body?_more : r.body? s x.more = ([], x.more) := by
  rcases x.more_cases with hmore | ⟨i, rest, hmore, -, hi⟩
  · rw [hmore]
    rfl
  · rw [hmore, body?, if_neg, if_neg (beginsDeclaration_ne_mark hi _)]
    intro hkind
    rw [hkind] at hi
    cases hi

theorem bodyOnLine?_more : r.bodyOnLine? s x.more = ([], x.more) := by
  rcases x.more_cases with hmore | ⟨i, rest, hmore, hi, -⟩
  · rw [hmore]
    rfl
  · rw [hmore, bodyOnLine?, if_pos hi]

theorem tail_more : r.tail s x.more = ([], x.more) := by
  rcases x.more_cases with hmore | ⟨i, rest, hmore, hi, -⟩
  · rw [hmore]
    rfl
  · rw [hmore, tail, if_pos hi]

theorem value?_more : r.value? s x.more = ([], x.more) := by
  rcases x.more_cases with hmore | ⟨i, rest, hmore, -, hi⟩
  · rw [hmore]
    rfl
  · rw [hmore, value?, if_neg]
    rw [givesValue, Bool.or_eq_true, beq_iff_eq, beq_iff_eq]
    rintro (hkind | hkind) <;> rw [hkind] at hi <;> cases hi

theorem alternatives_more (rounds : Nat) : r.alternatives s rounds x.more = ([], x.more) := by
  cases rounds with
  | zero => rfl
  | succ rounds =>
    rcases x.more_cases with hmore | ⟨i, rest, hmore, -, hi⟩
    · rw [hmore]
      rfl
    · rw [hmore, alternatives, if_neg]
      intro hkind
      rw [hkind] at hi
      cases hi

end

/-! ### The pieces of a declaration -/

theorem parameters_kept {s : Scope} {ts : List Item} (h : Dangling ts) :
    (parameters r s ts).2 = ts := by
  obtain ⟨d, rfl, hkind, -⟩ := h
  rw [parameters, if_neg (by simp [hkind])]

theorem alias?_kept {s : Scope} {ts : List Item} (h : Dangling ts) : (alias? s ts).2 = ts := by
  obtain ⟨d, rfl, hkind, -⟩ := h
  rw [alias?, if_neg (by simp [hkind])]

theorem tail_kept {s : Scope} {ts : List Item} (h : Dangling ts) : (r.tail s ts).2 = ts := by
  obtain ⟨d, rfl, hkind, hline⟩ := h
  rw [tail, if_neg (by simp [hline]), if_neg (by simp [hkind, givesValue]), body?,
    if_neg (by simp [hkind]), if_neg (by simp [hkind])]

theorem alternatives_kept {s : Scope} {rounds : Nat} {ts : List Item} (h : Dangling ts) :
    (r.alternatives s rounds ts).2 = ts := by
  obtain ⟨d, rfl, hkind, -⟩ := h
  cases rounds with
  | zero => rfl
  | succ rounds => rw [alternatives, if_neg (by simp [hkind])]

section

variable (h : x.Agrees n r r') (hr : r.Composed Covers)
include h hr

theorem pathTail_extends (s : Scope) {rounds : Nat} {ts : List Item} (hrounds : ts.length ≤ rounds)
    (hts : x.Fits n ts) (hclean : x.Admits (r.pathTail s rounds ts).1)
    (hdone : x.Done (r.pathTail s rounds ts).2) :
    r'.pathTail (x.scope s) (rounds + x.more.length) (x.items ts) =
      x.parsedList (r.pathTail s rounds ts) := by
  induction rounds generalizing ts with
  | zero =>
    obtain rfl := List.eq_nil_of_length_eq_zero (Nat.le_zero.mp hrounds)
    exact pathTail_more r' (x.scope s) _
  | succ rounds ih =>
    cases ts with
    | nil => exact pathTail_more r' (x.scope s) _
    | cons i rest =>
      have hrest := hts.rest
      revert hclean hdone
      simp only [pathTail, items_cons, Nat.succ_add, Item.newline_shift, Item.kind_shift]
      split
      · exact fun _ _ => rfl
      split
      case isTrue hline hi =>
        cases rest with
        -- A dot at the very end would take its name from the next line.
        | nil =>
          intro _ hdone
          have hmore : x.more = [] := hdone.resolve_right fun hdangling =>
            hdangling ⟨i, rfl, hi, Bool.not_eq_true _ ▸ hline⟩
          rw [items_nil, hmore]
          exact Prod.ext rfl (congrArg (_ :: ·) hmore.symm)
        | cons j next =>
          simp only [items_cons, Item.kind_shift]
          split
          · intro hclean hdone
            have hmore := (Admits.cons_iff.mp (Admits.cons_iff.mp hclean).2).2
            have hlength : next.length ≤ rounds := by
              simp only [List.length_cons] at hrounds
              omega
            simp only [ih hlength hrest.rest hmore hdone]
            rfl
          · exact fun _ _ => rfl
      split
      · intro hclean hdone
        obtain ⟨hindex, hmore⟩ := Admits.append_iff.mp hclean
        have hcovered := index_composes hr.expr s i rest
        have hvalue := hr.expr s.bracketed assignLevel rest
        have hcloser := expect_composes (C := Covers) (.mark .rbracket) s
          (r.expr s.bracketed assignLevel rest).2
        have hlength : (index r.expr s i rest).2.length ≤ rounds :=
          Nat.le_trans (Nat.le_trans hcloser.length_le hvalue.length_le)
            (Nat.le_of_succ_le_succ hrounds)
        simp only [index_extends h.expr s i hrest hindex, parsedList,
          ih hlength (hts.of_covers hcovered) hmore hdone, List.map_append]
      · exact fun _ _ => rfl

theorem declaredPath_extends (s : Scope) {ts : List Item} (hts : x.Fits n ts)
    (hclean : x.Admits [(r.declaredPath s ts).1]) (hdone : x.Done (r.declaredPath s ts).2) :
    r'.declaredPath (x.scope s) (x.items ts) = x.parsed (r.declaredPath s ts) := by
  cases ts with
  | nil => exact extends_nil (r.declaredPath s) rfl rfl hclean
  | cons i rest =>
    revert hclean hdone
    simp only [declaredPath, items_cons, Item.newline_shift, Item.kind_shift]
    split
    · exact fun hclean _ => Prod.ext (missing_extends hclean) rfl
    · intro hclean hdone
      have htail := (Admits.cons_iff.mp hclean.children).2
      have hrest := hts.rest
      simp only [length_items, pathTail_extends h hr s (Nat.le_refl _) hrest htail hdone, parsed,
        parsedList, tree_enclose]
      rfl

omit h hr in
theorem alias?_extends (s : Scope) {ts : List Item} (hclean : x.Admits (alias? s ts).1) :
    alias? (x.scope s) (x.items ts) = x.parsedList (alias? s ts) := by
  cases ts with
  | nil => exact alias?_more (x.scope s)
  | cons i rest =>
    revert hclean
    simp only [alias?, items_cons, Item.newline_shift, Item.kind_shift]
    split
    · intro hclean
      simp only [expect_extends (Admits.cons_iff.mp hclean).2, parsed]
      rfl
    · exact fun _ => rfl

theorem ifBody_extends (s : Scope) : x.Extends n (r.ifBody s) (r'.ifBody (x.scope s)) := by
  intro ts hts hclean
  have hstatement := statement_extends h hr s.statement ts (hts.mono (Nat.le_succ n))
  cases ts with
  | nil =>
    have hnode : x.Admits [(r.statement s.statement []).1] := Admits.children hclean
    have hmore : x.more = [] := hnode.children.nothing_follows rfl
    rw [items_nil, hmore] at hstatement ⊢
    simp only [ifBody, statement_scope, hstatement hnode, parsed, tree_enclose]
    rfl
  | cons i rest =>
    revert hclean
    simp only [ifBody, items_cons, Item.kind_shift]
    split
    · exact bracedBody_extends h s i hts.rest
    · intro hclean
      rw [items_cons] at hstatement
      simp only [statement_scope, hstatement hclean.children, parsed, tree_enclose]
      rfl

theorem body?_extends (s : Scope) {ts : List Item} (hts : x.Fits n ts)
    (hclean : x.Admits (r.body? s ts).1) :
    r'.body? (x.scope s) (x.items ts) = x.parsedList (r.body? s ts) := by
  cases ts with
  | nil => exact body?_more r' (x.scope s)
  | cons i rest =>
    have hrest := hts.rest
    revert hclean
    simp only [body?, items_cons, Item.kind_shift]
    split
    · intro hclean
      simp only [ifBody_extends h hr s rest hrest (Admits.cons_iff.mp hclean).2, parsed]
      rfl
    split
    · intro hclean
      simp only [bracedBody_extends h s i hrest hclean, parsed]
      rfl
    · exact fun _ => rfl

theorem bodyOnLine?_extends (s : Scope) {ts : List Item} (hts : x.Fits n ts)
    (hclean : x.Admits (r.bodyOnLine? s ts).1) :
    r'.bodyOnLine? (x.scope s) (x.items ts) = x.parsedList (r.bodyOnLine? s ts) := by
  cases ts with
  | nil => exact bodyOnLine?_more r' (x.scope s)
  | cons i rest =>
    revert hclean
    simp only [bodyOnLine?, items_cons, Item.newline_shift]
    split
    · exact fun _ => rfl
    · exact body?_extends h hr s hts

theorem parameters_extends (s : Scope) {ts : List Item} (hts : x.Fits n ts)
    (hclean : x.Admits (parameters r s ts).1) :
    parameters r' (x.scope s) (x.items ts) = x.parsedList (parameters r s ts) := by
  cases ts with
  | nil =>
    rcases x.more_cases with hmore | ⟨i, rest, hmore, hi, -⟩
    · simp only [items_nil, parameters, parsedList, hmore]
      rfl
    · simp only [items_nil, parameters, parsedList, hmore, hi, Bool.not_true, Bool.and_false]
      rfl
  | cons i rest =>
    have hrest := hts.rest
    revert hclean
    simp only [parameters, items_cons, Item.newline_shift, Item.kind_shift]
    split
    · intro hclean
      simp only [arguments_extends h.expr hr.expr s i hrest hclean, parsed]
      rfl
    · exact fun _ => rfl

theorem tail_extends (s : Scope) {ts : List Item} (hts : x.Fits n ts)
    (hclean : x.Admits (r.tail s ts).1) :
    r'.tail (x.scope s) (x.items ts) = x.parsedList (r.tail s ts) := by
  cases ts with
  | nil => exact tail_more r' (x.scope s)
  | cons i rest =>
    have hrest := hts.rest
    have hbody := body?_extends h hr s hts
    rw [items_cons] at hbody
    revert hclean
    simp only [tail, items_cons, Item.newline_shift, Item.kind_shift]
    split
    · exact fun _ => rfl
    split
    · intro hclean
      obtain ⟨hvalue, hbody⟩ := Admits.cons_iff.mp (Admits.cons_iff.mp hclean).2
      have hafter := hrest.of_covers (hr.expr s setOpLevel rest)
      simp only [h.expr _ _ _ hrest hvalue, parsed, bodyOnLine?_extends h hr s hafter hbody,
        parsedList]
      rfl
    · exact hbody

theorem head_extends (s : Scope) {ts : List Item} (hts : x.Fits n ts)
    (hclean : x.Admits [(r.head s ts).1]) (hdone : x.Done (r.head s ts).2) :
    r'.head (x.scope s) (x.items ts) = x.parsed (r.head s ts) := by
  rw [head_eq] at hclean hdone ⊢
  rw [head_eq]
  obtain ⟨hname, hrest⟩ := Admits.cons_iff.mp hclean.children
  obtain ⟨hpath, hargs⟩ := Admits.append_iff.mp hrest
  have hafterName := hts.of_covers (expect_composes .identifier s ts)
  have hafterPath := hafterName.of_covers (pathTail_composes hr s
    (expect .identifier s ts).2.length (expect .identifier s ts).2)
  have hdonePath := hdone.of_kept parameters_kept
  simp only [expect_extends hname, parsed, length_items,
    pathTail_extends h hr s (Nat.le_refl _) hafterName hpath hdonePath, parsedList,
    parameters_extends h hr s hafterPath hargs, tree_enclose, List.map_append]
  rfl

omit hr in
theorem value?_extends (s : Scope) {ts : List Item} (hts : x.Fits n ts)
    (hclean : x.Admits (r.value? s ts).1) :
    r'.value? (x.scope s) (x.items ts) = x.parsedList (r.value? s ts) := by
  cases ts with
  | nil => exact value?_more r' (x.scope s)
  | cons i rest =>
    have hrest := hts.rest
    revert hclean
    simp only [value?, items_cons, Item.kind_shift]
    split
    · intro hclean
      simp only [h.expr _ _ _ hrest (Admits.cons_iff.mp hclean).2, parsed]
      rfl
    · exact fun _ => rfl

theorem alternative_extends (s : Scope) (word : Item) {rest : List Item} (hrest : x.Fits n rest)
    (hclean : x.Admits [(r.alternative s word rest).1]) :
    r'.alternative (x.scope s) (word.shift x.offset) (x.items rest) =
      x.parsed (r.alternative s word rest) := by
  simp only [alternative] at hclean
  obtain ⟨hvalue, hbody⟩ := Admits.append_iff.mp (Admits.cons_iff.mp hclean.children).2
  have hafter := hrest.of_covers (value?_composes hr s rest)
  simp only [alternative, value?_extends h s hrest hvalue, parsedList,
    body?_extends h hr s hafter hbody, parsed, tree_enclose, List.map_append]
  rfl

theorem alternatives_extends (s : Scope) {rounds : Nat} {ts : List Item}
    (hrounds : ts.length ≤ rounds) (hts : x.Fits n ts)
    (hclean : x.Admits (r.alternatives s rounds ts).1) :
    r'.alternatives (x.scope s) (rounds + x.more.length) (x.items ts) =
      x.parsedList (r.alternatives s rounds ts) := by
  induction rounds generalizing ts with
  | zero =>
    obtain rfl := List.eq_nil_of_length_eq_zero (Nat.le_zero.mp hrounds)
    exact alternatives_more r' (x.scope s) _
  | succ rounds ih =>
    cases ts with
    | nil => exact alternatives_more r' (x.scope s) _
    | cons i rest =>
      have hrest := hts.rest
      revert hclean
      simp only [alternatives, items_cons, Nat.succ_add, Item.kind_shift]
      split
      · intro hclean
        obtain ⟨hnode, hmore⟩ := Admits.cons_iff.mp hclean
        have hvalue := value?_composes hr s rest
        have hbody := body?_composes hr s (r.value? s rest).2
        have hafter : x.Fits n (r.alternative s i rest).2 := hrest.of_covers (hvalue.append hbody)
        have hlength : (r.alternative s i rest).2.length ≤ rounds :=
          Nat.le_trans (hvalue.append hbody).length_le (Nat.le_of_succ_le_succ hrounds)
        simp only [alternative_extends h hr s i hrest hnode, parsed, ih hlength hafter hmore,
          parsedList]
        rfl
      · exact fun _ => rfl

theorem ruleAfter_extends (s : Scope) (before : List Tree) {ts : List Item} (hts : x.Fits n ts)
    (hclean : x.Admits [(r.ruleAfter s before ts).1]) (hdone : x.Done (r.ruleAfter s before ts).2) :
    r'.ruleAfter (x.scope s) (before.map x.tree) (x.items ts) =
      x.parsed (r.ruleAfter s before ts) := by
  simp only [ruleAfter] at hclean hdone
  obtain ⟨hrule, hothers⟩ := Admits.append_iff.mp hclean.children
  obtain ⟨hhead, htail⟩ := Admits.cons_iff.mp (Admits.append_iff.mp hrule).2
  have hafterHead := hts.of_covers (head_covers hr s ts)
  have hafterTail := hafterHead.of_covers (tail_composes hr s (r.head s ts).2)
  -- Neither the tail nor the alternatives take a dot that is left over.
  have hdoneHead := (hdone.of_kept alternatives_kept).of_kept tail_kept
  simp only [ruleAfter, head_extends h hr s hts hhead hdoneHead, parsed,
    tail_extends h hr s hafterHead htail, parsedList, length_items,
    alternatives_extends h hr s (Nat.le_refl _) hafterTail hothers, tree_enclose, List.map_append,
    List.map_cons]
  cases before <;> rfl

theorem declaration_extends (s : Scope) (i : Item) {rest : List Item} (hts : x.Fits n (i :: rest))
    (hclean : x.Admits [(r.declaration s i rest).1]) (hdone : x.Done (r.declaration s i rest).2) :
    r'.declaration (x.scope s) (i.shift x.offset) (x.items rest) =
      x.parsed (r.declaration s i rest) := by
  have hrest := hts.rest
  revert hclean hdone
  simp only [declaration, Item.kind_shift]
  split
  · intro hclean hdone
    simp only [package] at hclean hdone
    have hpath := (Admits.cons_iff.mp hclean.children).2
    simp only [package, declaredPath_extends h hr s hrest hpath hdone, parsed, tree_enclose]
    rfl
  · intro hclean hdone
    simp only [importOf] at hclean hdone
    obtain ⟨hpath, hname⟩ := Admits.cons_iff.mp (Admits.cons_iff.mp hclean.children).2
    have hdonePath := hdone.of_kept alias?_kept
    simp only [importOf, declaredPath_extends h hr s hrest hpath hdonePath, parsed,
      alias?_extends s hname, parsedList, tree_enclose]
    rfl
  · exact ruleAfter_extends h hr s [i.leaf] hrest
  · exact ruleAfter_extends h hr s [] hts
  · exact fun hclean _ => restOfLine_extends hclean

omit h in
/-- Rounds beyond the number of items make no difference. -/
theorem declarations_rounds (s : Scope) {rounds : Nat} {ts : List Item} (m : Nat)
    (hrounds : ts.length ≤ rounds) :
    r.declarations s (rounds + m) ts = r.declarations s rounds ts := by
  induction rounds generalizing ts with
  | zero =>
    obtain rfl := List.eq_nil_of_length_eq_zero (Nat.le_zero.mp hrounds)
    cases m <;> rfl
  | succ rounds ih =>
    rw [Nat.succ_add]
    cases ts with
    | nil => rfl
    | cons i rest =>
      have hlength := declaration_length hr s i rest
      rcases hp : r.declaration s i rest with ⟨node, after⟩
      rw [hp] at hlength
      simp only [List.length_cons] at hrounds
      simp only [declarations, hp]
      cases after with
      | nil => rfl
      | cons j next =>
        simp only [List.length_cons] at hlength
        have hwrong : (restOfLine s [] j next).2.length ≤ next.length :=
          (List.dropWhile_suffix _).length_le
        simp only
        rw [ih (by simp only [List.length_cons]; omega), ih (by omega)]

/-- The declarations of what follows come after those of the text. -/
theorem declarations_extends (hr' : r'.Composed Covers) (s : Scope) {rounds : Nat} {ts : List Item}
    (hrounds : ts.length ≤ rounds) (hts : x.Fits n ts)
    (hclean : x.Admits (r.declarations s rounds ts)) :
    r'.declarations (x.scope s) (rounds + x.more.length) (x.items ts) =
      (r.declarations s rounds ts).map x.tree ++
        r'.declarations (x.scope s) x.more.length x.more := by
  have hmore : ∀ rounds, r'.declarations (x.scope s) (rounds + x.more.length) x.more =
      r'.declarations (x.scope s) x.more.length x.more := fun rounds => by
    rw [Nat.add_comm]
    exact declarations_rounds hr' (x.scope s) rounds (Nat.le_refl _)
  induction rounds generalizing ts with
  | zero =>
    obtain rfl := List.eq_nil_of_length_eq_zero (Nat.le_zero.mp hrounds)
    exact hmore 0
  | succ rounds ih =>
    cases ts with
    | nil => exact hmore (rounds + 1)
    | cons i rest =>
      have hnode := declaration_extends h hr s i hts
      have hlength := declaration_length hr s i rest
      have hafter := hts.of_covers (declaration_covers hr s i rest)
      rcases hp : r.declaration s i rest with ⟨node, after⟩
      rw [hp] at hnode hlength hafter
      simp only [List.length_cons] at hrounds
      simp only [declarations, hp] at hclean
      simp only [declarations, hp, items_cons, Nat.succ_add]
      cases after with
      -- The last declaration of the text: the next one is on a line of its own.
      | nil =>
        have hdone : x.Done [] := .inr (by rintro ⟨_, ⟨⟩, -⟩)
        rw [hnode hclean hdone]
        simp only [parsed, items_nil]
        rcases x.more_cases with hmore' | ⟨j, next, hmore', hj, -⟩
        · simp only [hmore']
          rfl
        · have hrest := hmore rounds
          rw [hmore'] at hrest
          simp only [hmore', hj, if_true]
          rw [hrest]
          rfl
      | cons j next =>
        simp only [List.length_cons] at hlength
        by_cases hj : j.newline = true
        · have hdone : x.Done (j :: next) := by
            refine .inr ?_
            rintro ⟨_, ⟨⟩, -, hline⟩
            rw [hj] at hline
            cases hline
          simp only [hj, if_true] at hclean ⊢
          obtain ⟨hfirst, hothers⟩ := Admits.cons_iff.mp hclean
          have hlater := ih (by simp only [List.length_cons]; omega) hafter hothers
          rw [items_cons] at hlater
          rw [hnode hfirst hdone]
          simp only [parsed, items_cons, Item.newline_shift, hj, if_true, hlater]
          rfl
        -- The rest of the line is an error, so nothing follows the text.
        · simp only [hj] at hclean ⊢
          obtain ⟨hfirst, hothers⟩ := Admits.cons_iff.mp hclean
          obtain ⟨hwrong, hothers⟩ := Admits.cons_iff.mp hothers
          have hdone : x.Done (j :: next) := .inl (hwrong.nothing_follows rfl)
          have hshort : (restOfLine s [] j next).2.length ≤ next.length :=
            (List.dropWhile_suffix _).length_le
          have hafterWrong := hafter.of_covers (restOfLine_composes s [] j next)
          rw [hnode hfirst hdone]
          simp only [parsed, items_cons, Item.newline_shift, hj, restOfLine_extends hwrong,
            ih (by omega) hafterWrong hothers]
          rfl

end

end Rules

end PolicyEditor.Grammar
