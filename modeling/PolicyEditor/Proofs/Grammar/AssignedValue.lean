import PolicyEditor.Proofs.Grammar.RuleBody
import PolicyEditor.Proofs.Grammar.SingleLine
import PolicyEditor.Proofs.Grammar.TriviaIndependence

/-!
An expression as the value of a rule. A text on one line that is an expression of its own, and no
assignment, is the same expression behind a name and `:=`, five characters further to the right.
-/

namespace PolicyEditor.Grammar

open PolicyEditor.Tree (cleanAll)
open PolicyEditor.Token (scan scanFrom)
open Recast (lone parseExpressionChars_eq)

def assigned (text : String) : String :=
  "x := " ++ text

def valueRule (value : Tree) : Tree :=
  .node .rule 0 (5 + value.stop)
    [.node .ruleHead 0 1 [.leaf .identifier ⟨.identifier, ['x'], 0⟩],
      .leaf .operator ⟨.operator .assign, [':', '='], 2⟩, value.shift 5]

/-! ### Items -/

def nameItem : Item :=
  ⟨⟨.identifier, ['x'], 0⟩, true, true⟩

def signItem : Item :=
  ⟨⟨.operator .assign, [':', '='], 2⟩, false, false⟩

def valueItems (text : List Char) : List Item :=
  itemsAfter (some (.operator .assign)) false (scan text)

theorem items_assigned (text : String) : items (scan (assigned text).toList) =
    nameItem :: signItem :: (valueItems text.toList).map (Item.shift 5) := by
  have hopening : "x := ".toList = ['x', ' ', ':', '=', ' '] := by decide +kernel
  have hscan : scan (assigned text).toList = [⟨.identifier, ['x'], 0⟩, ⟨.whitespace, [' '], 1⟩,
      ⟨.operator .assign, [':', '='], 2⟩] ++ scanFrom 0 4 ([' '] ++ text.toList) := by
    rw [assigned, String.toList_append, hopening]
    rfl
  have hblank : ∀ c ∈ [' '], Text.isBlank c = true := List.forall_mem_singleton.mpr rfl
  have hskip := itemsAfter_blanks (some (.operator .assign)) false 4 hblank text.toList
  have hmoved : scanFrom 0 5 text.toList = (scan text.toList).map (Token.shift 5) :=
    Token.scanFrom_shift 5 0 0 text.toList
  rw [show 4 + [' '].length = 5 from rfl, hmoved, itemsAfter_shift] at hskip
  rw [hscan]
  exact congrArg (_ :: _ :: ·) hskip

theorem lineless_valueItems (text : List Char) :
    lineless (valueItems text) = lineless (items (scan text)) :=
  lineless_itemsAfter _ _ _ _ _

theorem length_valueItems (text : List Char) :
    (valueItems text).length = (items (scan text)).length := by
  rw [← length_lineless, lineless_valueItems, length_lineless]

theorem flowing_itemsAfter (last : Option Token.Kind) {ts : List Token}
    (h : ∀ t ∈ ts, '\n' ∉ t.chars) : Flowing (itemsAfter last false ts) := by
  induction ts generalizing last with
  | nil => exact List.forall_mem_nil _
  | cons t ts ih =>
    obtain ⟨ht, hts⟩ := List.forall_mem_cons.mp h
    by_cases htrivia : t.isTrivia = true
    · have hnone : t.chars.contains '\n' = false := by simpa using ht
      rw [itemsAfter_trivia htrivia, Bool.false_or, hnone]
      exact ih last hts
    · rw [itemsAfter_token (Bool.eq_false_iff.mpr htrivia)]
      exact List.forall_mem_cons.mpr ⟨rfl, ih (some t.kind) hts⟩

theorem flowing_valueItems {text : List Char} (h : '\n' ∉ text) : Flowing (valueItems text) :=
  flowing_itemsAfter _ fun _ ht hc =>
    h ((Token.scanFrom_splits 0 text).mem_of_mem_chars ht hc)

/-! ### The value -/

def alone (length : Nat) : Scope :=
  { lines := false, bars := false, eof := length }

/-- Without an item there is no expression. -/
theorem unclean_expr_nil (n : Nat) (s : Scope) (level : Nat) :
    ((Rules.upTo n).expr s level []).1.clean = false := by
  cases n <;> rfl

/-- Behind a sign only the first item differs, for the line break that every text begins with does
not stand before it; that changes nothing in an expression without an error. -/
theorem expr_alone {text : List Char} {n : Nat} {value : Tree} (hclean : value.clean = true)
    (hvalue : (Rules.upTo (n + 1)).expr (alone text.length) assignLevel (items (scan text)) =
      (value, [])) :
    (Rules.upTo (n + 1)).expr (alone text.length) assignLevel (valueItems text) = (value, []) := by
  have hsame := lineless_valueItems text
  cases hitems : items (scan text) with
  | nil =>
    have hnone := unclean_expr_nil (n + 1) (alone text.length) assignLevel
    rw [← hitems, hvalue, hclean] at hnone
    cases hnone
  | cons i rest =>
    rw [hitems] at hvalue hsame
    obtain ⟨j, hitems', htoken⟩ := lineless_eq_cons hsame
    rw [hitems', ← hvalue]
    apply Rules.expression_lineless htoken rfl
    show ((Rules.upTo (n + 1)).expr (alone text.length) assignLevel (i :: rest)).1.clean = true
    rw [hvalue]
    exact hclean

/-- What is an expression of its own and no assignment is the same behind the sign of a rule. -/
theorem expr_valueItems {text : List Char} (hline : '\n' ∉ text) {n : Nat} {value : Tree}
    (hlength : (items (scan text)).length < n + 1)
    (hvalue : (Rules.upTo (n + 1)).expr (alone text.length) assignLevel (items (scan text)) =
      (value, []))
    (hclean : value.clean = true) (hne : value.kind ≠ .assignExpression) (m : Nat) :
    (Rules.upTo (n + 1 + m)).expr (outermost (5 + text.length)) setOpLevel
      ((valueItems text).map (Item.shift 5)) = (value.shift 5, []) := by
  -- From the text on its own to the rule: behind the sign, one level up, in a statement, moved.
  have halone := expr_alone hclean hvalue
  have hlength' : (valueItems text).length < n + 1 := by
    rwa [length_valueItems]
  have hterm : (Rules.upTo (n + 1)).expr (alone text.length) setOpLevel (valueItems text) =
      (value, []) := by
    rw [Rules.expr_term (n + 1) _ hlength' (by rwa [halone]), halone]
  have hlines : (Rules.upTo (n + 1)).expr (outermost text.length) setOpLevel (valueItems text) =
      (value, []) :=
    (Rules.upTo_lineFree (n + 1) (alone text.length) true setOpLevel _
      (flowing_valueItems hline)).trans hterm
  let x : Extension := ⟨5, [], 0, nofun, fun _ => rfl⟩
  have hmoved := (Rules.upTo_agrees x (n + 1) m).expr (outermost text.length) setOpLevel
    (valueItems text) ⟨hlength', .inl rfl⟩ (.inl rfl)
  rw [hlines, x.items_of_nothing rfl] at hmoved
  exact hmoved

/-! ### The rule -/

def readRule (length : Nat) (value : Tree) : Tree :=
  .enclose .rule length [.enclose .ruleHead 2 [nameItem.leaf], signItem.leaf, value]

theorem script_of_value {length : Nat} {rest : List Item} {value : Tree}
    (hvalue : (Rules.upTo (rest.length + 3)).expr (outermost length) setOpLevel rest =
      (value, [])) :
    script length (nameItem :: signItem :: rest) = [readRule length value] := by
  have hhead : ∀ r : Rules, r.head (outermost length) (nameItem :: signItem :: rest) =
      (.enclose .ruleHead 2 [nameItem.leaf], signItem :: rest) := fun r =>
    Rules.head_of_name (outermost length) rest rfl (by decide) (by decide) (by decide)
  have htail : (Rules.upTo (rest.length + 3)).tail (outermost length) (signItem :: rest) =
      ([signItem.leaf, value], []) := by
    simp only [Rules.tail, hvalue]
    rfl
  have hrule : (Rules.upTo (rest.length + 3)).declaration (outermost length) nameItem
      (signItem :: rest) = (readRule length value, []) := by
    rw [Rules.declaration, show nameItem.kind = .identifier from rfl]
    show (Rules.upTo (rest.length + 3)).ruleAfter (outermost length) [] (nameItem :: _) = _
    simp only [Rules.ruleAfter, hhead, htail]
    rfl
  simp only [script, List.length_cons, Rules.declarations, hrule]

theorem clean_readRule (length : Nat) {value : Tree} (hvalue : value.clean = true) :
    (readRule length value).clean = true := by
  simp only [readRule, Tree.clean_enclose, cleanAll, hvalue]
  rfl

theorem bare_readRule (length : Nat) {value : Tree} (hvalue : value.isTrivia = false) :
    (readRule length (value.shift 5)).bare = valueRule value.bare := by
  have hshown : (value.shift 5).isTrivia = false := by
    rwa [Tree.isTrivia, Tree.kind_shift]
  have hstop : value.bare.stop = value.stop := by
    cases value <;> rfl
  rw [valueRule, hstop, ← Tree.bare_shift, ← Tree.stop_shift]
  show Tree.node .rule 0 _ (Tree.bareList [_, _, _]) = _
  rw [Tree.bareList_cons rfl, Tree.bareList_cons rfl, Tree.bareList_cons hshown]
  rfl

/-! ### Whole texts -/

/-- The items of a text on its own make one expression and leave none, if there is no error. -/
theorem expr_of_lone {length : Nat} {ts : List Item} (h : cleanAll (lone length ts) = true) :
    ∃ value, (Rules.upTo (ts.length + 1)).expr (alone length) assignLevel ts = (value, []) ∧
      value.clean = true ∧ value.isTrivia = false ∧ lone length ts = [value] := by
  have hshown := ((Rules.upTo_shapes (ts.length + 1)).expr (alone length) assignLevel ts).shown
  rcases hexpr : (Rules.upTo (ts.length + 1)).expr (alone length) assignLevel ts with ⟨value, after⟩
  have hlone : lone length ts = value :: after.map fun i => misplaced (alone length) [i] := by
    rw [alone] at hexpr
    simp only [lone, hexpr]
    rfl
  rw [hexpr] at hshown
  rw [hlone] at h ⊢
  obtain ⟨hvalue, hafter⟩ := Tree.cleanAll_cons.mp h
  cases after with
  | nil => exact ⟨value, rfl, hvalue, hshown, rfl⟩
  | cons i rest => cases hafter

theorem lone_of_clean {source : String} (h : (parseExpression source).ofKind .error = []) :
    cleanAll (lone source.length (items (scan source.toList))) = true := by
  rw [← String.length_toList, ← Tree.clean_dressScript source.toList.length]
  exact (Tree.ofKind_error_eq_nil_iff _).mp h

theorem significant_parseExpression (source : String) :
    (parseExpression source).significant.map Tree.bare =
      Tree.bareList (lone source.length (items (scan source.toList))) := by
  rw [← Tree.children_bare, parseExpression, parseExpressionChars_eq,
    Tree.bare_dressScript _ fun t ht => (List.mem_filter.mp ht).2, String.length_toList]
  rfl

/-- What is an expression of its own on one line, and no assignment, is the value of a rule that
begins with a name and `:=`: nothing in it changes but its place. -/
theorem parse_assigned {source : String} (hline : '\n' ∉ source.toList)
    (hclean : (parseExpression source).ofKind .error = [])
    (hvalue : ∀ c ∈ (parseExpression source).significant, c.kind ≠ .assignExpression) :
    ∃ value, (parseExpression source).significant.map Tree.bare = [value] ∧
      (parse (assigned source)).ofKind .error = [] ∧
      (parse (assigned source)).bare =
        .node .script 0 (5 + source.length) [valueRule value] := by
  obtain ⟨value, hexpr, hvalueClean, hshown, hlone⟩ := expr_of_lone (lone_of_clean hclean)
  have hsignificant := significant_parseExpression source
  rw [hlone, Tree.bareList_cons hshown] at hsignificant
  refine ⟨value.bare, hsignificant, ?_⟩
  have hne : value.kind ≠ .assignExpression := by
    obtain ⟨c, hc, hbare⟩ := List.mem_map.mp (hsignificant ▸ List.mem_singleton_self value.bare)
    rw [← Tree.kind_bare, ← hbare, Tree.kind_bare]
    exact hvalue c hc
  have hlength : (assigned source).toList.length = 5 + source.length := by
    rw [assigned, String.toList_append, List.length_append, String.length_toList]
    rfl
  have hscript : script (5 + source.length) (items (scan (assigned source).toList)) =
      [readRule (5 + source.length) (value.shift 5)] := by
    rw [items_assigned]
    apply script_of_value
    rw [List.length_map, length_valueItems]
    rw [← String.length_toList] at hexpr ⊢
    exact expr_valueItems hline (Nat.lt_succ_self _) hexpr hvalueClean hne 2
  have htree : parse (assigned source) = Tree.dressScript (5 + source.length)
      ((scan (assigned source).toList).filter Token.isTrivia)
      [readRule (5 + source.length) (value.shift 5)] := by
    rw [parse, parseChars_eq, hlength, hscript]
  constructor
  · rw [Tree.ofKind_error_eq_nil_iff, htree, Tree.clean_dressScript]
    have hmoved : (value.shift 5).clean = true := (Tree.clean_shift 5 value).trans hvalueClean
    exact Tree.cleanAll_cons.mpr ⟨clean_readRule _ hmoved, rfl⟩
  · rw [htree, Tree.bare_dressScript _ fun t ht => (List.mem_filter.mp ht).2,
      Tree.bareList_cons rfl, bare_readRule _ hshown]
    rfl

def listedNames : String :=
  "[a.b |a := input.xs[_]; not a.c] # all"

theorem parse_assigned_listedNames :
    '\n' ∉ listedNames.toList ∧ (parseExpression listedNames).ofKind .error = [] ∧
      (∀ c ∈ (parseExpression listedNames).significant, c.kind ≠ .assignExpression) ∧
      ∃ value, (parseExpression listedNames).significant.map Tree.bare = [value] ∧
        (parse (assigned listedNames)).ofKind .error = [] ∧
        (parse (assigned listedNames)).bare =
          .node .script 0 (5 + listedNames.length) [valueRule value] :=
  have hline : '\n' ∉ listedNames.toList := by decide +kernel
  have hclean : (parseExpression listedNames).ofKind .error = [] := by decide +kernel
  have hvalue : ∀ c ∈ (parseExpression listedNames).significant, c.kind ≠ .assignExpression := by
    decide +kernel
  ⟨hline, hclean, hvalue, parse_assigned hline hclean hvalue⟩

end PolicyEditor.Grammar
