import PolicyEditor.Proofs.Grammar.Leaves
import PolicyEditor.Proofs.Grammar.ScriptExtension
import PolicyEditor.Proofs.Grammar.ScriptPairing
import PolicyEditor.Proofs.Token.Concatenation

/-!
Texts one after another. If the tree of the first one has no error node, then it has no say in what
follows it on the next line: the declarations of both are those of the first, and those of the
second moved behind it.
-/

namespace PolicyEditor.Grammar

open PolicyEditor.Token (WholeLines)
open PolicyEditor.Tree (cleanAll)

/-! ### Items -/

/-- Whether a line break stands before what follows the tokens. -/
def breakAfter (newline : Bool) : List Token → Bool
  | [] => newline
  | t :: ts => breakAfter (t.isTrivia && (newline || t.chars.contains '\n')) ts

theorem itemsAfter_append (last : Option Token.Kind) (newline : Bool) (ts us : List Token) :
    ∃ last', itemsAfter last newline (ts ++ us) =
      itemsAfter last newline ts ++ itemsAfter last' (breakAfter newline ts) us := by
  induction ts generalizing last newline with
  | nil => exact ⟨last, rfl⟩
  | cons t ts ih =>
    by_cases ht : t.isTrivia = true
    · obtain ⟨last', h⟩ := ih last (newline || t.chars.contains '\n')
      refine ⟨last', ?_⟩
      rw [List.cons_append, itemsAfter, itemsAfter, if_pos ht, if_pos ht, h, breakAfter, ht,
        Bool.true_and]
    · obtain ⟨last', h⟩ := ih (some t.kind) false
      refine ⟨last', ?_⟩
      rw [List.cons_append, itemsAfter, itemsAfter, if_neg ht, if_neg ht, h, breakAfter,
        Bool.eq_false_iff.mpr ht, Bool.false_and, List.cons_append]

theorem breakAfter_of_last {newline : Bool} {ts : List Token} (hnil : ts = [] → newline = true)
    (hlast : ∀ t ∈ ts.getLast?, t.kind = .whitespace ∧ '\n' ∈ t.chars) :
    breakAfter newline ts = true := by
  induction ts generalizing newline with
  | nil => exact hnil rfl
  | cons t ts ih =>
    cases ts with
    | nil =>
      obtain ⟨hkind, hmem⟩ := hlast t rfl
      simp only [breakAfter, Token.isTrivia, hkind, Token.Kind.isTrivia, Bool.true_and,
        List.contains_iff_mem.mpr hmem, Bool.or_true]
    | cons u ts =>
      rw [List.getLast?_cons_cons] at hlast
      exact ih (fun h => by cases h) hlast

theorem itemsAfter_shift (n : Nat) (last : Option Token.Kind) (newline : Bool) (ts : List Token) :
    itemsAfter last newline (ts.map (Token.shift n)) =
      (itemsAfter last newline ts).map (Item.shift n) := by
  induction ts generalizing last newline with
  | nil => rfl
  | cons t ts ih =>
    have htrivia : (t.shift n).isTrivia = t.isTrivia := (rfl)
    simp only [List.map_cons, itemsAfter, htrivia, ih]
    split <;> rfl

/-- What stands before a text decides at most whether the line break before its first item can end a
statement. -/
theorem settle_itemsAfter (last last' : Option Token.Kind) (newline : Bool) (ts : List Token) :
    settle (itemsAfter last newline ts) = settle (itemsAfter last' newline ts) := by
  induction ts generalizing newline with
  | nil => rfl
  | cons t ts ih =>
    simp only [itemsAfter]
    split
    · exact ih _
    · rfl

theorem newline_of_head_itemsAfter (last : Option Token.Kind) (ts : List Token) :
    ∀ i ∈ (itemsAfter last true ts).head?, i.newline = true := by
  induction ts with
  | nil => exact nofun
  | cons t ts ih =>
    simp only [itemsAfter]
    split
    · exact ih
    · rintro _ ⟨rfl⟩
      rfl

/-- The items of whole lines and a text after them. -/
theorem items_scan_append {a b : List Char} (hvalid : ∀ t ∈ Token.scan a, t.kind ≠ .invalid)
    (ha : WholeLines a) (hb : ∀ c ∈ b.head?, Text.isBlank c = false) :
    ∃ later, items (Token.scan (a ++ b)) = items (Token.scan a) ++ later ∧
      settle later = settle ((items (Token.scan b)).map (Item.shift a.length)) := by
  have hlast : ∀ t ∈ (Token.scan a).getLast?, t.kind = .whitespace ∧ '\n' ∈ t.chars :=
    (Token.scanFrom_splits 0 a).last_of_wholeLines hvalid ha
  have hraw := Token.not_opensRaw_of_valid hvalid
  obtain ⟨last, hitems⟩ := itemsAfter_append none true (Token.scan a)
    ((Token.scan b).map (Token.shift a.length))
  rw [breakAfter_of_last (fun _ => rfl) hlast] at hitems
  refine ⟨_, (congrArg items (Token.scan_append hraw ha hb)).trans hitems, ?_⟩
  rw [settle_itemsAfter last none, items, itemsAfter_shift]

/-! ### Declarations -/

def outermost (eof : Nat) : Scope :=
  { lines := true, bars := false, eof := eof }

def script (length : Nat) (ts : List Item) : List Tree :=
  (Rules.upTo (ts.length + 1)).declarations (outermost length) ts.length ts

theorem script_covers (length : Nat) (ts : List Item) : Covers length ts (script length ts) [] :=
  Rules.declarations_cover (Rules.upTo_compose (ts.length + 1)) (outermost length) (Nat.le_refl _)

theorem parseChars_eq (source : List Char) :
    parseChars source = Tree.dressScript source.length ((Token.scan source).filter Token.isTrivia)
      (script source.length (items (Token.scan source))) := rfl

theorem tokens_script (length : Nat) (ts : List Item) :
    Tree.tokens (script length ts) = ts.map Item.token := by
  have htokens := Tree.Reads.tokens_append_rest (script_covers length ts)
  rwa [List.map_nil, List.append_nil] at htokens

theorem script_paired {length : Nat} {ts : List Item} (h : cleanAll (script length ts) = true) :
    Paired (script length ts) :=
  Rules.declarations_paired (Rules.upTo_pairs (ts.length + 1)) (outermost length) ts.length ts h

/-- The brackets that open in a text without error all close. -/
theorem closed_of_clean {length : Nat} {ts : List Item} (h : cleanAll (script length ts) = true) :
    Closed ts :=
  ⟨ts, (script_paired h).balanced ts (tokens_script length ts).symm, List.suffix_refl _⟩

/-- A text without error has no invalid token. -/
theorem valid_of_clean {source : List Char} (h : (parseChars source).clean = true) :
    ∀ t ∈ Token.scan source, t.kind ≠ .invalid := by
  intro t ht
  by_cases htrivia : t.isTrivia = true
  · intro hk
    rw [Token.isTrivia, hk] at htrivia
    cases htrivia
  · rw [parseChars_eq, Tree.clean_dressScript] at h
    refine (script_paired h).valid t ?_
    rw [tokens_script, items_tokens]
    exact List.mem_filter.mpr ⟨ht, by simpa using htrivia⟩

/-- The first item of a declaration tells its kind; what the line break before it means plays no
part. -/
theorem declarations_settle (r : Rules) (s : Scope) (rounds : Nat) {ts : List Item}
    (h : ∀ i ∈ ts.head?, beginsDeclaration i.kind = true) :
    r.declarations s rounds (settle ts) = r.declarations s rounds ts := by
  cases ts with
  | nil => rfl
  | cons i rest =>
    cases rounds with
    | zero => rfl
    | succ rounds =>
      -- Whether a line break before it ends a statement is not asked of a word, nor of the name
      -- that is expected of a rule.
      have hsame : r.declaration s { i with breaks := false } rest = r.declaration s i rest := by
        have hi := h i rfl
        have hkind : ({ i with breaks := false } : Item).kind = i.kind := (rfl)
        unfold beginsDeclaration at hi
        split at hi
        case h_1 hk => simp only [Rules.declaration, hkind, hk]; rfl
        case h_2 hk => simp only [Rules.declaration, hkind, hk]; rfl
        case h_3 hk => simp only [Rules.declaration, hkind, hk]; rfl
        case h_4 hk =>
          simp only [Rules.declaration, hkind, hk, Rules.ruleAfter, Rules.head, expect, if_true]
          rfl
        case h_5 => cases hi
      simp only [settle, Rules.declarations, hsame]

/-- A text's declarations within a longer text, read with rules for longer lists still. -/
theorem script_extends (x : Extension) (length : Nat) (ts : List Item)
    (hclean : x.Admits (script length ts)) (hclosed : x.more = [] ∨ Closed ts) (m : Nat) :
    (Rules.upTo (ts.length + 1 + m)).declarations (x.scope (outermost length))
        (ts.length + x.more.length) (x.items ts) =
      (script length ts).map x.tree ++ (Rules.upTo (ts.length + 1 + m)).declarations
        (x.scope (outermost length)) x.more.length x.more :=
  Rules.declarations_extends (Rules.upTo_agrees x (ts.length + 1) m)
    (Rules.upTo_compose (ts.length + 1)) (Rules.upTo_compose (ts.length + 1 + m)) (outermost length)
    (Nat.le_refl _) ⟨Nat.lt_succ_self _, hclosed⟩ hclean

section

variable {as bs cs : List Item} {la : Nat}

/-- The declarations of a text without error that another one follows. -/
theorem script_followed (lb : Nat) (hclean : cleanAll (script la as) = true)
    (hbs : ∃ i rest, bs = i :: rest ∧ i.newline = true ∧ beginsDeclaration i.kind = true)
    (m : Nat) :
    (Rules.upTo (as.length + 1 + m)).declarations (outermost (la + lb))
        (as.length + bs.length) (as ++ bs) =
      script la as ++ (Rules.upTo (as.length + 1 + m)).declarations (outermost (la + lb))
        bs.length bs := by
  let x : Extension :=
    { offset := 0
      more := bs
      length := lb
      apart := by
        obtain ⟨i, rest, rfl, hi⟩ := hbs
        rintro _ ⟨rfl⟩
        exact hi
      nothing := fun hnil => by
        obtain ⟨i, rest, rfl, -⟩ := hbs
        cases hnil }
  have hextends := script_extends x la as (.inr hclean) (.inr (closed_of_clean hclean)) m
  have hscope : x.scope (outermost la) = outermost (la + lb) := by
    simp only [Extension.scope, outermost, Nat.zero_add, x]
  have htree : (script la as).map x.tree = script la as := Tree.map_shift_zero _
  have hitems : x.items as = as ++ bs := congrArg (· ++ bs) (Item.map_shift_zero as)
  rwa [hscope, htree, hitems] at hextends

/-- The declarations of a text at the end of a longer one. -/
theorem script_moved (lb m : Nat) :
    (Rules.upTo (cs.length + 1 + m)).declarations (outermost (la + lb)) cs.length
      (cs.map (Item.shift la)) = (script lb cs).map (Tree.shift la) := by
  let x : Extension :=
    { offset := la, more := [], length := 0, apart := nofun, nothing := fun _ => rfl }
  have hextends := script_extends x lb cs (.inl rfl) (.inl rfl) m
  rw [x.items_of_nothing rfl] at hextends
  exact hextends.trans (List.append_nil _)

/-- The declarations of a text without error, and those of a text after it. -/
theorem script_append (lb : Nat) (hclean : cleanAll (script la as) = true)
    (hbs : settle bs = settle (cs.map (Item.shift la)))
    (hcs : ∃ i rest, cs = i :: rest ∧ i.newline = true ∧ beginsDeclaration i.kind = true) :
    script (la + lb) (as ++ bs) = script la as ++ (script lb cs).map (Tree.shift la) := by
  obtain ⟨i, rest, rfl, hline, hkind⟩ := hcs
  obtain ⟨j, later, rfl⟩ : ∃ j later, bs = j :: later := by
    cases bs with
    | nil => cases hbs
    | cons j later => exact ⟨j, later, rfl⟩
  -- The two lists of items are the same but for what the first line break means.
  obtain ⟨hj, hlater⟩ := List.cons.inj hbs
  have hjline : j.newline = true := (congrArg Item.newline hj).trans hline
  have hjkind : beginsDeclaration j.kind = true := by
    rw [show j.kind = i.kind from congrArg (fun k => k.token.kind) hj]
    exact hkind
  have hlength : (j :: later).length = (i :: rest).length := by
    rw [hlater, List.length_cons, List.length_map, List.length_cons]
  -- The rules for all items serve those of either text.
  have hrules : (as ++ j :: later).length + 1 = as.length + 1 + (i :: rest).length := by
    rw [List.length_append, hlength]
    omega
  have hsame : as.length + 1 + (i :: rest).length = (i :: rest).length + 1 + as.length := by omega
  rw [script, hrules, List.length_append, script_followed lb hclean ⟨j, later, rfl, hjline, hjkind⟩,
    ← declarations_settle _ _ _ (fun k hk => by cases hk; exact hjkind), hbs,
    declarations_settle _ _ _ (fun k hk => by cases hk; exact hkind), hlength, hsame, script_moved]

end

/-! ### Trees -/

theorem filter_map_shift (n : Nat) (ts : List Token) :
    (ts.map (Token.shift n)).filter Token.isTrivia =
      (ts.filter Token.isTrivia).map (Token.shift n) :=
  List.filter_map

/-- The children of the root of a text without error, and those of a text after it. -/
theorem children_parseChars_append {a b : List Char} (hclean : (parseChars a).clean = true)
    (ha : WholeLines a) (hb : ∀ c ∈ b.head?, Text.isBlank c = false)
    (hfirst : ∃ t ∈ ((Token.scan b).filter fun t => !t.isTrivia).head?,
      beginsDeclaration t.kind = true) :
    (parseChars (a ++ b)).children =
      (parseChars a).children ++ (parseChars b).children.map (Tree.shift a.length) := by
  have hvalid := valid_of_clean hclean
  obtain ⟨later, hitems, hlater⟩ := items_scan_append hvalid ha hb
  have hbegins : ∃ i rest, items (Token.scan b) = i :: rest ∧ i.newline = true ∧
      beginsDeclaration i.kind = true := by
    obtain ⟨t, ht, hkind⟩ := hfirst
    rw [← items_tokens] at ht
    rcases hcs : items (Token.scan b) with _ | ⟨i, rest⟩
    · rw [hcs] at ht
      cases ht
    · have hline := newline_of_head_itemsAfter none (Token.scan b) i (by
        rw [← items, hcs]; rfl)
      rw [hcs] at ht
      cases ht
      exact ⟨i, rest, rfl, hline, hkind⟩
  rw [parseChars_eq, Tree.clean_dressScript] at hclean
  have hscript := script_append b.length hclean hlater hbegins
  have htokens : ∀ t ∈ Token.scan a, t.start < a.length := fun t ht => by
    simpa using Token.start_lt_of_mem_scanFrom ht
  have hstarts : ∀ t ∈ (items (Token.scan a)).map Item.token, t.start ≤ a.length := by
    intro t ht
    rw [items_tokens] at ht
    exact Nat.le_of_lt (htokens t (List.mem_filter.mp ht).1)
  have htrivia : ∀ t ∈ (Token.scan a).filter Token.isTrivia, t.isTrivia = true ∧
      t.start < a.length := by
    intro t ht
    obtain ⟨hmem, htrivia⟩ := List.mem_filter.mp ht
    exact ⟨htrivia, htokens t hmem⟩
  have hds : script b.length (items (Token.scan b)) ≠ [] := by
    intro hnil
    obtain ⟨i, rest, hcs, -⟩ := hbegins
    have hnone := tokens_script b.length (items (Token.scan b))
    rw [hnil, hcs] at hnone
    cases hnone
  rw [parseChars_eq (a ++ b), hitems, List.length_append, hscript,
    Token.scan_append (Token.not_opensRaw_of_valid hvalid) ha hb, List.filter_append,
    filter_map_shift]
  exact Tree.children_dressScript_append b.length _ (script_covers _ _) hstarts htrivia hds

/-- Of two texts, the first one without error and of whole lines, the second one beginning with a
declaration: the children of the root of both are those of the first, and those of the second with
every offset moved by the length of the first. -/
theorem children_parse_append (a b : String) (hclean : (parse a).ofKind .error = [])
    (ha : a = "" ∨ ∃ front, a = front ++ "\n")
    (hb : ∀ c ∈ b.toList.head?, Text.isBlank c = false)
    (hfirst : ∃ t ∈ ((Token.scan b.toList).filter fun t => !t.isTrivia).head?,
      beginsDeclaration t.kind = true) :
    (parse (a ++ b)).children =
      (parse a).children ++ (parse b).children.map (Tree.shift a.length) := by
  have hlines : WholeLines a.toList := by
    rcases ha with rfl | ⟨front, rfl⟩
    · exact .inl rfl
    · exact .inr ⟨front.toList, String.toList_append⟩
  have hchildren := children_parseChars_append ((Tree.ofKind_error_eq_nil_iff _).mp hclean) hlines hb
    hfirst
  rw [String.length_toList] at hchildren
  rw [parse, String.toList_append]
  exact hchildren

def wholeRule : String := "p if \x7b x == 1 \x7d\nelse := 2\n"

def laterDefault : String := "# none\ndefault p := 0"

theorem children_parse_append_default : (parse wholeRule).ofKind .error = [] ∧
    (parse (wholeRule ++ laterDefault)).children =
      (parse wholeRule).children ++ (parse laterDefault).children.map
        (Tree.shift wholeRule.length) := by
  have hclean : (parse wholeRule).ofKind .error = [] := by decide +kernel
  have hline : wholeRule = "p if \x7b x == 1 \x7d\nelse := 2" ++ "\n" := by decide +kernel
  have hfirst : ((Token.scan laterDefault.toList).filter fun t => !t.isTrivia).head? =
      some ⟨.keyword .defaultKw, "default".toList, 7⟩ := by
    decide +kernel
  have hblank : ∀ c ∈ laterDefault.toList.head?, Text.isBlank c = false := by
    have hhead : laterDefault.toList.head? = some '#' := by decide +kernel
    rw [hhead]
    rintro _ ⟨rfl⟩
    decide
  exact ⟨hclean, children_parse_append _ _ hclean (.inr ⟨_, hline⟩) hblank ⟨_, hfirst, rfl⟩⟩

end PolicyEditor.Grammar
