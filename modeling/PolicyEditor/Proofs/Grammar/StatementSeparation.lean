import PolicyEditor.Proofs.Grammar.RuleBody

/-!
Statements with line breaks or semicolons between. Each text that is one statement in a body of its
own is the same statement among others, whatever sign or bracket the next one begins with.
-/

namespace PolicyEditor.Grammar

open PolicyEditor.Token (Separator scan scanFrom)

/-! ### Texts of statements -/

def inBody (text : String) : String :=
  "p if \x7b\n" ++ text ++ "\n\x7d"

/-- What may stand between two statements. -/
inductive StatementBreak where
  | line
  | semicolon
  deriving DecidableEq, Repr

def StatementBreak.char : StatementBreak → Char
  | .line => '\n'
  | .semicolon => ';'

theorem StatementBreak.separator (b : StatementBreak) : Separator b.char := by
  cases b
  · exact .inl rfl
  · exact .inr rfl

def joined : List (String × StatementBreak) → String
  | [] => ""
  | [(text, _)] => text
  | (text, b) :: next :: rest => text ++ b.char.toString ++ joined (next :: rest)

def kindsOf (text : String) : List Token.Kind :=
  ((scan text.toList).filter fun t => !t.isTrivia).map Token.kind

/-- Whether the last token is a reserved word behind a dot: a name, which nothing has to follow. -/
def endsInMember (ks : List Token.Kind) : Bool :=
  match ks.reverse with
  | .keyword _ :: .mark .dot :: _ => true
  | _ => false

/-- A text without comments that is one statement in a body of its own. All brackets in it are
closed, and it does not end with a reserved word as a name. -/
structure StandsAlone (text : String) : Prop where
  uncommented : ∀ t ∈ scan text.toList, t.kind ≠ .comment
  closed : openAfter 0 (kindsOf text) = some 0
  member : endsInMember (kindsOf text) = false
  clean : (parse (inBody text)).ofKind .error = []
  single : (parse (inBody text)).bodyStatements?.map List.length = some 1

instance (text : String) : Decidable (StandsAlone text) :=
  decidable_of_iff
    ((∀ t ∈ scan text.toList, t.kind ≠ .comment) ∧ openAfter 0 (kindsOf text) = some 0 ∧
      endsInMember (kindsOf text) = false ∧ (parse (inBody text)).ofKind .error = [] ∧
      (parse (inBody text)).bodyStatements?.map List.length = some 1)
    ⟨fun ⟨h₁, h₂, h₃, h₄, h₅⟩ => ⟨h₁, h₂, h₃, h₄, h₅⟩,
      fun h => ⟨h.uncommented, h.closed, h.member, h.clean, h.single⟩⟩

/-- The tree is the statement of the text, with the same structure and moved along the text. -/
def IsStatementOf (text : String) (t : Tree) : Prop :=
  ∃ alone n, (parse (inBody text)).bodyStatements? = some [alone] ∧ t.bare = alone.bare.shift n

/-- A stretch of items that makes the statement of the text, with semicolons around it perhaps. -/
def IsStretchOf (text : String) (is : List Item) : Prop :=
  ∃ nodes v, MakesStatements is nodes ∧ (nodes.filter fun c => c.kind == .statement) = [v] ∧
    IsStatementOf text v

/-! ### The rule around a body -/

def opening : List Char :=
  "p if \x7b".toList

def ending : List Char :=
  ['\n', '}']

theorem toList_inBody (text : String) :
    (inBody text).toList = opening ++ '\n' :: (text.toList ++ ending) := by
  have hopening : "p if \x7b\n".toList = opening ++ ['\n'] := by decide +kernel
  have hending : "\n\x7d".toList = ending := by decide +kernel
  rw [inBody, String.toList_append, String.toList_append, hopening, hending, List.append_assoc,
    List.append_assoc]
  rfl

/-- A line break is seen by the next item only. -/
theorem itemsAfter_newline (last : Option Token.Kind) (newline : Bool) (pos : Nat)
    (more : List Char) : itemsAfter last newline (scanFrom 0 pos ('\n' :: more)) =
      itemsAfter last true (scanFrom 0 (pos + 1) more) := by
  have hblank : ∀ c ∈ ['\n'], Text.isBlank c = true := List.forall_mem_singleton.mpr rfl
  have hskip := itemsAfter_blanks last newline pos hblank more
  rwa [show ['\n'].contains '\n' = true from rfl, Bool.or_true] at hskip

/-- The items of the rule: the first three, and those of the body with the brace behind them. -/
theorem items_opening (more : List Char) : ∃ name word opener, OpensBody name word opener ∧
    items (scan (opening ++ '\n' :: more)) =
      name :: word :: opener :: itemsAfter (some (.mark .lbrace)) true (scanFrom 0 7 more) := by
  have hscan : scanFrom 0 0 opening = [⟨.identifier, ['p'], 0⟩, ⟨.whitespace, [' '], 1⟩,
      ⟨.keyword .ifKw, ['i', 'f'], 2⟩, ⟨.whitespace, [' '], 4⟩, ⟨.mark .lbrace, ['{'], 5⟩] := by
    decide +kernel
  have hsplits := Token.scanFrom_splits 0 opening
  have hitems := itemsAfter_before hsplits (by decide +kernel) (by decide +kernel) (.inl rfl) more
    none true
  rw [hscan] at hitems
  have hskip := itemsAfter_newline (some (.mark .lbrace)) false 6 more
  refine ⟨⟨⟨.identifier, ['p'], 0⟩, true, true⟩, ⟨⟨.keyword .ifKw, ['i', 'f'], 2⟩, false, false⟩,
    ⟨⟨.mark .lbrace, ['{'], 5⟩, false, false⟩, ⟨rfl, rfl, rfl, rfl⟩, hitems.trans ?_⟩
  exact congrArg (_ :: _ :: _ :: ·) hskip

/-- Behind the last statement stands the brace. -/
theorem itemsAfter_ending (last : Option Token.Kind) (newline : Bool) (pos : Nat) :
    ∃ closer, itemsAfter last newline (scanFrom 0 pos ending) = [closer] ∧
      closer.kind = .mark .rbrace := by
  rw [ending, itemsAfter_newline]
  exact ⟨_, rfl, rfl⟩

/-- The tree of a policy whose body is a stretch of statements. -/
theorem parse_inBody {text : String} {is : List Item} {nodes : List Tree} {closer : Item}
    (hitems : itemsAfter (some (.mark .lbrace)) true (scanFrom 0 7 (text.toList ++ ending)) =
      is ++ [closer]) (hcloser : closer.kind = .mark .rbrace) (h : MakesStatements is nodes) :
    (parse (inBody text)).ofKind .error = [] ∧
      (parse (inBody text)).bodyStatements?.map (List.map Tree.bare) =
        some ((nodes.filter fun c => c.kind == .statement).map Tree.bare) := by
  obtain ⟨name, word, opener, hopens, hopening⟩ := items_opening (text.toList ++ ending)
  rw [← toList_inBody, hitems] at hopening
  have htree : parse (inBody text) = Tree.dressScript (inBody text).toList.length
      ((scan (inBody text).toList).filter Token.isTrivia)
      [bracedRule (inBody text).toList.length name word opener closer nodes] := by
    rw [parse, parseChars_eq, hopening, script_of_makesStatements hopens h hcloser]
  constructor
  · rw [Tree.ofKind_error_eq_nil_iff, htree, Tree.clean_dressScript]
    exact Tree.cleanAll_cons.mpr ⟨clean_bracedRule _ _ _ _ _ h.clean, rfl⟩
  · rw [← Tree.bodyStatements?_bare, htree,
      Tree.bare_dressScript _ fun t ht => (List.mem_filter.mp ht).2]
    show (Tree.node .script 0 _ _).bare.bodyStatements? = _
    rw [Tree.bodyStatements?_bare, bodyStatements?_bracedRule hopens _ hcloser]
    rfl

/-! ### A text in its own body -/

theorem scanFrom_eq_shift (pos : Nat) (s : List Char) :
    scanFrom 0 pos s = (scan s).map (Token.shift pos) :=
  Token.scanFrom_shift pos 0 0 s

theorem kinds_itemsAfter (last : Option Token.Kind) (newline : Bool) (pos : Nat) (text : String) :
    (itemsAfter last newline (scanFrom 0 pos text.toList)).map Item.kind = kindsOf text := by
  have htokens := itemsAfter_tokens last newline (scanFrom 0 pos text.toList)
  rw [scanFrom_eq_shift, List.filter_map] at htokens
  have hkinds := congrArg (List.map Token.kind) htokens
  rw [List.map_map, List.map_map, ← scanFrom_eq_shift] at hkinds
  exact hkinds

namespace StandsAlone

variable {text : String} (h : StandsAlone text)
include h

theorem uncommented_at (pos : Nat) : ∀ t ∈ scanFrom 0 pos text.toList, t.kind ≠ .comment := by
  rw [scanFrom_eq_shift]
  exact List.forall_mem_map.mpr h.uncommented

theorem one : ∃ alone, (parse (inBody text)).bodyStatements? = some [alone] := by
  obtain ⟨statements, hbody, hlength⟩ := Option.map_eq_some_iff.mp h.single
  obtain ⟨alone, rfl⟩ := List.length_eq_one_iff.mp hlength
  exact ⟨alone, hbody⟩

/-- Nothing in the text is cut short by its end. -/
theorem valid : ∀ t ∈ scanFrom 0 7 text.toList, t.kind ≠ .invalid := by
  obtain ⟨name, word, opener, -, hopening⟩ := items_opening (text.toList ++ ending)
  rw [← toList_inBody] at hopening
  have hvalid := valid_of_clean ((Tree.ofKind_error_eq_nil_iff _).mp h.clean)
  have hitems : ∀ i ∈ itemsAfter (some (.mark .lbrace)) true (scanFrom 0 7 (text.toList ++ ending)),
      i.kind ≠ .invalid := by
    intro i hi
    apply hvalid
    have hmem : i ∈ items (scan (inBody text).toList) := by
      rw [hopening]
      exact List.mem_cons_of_mem _ (List.mem_cons_of_mem _ (List.mem_cons_of_mem _ hi))
    have htoken := List.mem_map_of_mem (f := Item.token) hmem
    rw [items_tokens] at htoken
    exact (List.mem_filter.mp htoken).1
  have hquote : '`' ∉ ['}'] := by decide
  exact valid_before (Token.scanFrom_splits 7 text.toList) (h.uncommented_at 7) hquote hitems

/-- The items of the text in its own body, with the brace behind them. -/
theorem items_ending : ∃ closer,
    itemsAfter (some (.mark .lbrace)) true (scanFrom 0 7 (text.toList ++ ending)) =
      itemsAfter (some (.mark .lbrace)) true (scanFrom 0 7 text.toList) ++ [closer] := by
  have hbefore := itemsAfter_before (Token.scanFrom_splits 7 text.toList) h.valid
    (h.uncommented_at 7) (.inl rfl) ['}'] (some (.mark .lbrace)) true
  obtain ⟨closer, hcloser, -⟩ := itemsAfter_ending
    (lastKind (some (.mark .lbrace)) (scanFrom 0 7 text.toList))
    (breakAfter true (scanFrom 0 7 text.toList)) (7 + text.toList.length)
  exact ⟨closer, hbefore.trans (congrArg _ hcloser)⟩

/-- The items of the text are a stretch of its one statement. -/
theorem makesStatements : ∃ nodes v alone,
    MakesStatements (itemsAfter (some (.mark .lbrace)) true (scanFrom 0 7 text.toList)) nodes ∧
      (nodes.filter fun c => c.kind == .statement) = [v] ∧ v.bare = alone.bare ∧
      (parse (inBody text)).bodyStatements? = some [alone] := by
  obtain ⟨closer, hitems⟩ := h.items_ending
  obtain ⟨name, word, opener, hopens, hopening⟩ := items_opening (text.toList ++ ending)
  rw [← toList_inBody, hitems] at hopening
  have hclean := (Tree.ofKind_error_eq_nil_iff _).mp h.clean
  rw [parse, parseChars_eq, Tree.clean_dressScript, hopening] at hclean
  have hclosed := h.closed
  rw [← kinds_itemsAfter (some (.mark .lbrace)) true 7] at hclosed
  obtain ⟨hcloser, nodes, hnodes⟩ := makesStatements_of_script hopens hclosed hclean
  obtain ⟨-, hbody⟩ := parse_inBody hitems hcloser hnodes
  obtain ⟨alone, halone⟩ := h.one
  rw [halone] at hbody
  have hbare := (Option.some.inj hbody).symm
  obtain ⟨v, hv, hbare⟩ := List.map_eq_singleton_iff.mp hbare
  exact ⟨nodes, v, alone, hnodes, hv, hbare, halone⟩

/-- The text ends with a token that nothing has to follow. -/
theorem last_kind : ∃ front k, kindsOf text = front ++ [k] ∧ continues k = false := by
  obtain ⟨nodes, v, alone, hnodes, hv, -⟩ := h.makesStatements
  have hne : nodes ≠ [] := by
    rintro rfl
    cases hv
  obtain ⟨front, t, htokens, ht⟩ := hnodes.rests hne
  have hkinds := congrArg (List.map Token.kind) htokens
  rw [List.map_map, List.map_append] at hkinds
  have hkinds : kindsOf text = front.map Token.kind ++ [t.kind] :=
    (kinds_itemsAfter _ _ 7 text).symm.trans hkinds
  refine ⟨_, _, hkinds, ?_⟩
  rcases ht with ht | ⟨hname, before, d, rfl, hd⟩
  · exact ht
  -- A name behind a dot is no reserved word here, and nothing has to follow another name.
  · rcases hk : t.kind with word | _ | _ | _
    case keyword =>
      have hmember := h.member
      rw [hkinds, List.map_append, List.map_singleton, hd, hk] at hmember
      simp [endsInMember] at hmember
    case identifier => rfl
    all_goals
      rw [hk] at hname
      cases hname

theorem lastKind_eq (last : Option Token.Kind) (pos : Nat) :
    ∃ k, lastKind last (scanFrom 0 pos text.toList) = some k ∧ continues k = false := by
  obtain ⟨front, k, hkinds, hk⟩ := h.last_kind
  have htokens := kinds_itemsAfter last true pos text
  rw [hkinds] at htokens
  obtain ⟨is, js, hitems, -, hjs⟩ := List.map_eq_append_iff.mp htokens
  obtain ⟨i, rfl, rfl⟩ := List.map_eq_singleton_iff.mp hjs
  have hplain := itemsAfter_tokens last true (scanFrom 0 pos text.toList)
  rw [hitems, List.map_append] at hplain
  exact ⟨i.kind, lastKind_of_tokens hplain.symm last, hk⟩

/-- The text among others, before a line break or a semicolon: its items are a stretch of its
statement, moved along. -/
theorem items_among (last : Option Token.Kind) (newline : Bool) (d : Nat) {c : Char}
    (hc : Separator c) (more : List Char) : ∃ is k later,
      itemsAfter last newline (scanFrom 0 (d + 7) (text.toList ++ c :: more)) =
        is ++ itemsAfter (some k) later (scanFrom 0 (d + 7 + text.toList.length) (c :: more)) ∧
      continues k = false ∧ IsStretchOf text is := by
  obtain ⟨nodes, v, alone, hnodes, hv, hbare, halone⟩ := h.makesStatements
  obtain ⟨k, hlast, hk⟩ := h.lastKind_eq last (d + 7)
  have hmoved := Token.scanFrom_shift d 0 7 text.toList
  have hvalid : ∀ t ∈ scanFrom 0 (d + 7) text.toList, t.kind ≠ .invalid := by
    rw [hmoved]
    exact List.forall_mem_map.mpr h.valid
  have hitems := itemsAfter_before (Token.scanFrom_splits (d + 7) text.toList) hvalid
    (h.uncommented_at (d + 7)) hc more last newline
  rw [hlast, hmoved, itemsAfter_shift, ← hmoved] at hitems
  refine ⟨_, k, _, hitems, hk, nodes.map (Tree.shift d), v.shift d, ?_, ?_, alone, d, halone, ?_⟩
  · exact (hnodes.lineless (lineless_itemsAfter last _ newline true _)).shift d
  · rw [Tree.filter_shift, hv, List.map_singleton]
  · rw [Tree.bare_shift, hbare]

end StandsAlone

/-! ### Statements of many texts -/

/-- The items of a body up to its brace: the statements of these texts in order. -/
def IsBodyOf (entries : List (String × StatementBreak)) (ts : List Item) : Prop :=
  ∃ is nodes closer, ts = is ++ [closer] ∧ closer.kind = .mark .rbrace ∧ MakesStatements is nodes ∧
    List.Forall₂ (fun e t => IsStatementOf e.1 t) entries
      (nodes.filter fun c => c.kind == .statement)

theorem apart_newline {k : Token.Kind} (hk : continues k = false) (newline : Bool) (pos : Nat)
    (more : List Char) :
    Apart (itemsAfter (some k) newline (scanFrom 0 pos ('\n' :: more))) := by
  rw [itemsAfter_newline]
  intro i hi
  have hlast : (some k).any continues = false := hk
  exact .inr ⟨newline_of_head_itemsAfter _ _ i hi, breaks_of_head_itemsAfter hlast _ i hi⟩

theorem itemsAfter_semicolon (last : Option Token.Kind) (newline : Bool) (pos : Nat)
    (more : List Char) : ∃ i, i.kind = .mark .semicolon ∧
      itemsAfter last newline (scanFrom 0 pos (';' :: more)) =
        i :: itemsAfter (some (.mark .semicolon)) false (scanFrom 0 (pos + 1) more) := by
  rw [scanFrom_semicolon, itemsAfter_token rfl]
  exact ⟨_, rfl, rfl⟩

namespace IsBodyOf

variable {entries : List (String × StatementBreak)} {ts : List Item}

theorem ending (last : Option Token.Kind) (newline : Bool) (pos : Nat) :
    IsBodyOf [] (itemsAfter last newline (scanFrom 0 pos ending)) := by
  obtain ⟨closer, hitems, hcloser⟩ := itemsAfter_ending last newline pos
  exact ⟨[], [], closer, hitems, hcloser, .nil, .nil⟩

theorem semicolon (h : IsBodyOf entries ts) {i : Item} (hi : i.kind = .mark .semicolon) :
    IsBodyOf entries (i :: ts) := by
  obtain ⟨is, nodes, closer, rfl, hcloser, hnodes, hentries⟩ := h
  have hleaf : i.leaf.kind = .punctuation := congrArg NodeKind.ofToken hi
  refine ⟨i :: is, i.leaf :: nodes, closer, rfl, hcloser, hnodes.semicolon hi, ?_⟩
  rw [List.filter_cons, hleaf]
  exact hentries

/-- A text in front of others, on a line before them or with a semicolon between. -/
theorem prepend (h : IsBodyOf entries ts) (hapart : Apart ts) {e : String × StatementBreak}
    {is : List Item} (his : IsStretchOf e.1 is) : IsBodyOf (e :: entries) (is ++ ts) := by
  obtain ⟨js, others, closer, rfl, hcloser, hothers, hentries⟩ := h
  obtain ⟨nodes, v, hmakes, hv, hstatement⟩ := his
  have hhead : Apart js := by
    cases js with
    | nil => exact nofun
    | cons j js => exact hapart
  refine ⟨is ++ js, nodes ++ others, closer, (List.append_assoc is js _).symm, hcloser,
    hmakes.append hothers hhead, ?_⟩
  rw [List.filter_append, hv]
  exact .cons hstatement hentries

end IsBodyOf

theorem toList_joined (text : String) (b : StatementBreak) (next : String × StatementBreak)
    (rest : List (String × StatementBreak)) (more : List Char) :
    (joined ((text, b) :: next :: rest)).toList ++ more =
      text.toList ++ b.char :: ((joined (next :: rest)).toList ++ more) := by
  rw [joined, String.toList_append, String.toList_append, Char.toString, String.toList_singleton,
    List.append_assoc, List.append_assoc]
  rfl

/-- The texts anywhere in a body: their items are the statements of the texts in order. -/
theorem isBodyOf_joined {entries : List (String × StatementBreak)}
    (h : ∀ e ∈ entries, StandsAlone e.1) (last : Option Token.Kind) (newline : Bool) (d : Nat) :
    IsBodyOf entries
      (itemsAfter last newline (scanFrom 0 (d + 7) ((joined entries).toList ++ ending))) := by
  induction entries generalizing last newline d with
  | nil => exact .ending last newline (d + 7)
  | cons e rest ih =>
    obtain ⟨text, b⟩ := e
    obtain ⟨htext, hrest⟩ := List.forall_mem_cons.mp h
    cases rest with
    | nil =>
      obtain ⟨is, k, later, hitems, hk, his⟩ := htext.items_among last newline d (.inl rfl) ['}']
      rw [joined, ending, hitems]
      exact (IsBodyOf.ending (some k) later _).prepend (apart_newline hk later _ _) his
    | cons next rest =>
      obtain ⟨is, k, later, hitems, hk, his⟩ := htext.items_among last newline d b.separator
        ((joined (next :: rest)).toList ++ ending)
      have hpos : d + 7 + text.toList.length + 1 = d + text.toList.length + 1 + 7 := by omega
      rw [toList_joined, hitems]
      cases b with
      | line =>
        have hbody := ih hrest (some k) true (d + text.toList.length + 1)
        rw [← hpos, ← itemsAfter_newline (some k) later] at hbody
        exact hbody.prepend (apart_newline hk later _ _) his
      | semicolon =>
        have hbody := ih hrest (some (.mark .semicolon)) false (d + text.toList.length + 1)
        obtain ⟨i, hi, hskip⟩ := itemsAfter_semicolon (some k) later (d + 7 + text.toList.length)
          ((joined (next :: rest)).toList ++ ending)
        rw [← hpos] at hbody
        rw [StatementBreak.char, hskip]
        apply (hbody.semicolon hi).prepend _ his
        rintro _ ⟨rfl⟩
        exact .inl hi

/-- Texts that are one statement each are these statements, in order, when they stand in one body
with line breaks or semicolons between them. -/
theorem separated_statements_stand (entries : List (String × StatementBreak))
    (h : ∀ e ∈ entries, StandsAlone e.1) :
    (parse (inBody (joined entries))).ofKind .error = [] ∧
      ∃ statements, (parse (inBody (joined entries))).bodyStatements? = some statements ∧
        List.Forall₂ (fun e t => IsStatementOf e.1 t) entries statements := by
  obtain ⟨is, nodes, closer, hitems, hcloser, hnodes, hentries⟩ :=
    isBodyOf_joined h (some (.mark .lbrace)) true 0
  obtain ⟨hclean, hbody⟩ := parse_inBody hitems hcloser hnodes
  obtain ⟨statements, hstatements, hbare⟩ := Option.map_eq_some_iff.mp hbody
  refine ⟨hclean, statements, hstatements, ?_⟩
  -- Only the structure of a tree tells whether it is the statement of a text.
  let R (e : String × StatementBreak) (bare : Tree) : Prop :=
    ∃ alone n, (parse (inBody e.1)).bodyStatements? = some [alone] ∧ bare = alone.bare.shift n
  have hentries : List.Forall₂ R entries (statements.map Tree.bare) := by
    rw [hbare]
    exact List.forall₂_map_right_iff.mpr hentries
  exact (List.forall₂_map_right_iff (R := R) (f := Tree.bare)).mp hentries

/-- Statements that begin with a sign or a bracket, where an operator or an index could go on. -/
def sampleStatements : List (String × StatementBreak) :=
  [("x := a.b", .line), ("-y", .line), ("[z] == f(x)", .semicolon), ("(w)", .line),
    ("\x7b\"k\": 1\x7d", .line)]

theorem separated_statements_stand_sample :
    (∀ e ∈ sampleStatements, StandsAlone e.1) ∧
      (parse (inBody (joined sampleStatements))).ofKind .error = [] ∧
      ∃ statements, (parse (inBody (joined sampleStatements))).bodyStatements? = some statements ∧
        List.Forall₂ (fun e t => IsStatementOf e.1 t) sampleStatements statements := by
  have h : ∀ e ∈ sampleStatements, StandsAlone e.1 := by decide +kernel
  exact ⟨h, separated_statements_stand sampleStatements h⟩

end PolicyEditor.Grammar
