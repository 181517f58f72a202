import PolicyEditor.Proofs.Grammar.SeparatedItems
import PolicyEditor.Proofs.Grammar.StatementEnds
import PolicyEditor.Proofs.Tree.BodyStatements

/-!
Stretches of items that are the statements of a body. A stretch that is read without error in one
body is read the same in any other, wherever it stands, whatever line breaks are before its first
item, and whatever follows it on a new line or after a semicolon.
-/

namespace PolicyEditor.Grammar

open PolicyEditor.Tree (cleanAll)

/-- In a body of their own these items make these statements and separators, none of them an error.
-/
def MakesStatements (is : List Item) (nodes : List Tree) : Prop :=
  ∃ n eof rounds closer, is.length < n ∧ closer.kind = .mark .rbrace ∧
    Rules.ReadsStatements (Rules.upTo n) (outermost eof) (.mark .rbrace) rounds (is ++ [closer])
      nodes [closer]

/-- No statement goes on with these items. -/
def Apart (ts : List Item) : Prop :=
  ∀ i ∈ ts.head?, i.kind = .mark .semicolon ∨ (i.newline = true ∧ i.breaks = true)

namespace Rules

variable {r : Rules}

/-! ### Line breaks before the first item -/

section

variable {s : Scope} {i j : Item} (htoken : j.token = i.token) (hstops : s.stops j = s.stops i)
  {rest : List Item}
include htoken hstops

theorem own?_lineless : r.own? s j = r.own? s i := by
  obtain ⟨t, newline, breaks⟩ := i
  obtain ⟨u, newline', breaks'⟩ := j
  obtain rfl : u = t := htoken
  rw [own?, own?, hstops]
  rfl

/-- A rule for operands asks whether the line break before its first item ends what is read, but
not whether there is one. -/
theorem operand_lineless (h : (r.operand s (i :: rest)).1.clean = true) :
    r.operand s (j :: rest) = r.operand s (i :: rest) := by
  obtain ⟨f, hf⟩ := own_of_clean h
  rw [operand_own hf, operand_own ((own?_lineless htoken hstops).trans hf)]

theorem unaryWith_lineless {operand : List Item → Parsed}
    (hoperand : (operand (i :: rest)).1.clean = true → operand (j :: rest) = operand (i :: rest))
    (h : (unaryWith operand s (i :: rest)).1.clean = true) :
    unaryWith operand s (j :: rest) = unaryWith operand s (i :: rest) := by
  have hkind : j.kind = i.kind := congrArg Token.kind htoken
  have hleaf : j.leaf = i.leaf := congrArg Tree.ofToken htoken
  rw [unaryWith] at h
  rw [unaryWith, unaryWith, hkind, hleaf, hstops]
  split at h
  case isTrue hi => rw [if_pos hi, if_pos hi]
  case isFalse hi => rw [if_neg hi, if_neg hi, hoperand h]

theorem expression_lineless {level : Nat}
    (h : (r.expression s level (i :: rest)).1.clean = true) :
    r.expression s level (j :: rest) = r.expression s level (i :: rest) := by
  rw [expression, expression, unaryWith_lineless htoken hstops (operand_lineless htoken hstops)
    (clean_of_binaryTail h)]

theorem clause_lineless (h : (r.clause s (i :: rest)).1.clean = true) :
    r.clause s (j :: rest) = r.clause s (i :: rest) := by
  have hkind : j.kind = i.kind := congrArg Token.kind htoken
  have hleaf : j.leaf = i.leaf := congrArg Tree.ofToken htoken
  by_cases hevery : i.kind = .keyword .everyKw
  · rw [clause_every hevery, clause_every (hkind.trans hevery), hleaf]
  by_cases hsome : i.kind = .keyword .someKw
  · rw [clause_some hsome, clause_some (hkind.trans hsome), hleaf]
  by_cases hnot : i.kind = .keyword .notKw
  · rw [clause_not hnot, clause_not (hkind.trans hnot), hleaf]
  · rw [clause_expression hsome hevery hnot] at h ⊢
    rw [clause_expression (by rwa [hkind]) (by rwa [hkind]) (by rwa [hkind]),
      expression_lineless htoken hstops h]

omit hstops in
theorem statement_lineless (h : (r.statement s (i :: rest)).1.clean = true) :
    r.statement s (j :: rest) = r.statement s (i :: rest) := by
  rw [statement_eq] at h
  have hclause := (Tree.cleanAll_cons.mp (Tree.cleanAll_of_clean_enclose h)).1
  have hsame : r.clause s (settle (j :: rest)) = r.clause s (settle (i :: rest)) :=
    clause_lineless (i := { i with breaks := false }) (j := { j with breaks := false }) htoken rfl
      hclause
  simp only [statement_eq, hsame]

end

namespace ReadsStatements

variable {s : Scope} {closer : Token.Kind} {rounds : Nat} {i : Item} {rest left : List Item}
  {nodes : List Tree} (h : ReadsStatements r s closer rounds (i :: rest) nodes left)
  (hread : left ≠ i :: rest)
include h hread

/-- Statements that begin with an item do not ask what the line breaks before it mean. -/
theorem lineless {j : Item} (htoken : j.token = i.token) :
    ReadsStatements r s closer rounds (j :: rest) nodes left := by
  have hkind : j.kind = i.kind := congrArg Token.kind htoken
  have hleaf : j.leaf = i.leaf := congrArg Tree.ofToken htoken
  cases h with
  | halt => exact absurd rfl hread
  | semicolon hcloser hi hrest =>
    rw [← hleaf]
    exact .semicolon (by rwa [hkind]) (hkind.trans hi) hrest
  | @statement _ _ _ _ _ node _ hi hnode hclean hafter hmore =>
    have hsame : r.statement s (j :: rest) = r.statement s (i :: rest) := by
      apply statement_lineless htoken
      rw [hnode]
      exact hclean
    exact .statement (by rwa [hkind]) (hsame.trans hnode) hclean hafter hmore

/-- Statements do not begin with a comma. -/
theorem ne_comma : i.kind ≠ .mark .comma := by
  intro hi
  cases h with
  | halt => exact hread rfl
  | semicolon _ hsemicolon =>
    rw [hi] at hsemicolon
    cases hsemicolon
  | statement hbegins =>
    have hoperand := hbegins.operand
    rw [hi] at hoperand
    cases hoperand

end ReadsStatements

end Rules

/-! ### Stretches -/

theorem lineless_eq_cons {c : List Item} {i : Item} {rest : List Item}
    (h : lineless c = lineless (i :: rest)) : ∃ j, c = j :: rest ∧ j.token = i.token := by
  cases c with
  | nil => cases h
  | cons j c =>
    obtain ⟨hhead, rfl⟩ := List.cons.inj h
    exact ⟨j, rfl, (Item.mk.inj hhead).1⟩

namespace MakesStatements

variable {c d : List Item} {nodes others : List Tree}

theorem nil : MakesStatements [] [] := by
  refine ⟨1, 0, 0, ⟨⟨.mark .rbrace, [], 0⟩, true, true⟩, Nat.one_pos, rfl, ?_⟩
  exact .halt (.inl rfl)

theorem clean (h : MakesStatements c nodes) : cleanAll nodes = true := by
  obtain ⟨_, _, _, _, _, _, hreads⟩ := h
  exact hreads.clean

/-- The statements hold the items and nothing else. -/
theorem tokens (h : MakesStatements c nodes) : Tree.tokens nodes = c.map Item.token := by
  obtain ⟨n, eof, rounds, closer, -, -, hreads⟩ := h
  have hcovers : Covers eof (c ++ [closer]) ((Rules.upTo n).statementList (outermost eof)
      (.mark .rbrace) rounds (c ++ [closer])).1 _ :=
    Rules.statementList_composes (Rules.upTo_compose n) (outermost eof) (.mark .rbrace) rounds
      (c ++ [closer])
  rw [hreads.eq] at hcovers
  have htokens := Tree.Reads.tokens_append_rest hcovers
  rw [List.map_append] at htokens
  exact List.append_cancel_right htokens

/-- A stretch with a statement can end before a line break. -/
theorem rests (h : MakesStatements c nodes) (hne : nodes ≠ []) : Rests (c.map Item.token) := by
  rw [← h.tokens]
  obtain ⟨n, eof, rounds, closer, -, -, hreads⟩ := h
  exact (hreads.rests (Rules.upTo_rests n) (Rules.upTo_compose n)).resolve_left hne

theorem ne_comma {i : Item} (h : MakesStatements (i :: c) nodes) : i.kind ≠ .mark .comma := by
  obtain ⟨n, eof, rounds, closer, -, -, hreads⟩ := h
  exact hreads.ne_comma (by simp)

/-- A stretch further to the right. -/
theorem shift (h : MakesStatements c nodes) (k : Nat) :
    MakesStatements (c.map (Item.shift k)) (nodes.map (Tree.shift k)) := by
  obtain ⟨n, eof, rounds, closer, hlength, hcloser, hreads⟩ := h
  let x : Extension := ⟨k, [], 0, nofun, fun _ => rfl⟩
  have hfits : x.Fits (n + 1) (c ++ [closer]) := by
    refine ⟨?_, .inl rfl⟩
    rw [List.length_append, List.length_singleton]
    omega
  have hadmits : x.Admits ((Rules.upTo n).statementList (outermost eof) (.mark .rbrace) rounds
      (c ++ [closer])).1 := .inl rfl
  have hmoved := Rules.statementList_extends (Rules.upTo_agrees x n 0) (Rules.upTo_compose n)
    (outermost eof) (.mark .rbrace) hfits hadmits (.inl rfl)
  rw [hreads.eq, x.items_of_nothing rfl, List.map_append] at hmoved
  refine ⟨n, k + eof + 0, rounds, closer.shift k, ?_, hcloser, ?_⟩
  · rwa [List.length_map]
  · apply Rules.readsStatements_of_eq hmoved
    show cleanAll (nodes.map (Tree.shift k)) = true
    rw [← Tree.shiftAll_eq_map, Tree.cleanAll_shiftAll, hreads.clean]

/-- A stretch behind other line breaks. -/
theorem lineless (h : MakesStatements c nodes) (hsame : lineless d = lineless c) :
    MakesStatements d nodes := by
  cases c with
  | nil =>
    cases d with
    | nil => exact h
    | cons j d => cases hsame
  | cons i rest =>
    obtain ⟨j, rfl, htoken⟩ := lineless_eq_cons hsame
    obtain ⟨n, eof, rounds, closer, hlength, hcloser, hreads⟩ := h
    exact ⟨n, eof, rounds, closer, hlength, hcloser, hreads.lineless (by simp) htoken⟩

/-- A stretch before other statements, or before the brace. -/
theorem before (h : MakesStatements c nodes) (eof : Nat) {us : List Item} {m rounds : Nat}
    (hm : (c ++ us).length ≤ m) (hends : Ends (outermost eof) us)
    (hseparated : Rules.SeparatedBy (.mark .rbrace) us) (hrounds : (c ++ us).length ≤ rounds) :
    ∃ left, us.length ≤ left ∧
      (Rules.upTo m).statementList (outermost eof) (.mark .rbrace) rounds (c ++ us) =
        (nodes ++ ((Rules.upTo m).statementList (outermost eof) (.mark .rbrace) left us).1,
          ((Rules.upTo m).statementList (outermost eof) (.mark .rbrace) left us).2) := by
  obtain ⟨n, eof', rounds', closer, -, -, hreads⟩ := h
  obtain ⟨read, hread, hkeeps⟩ := hreads.keeps (Rules.upTo_kept n m) (Rules.upTo_compose n)
    (Rules.upTo_pairs n) eof
  obtain rfl : c = read := List.append_cancel_right hread
  rw [List.length_append] at hrounds
  obtain ⟨left, hleft, heq⟩ := hkeeps us rounds hm (.inr hends) hseparated (by omega)
  exact ⟨left, by omega, heq⟩

/-- What follows a stretch of statements may be others on a line of their own or behind a semicolon,
with the brace behind them. -/
theorem ends (h : MakesStatements d others) (hapart : Apart d) (eof : Nat) {closer : Item}
    (hcloser : closer.kind = .mark .rbrace) :
    Ends (outermost eof) (d ++ [closer]) ∧
      Rules.SeparatedBy (.mark .rbrace) (d ++ [closer]) := by
  cases d with
  | nil =>
    constructor
    · rintro _ ⟨rfl⟩
      exact .inl (by rw [hcloser]; rfl)
    · rintro _ ⟨rfl⟩
      simp [hcloser]
  | cons i rest =>
    rcases hapart i rfl with hsemicolon | ⟨hnewline, hbreaks⟩
    · constructor
      · rintro _ ⟨rfl⟩
        exact .inr (.inl hsemicolon)
      · rintro _ ⟨rfl⟩
        simp [hsemicolon]
    · constructor
      · rintro _ ⟨rfl⟩
        exact .inr (.inr ⟨hbreaks, h.ne_comma⟩)
      · rintro _ ⟨rfl⟩
        simp [hnewline]

/-- A stretch that the brace follows, in a body of any text. -/
theorem closed (h : MakesStatements c nodes) (eof : Nat) {closer : Item}
    (hcloser : closer.kind = .mark .rbrace) {m rounds : Nat} (hm : c.length < m)
    (hrounds : c.length < rounds) :
    (Rules.upTo m).statementList (outermost eof) (.mark .rbrace) rounds (c ++ [closer]) =
      (nodes, [closer]) := by
  have hlength : (c ++ [closer]).length = c.length + 1 := by
    rw [List.length_append, List.length_singleton]
  obtain ⟨hends, hseparated⟩ := nil.ends nofun eof hcloser
  obtain ⟨left, -, heq⟩ := h.before eof (hlength.trans_le hm) hends hseparated
    (hlength.trans_le hrounds)
  rw [heq, Rules.statementList_closer _ _ closer hcloser, List.append_nil]

/-- Two stretches, the second on a line of its own or behind a semicolon. -/
theorem append (h : MakesStatements c nodes) (h' : MakesStatements d others) (hapart : Apart d) :
    MakesStatements (c ++ d) (nodes ++ others) := by
  let closer : Item := ⟨⟨.mark .rbrace, [], 0⟩, true, true⟩
  have hlength : (c ++ (d ++ [closer])).length = (c ++ d).length + 1 := by
    rw [← List.append_assoc, List.length_append, List.length_singleton]
  obtain ⟨hends, hseparated⟩ := h'.ends hapart 0 (rfl : closer.kind = .mark .rbrace)
  obtain ⟨left, hleft, heq⟩ := h.before 0 (Nat.le_of_eq hlength) hends hseparated
    (Nat.le_of_eq hlength)
  rw [List.length_append, List.length_singleton] at hleft
  have hm : d.length < (c ++ d).length + 1 := by
    rw [List.length_append]
    omega
  rw [h'.closed 0 rfl hm hleft, ← List.append_assoc] at heq
  refine ⟨(c ++ d).length + 1, 0, (c ++ d).length + 1, closer, Nat.lt_succ_self _, rfl, ?_⟩
  apply Rules.readsStatements_of_eq heq
  rw [Tree.cleanAll_append, h.clean, h'.clean]
  rfl

/-- A semicolon before a stretch. -/
theorem semicolon (h : MakesStatements c nodes) {i : Item} (hi : i.kind = .mark .semicolon) :
    MakesStatements (i :: c) (i.leaf :: nodes) := by
  let closer : Item := ⟨⟨.mark .rbrace, [], 0⟩, true, true⟩
  have hlist := h.closed 0 (rfl : closer.kind = .mark .rbrace) (Nat.lt_add_of_pos_right Nat.two_pos)
    (Nat.lt_succ_self c.length)
  have hi' : i.kind ≠ .mark .rbrace := by
    rw [hi]
    decide
  exact ⟨c.length + 2, 0, c.length + 2, closer, Nat.lt_succ_self _, rfl,
    .semicolon hi' hi (Rules.readsStatements_of_eq hlist h.clean)⟩

end MakesStatements

end PolicyEditor.Grammar
