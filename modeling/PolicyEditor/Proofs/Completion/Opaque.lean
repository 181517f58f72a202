import PolicyEditor.Completion.Cursor
import PolicyEditor.Proofs.Grammar.Leaves
import PolicyEditor.Proofs.Grammar.ScriptShape
import PolicyEditor.Proofs.Tree.Cursor

/-!
Where completion is silent because the cursor stands in text that is no code. The tree decides that,
but it agrees with the tokens of the text: a leaf stands for one token, and of strings, comments and
invalid text it has the kind.
-/

namespace PolicyEditor.Completion

open PolicyEditor.Grammar (parse)
open PolicyEditor.Schema (Context)

/-- A token hides the cursor: a closed string does between its quotes, a comment and a string that
nothing closes also at their end. -/
inductive OpaqueAt (offset : Nat) (t : Token) : Prop where
  | string : t.kind = .string ∨ t.kind = .rawString → t.start < offset → offset < t.stop →
      OpaqueAt offset t
  | comment : t.kind = .comment → t.Touches offset → OpaqueAt offset t
  | unclosed : t.kind = .invalid → t.chars.head? = some '"' ∨ t.chars.head? = some '`' →
      t.Touches offset → OpaqueAt offset t

theorem OpaqueAt.touches {offset : Nat} {t : Token} (h : OpaqueAt offset t) : t.Touches offset := by
  cases h with
  | string _ hstart hstop => exact ⟨hstart, Nat.le_of_lt hstop⟩
  | comment _ h => exact h
  | unclosed _ _ h => exact h

theorem opaqueAt_iff {offset : Nat} {t : Token} : OpaqueAt offset t ↔
    (t.kind = .string ∨ t.kind = .rawString) ∧ t.start < offset ∧ offset < t.stop ∨
      t.kind = .comment ∧ t.Touches offset ∨
      t.kind = .invalid ∧ (t.chars.head? = some '"' ∨ t.chars.head? = some '`') ∧
        t.Touches offset := by
  constructor
  · rintro (⟨hkind, hstart, hstop⟩ | ⟨hkind, h⟩ | ⟨hkind, hquote, h⟩)
    · exact .inl ⟨hkind, hstart, hstop⟩
    · exact .inr (.inl ⟨hkind, h⟩)
    · exact .inr (.inr ⟨hkind, hquote, h⟩)
  · rintro (⟨hkind, hstart, hstop⟩ | ⟨hkind, h⟩ | ⟨hkind, hquote, h⟩)
    · exact .string hkind hstart hstop
    · exact .comment hkind h
    · exact .unclosed hkind hquote h

theorem any_isQuote (cs : Option Char) :
    cs.any (fun c => c == '"' || c == '`') = true ↔ cs = some '"' ∨ cs = some '`' := by
  cases cs <;> simp only [Option.any_none, Option.any_some, Bool.or_eq_true, beq_iff_eq,
    Option.some.injEq, reduceCtorEq, or_self, Bool.false_eq_true]

theorem hides_leaf (k : NodeKind) (t : Token) (offset : Nat) : hides (.leaf k t) offset =
    (decide (t.start < offset) &&
      match k with
      | .string | .rawString => decide (offset < t.stop)
      | .comment => decide (offset ≤ t.stop)
      | .invalid => t.chars.head?.any (fun c => c == '"' || c == '`') && decide (offset ≤ t.stop)
      | _ => false) := by
  cases k <;> rfl

/-- A leaf hides the cursor if its token does. -/
theorem hides_leaf_iff {k : NodeKind} {t : Token} (h : isLeafOf k t = true) (offset : Nat) :
    hides (.leaf k t) offset = true ↔ OpaqueAt offset t := by
  rw [opaqueAt_iff, hides_leaf]
  rw [isLeafOf, Bool.or_eq_true, Bool.and_eq_true, beq_iff_eq, beq_iff_eq] at h
  rcases h with rfl | ⟨rfl, hname⟩
  · -- One case for each kind of token; those that hide nothing make both sides false.
    cases t.kind <;>
      simp only [NodeKind.ofToken, Bool.and_eq_true, decide_eq_true_eq, any_isQuote,
        Token.Touches, reduceCtorEq, false_and, true_and, or_false, false_or, or_true, and_false,
        Bool.false_eq_true]
    exact and_left_comm
  · cases hkind : t.kind <;> rw [hkind] at hname <;> cases hname <;>
      simp only [Bool.and_false, Bool.false_eq_true, reduceCtorEq, false_and, or_self]

/-- The leaf at a cursor stands for a token of the text. -/
theorem token_of_leafAt {source : String} {offset : Int} {p : Tree × List Tree}
    (h : (parse source).leafAt offset = some p) :
    ∃ k, ∃ t ∈ Token.scan source.toList, p.1 = .leaf k t ∧ isLeafOf k t = true := by
  obtain ⟨hwalk, hleaf⟩ := Tree.leafAt_mem h
  obtain ⟨n, above⟩ := p
  cases n with
  | node => cases hleaf
  | leaf k t =>
    refine ⟨k, t, ?_, rfl, ((Grammar.formed_parse source).walk _ hwalk).leaf t rfl⟩
    have htokens : Tree.tokens [parse source] = Token.scan source.toList :=
      Grammar.tokens_parseChars source.toList
    rw [← htokens, ← Tree.tokens_walk []]
    exact List.mem_filterMap.mpr ⟨_, hwalk, rfl⟩

/-- Where a token of the text touches the cursor, it alone decides whether the cursor is hidden. -/
theorem insideOpaque_parse_of_touches {source : String} {offset : Nat} {t : Token}
    (ht : t ∈ Token.scan source.toList) (htouches : t.Touches offset) :
    insideOpaque (parse source) offset = true ↔ OpaqueAt offset t := by
  have htokens : Tree.tokens [parse source] = Token.scan source.toList :=
    Grammar.tokens_parseChars source.toList
  -- The tokens abut, so no other one touches the cursor and the search ends at this one's leaf.
  have hsuccessive := Token.successive_scan source.toList
  obtain ⟨k, above, hwalk, hfound⟩ :=
    Tree.leafAt_of_touches (htokens.symm ▸ hsuccessive) (htokens.symm ▸ ht) htouches
  have hleaf := ((Grammar.formed_parse source).walk _ hwalk).leaf t rfl
  rw [insideOpaque, hfound]
  exact hides_leaf_iff hleaf offset

/-- The tree hides the cursor exactly where a token of the text does. -/
theorem insideOpaque_parse_iff (source : String) (offset : Nat) :
    insideOpaque (parse source) offset = true ↔
      ∃ t ∈ Token.scan source.toList, OpaqueAt offset t := by
  constructor
  · intro h
    obtain ⟨p, hfound, hhides⟩ := (Option.any_eq_true _ _).mp h
    obtain ⟨k, t, ht, hp, hleaf⟩ := token_of_leafAt hfound
    exact ⟨t, ht, (hides_leaf_iff hleaf offset).mp (hp ▸ hhides)⟩
  · rintro ⟨t, ht, hopaque⟩
    exact (insideOpaque_parse_of_touches ht hopaque.touches).mpr hopaque

/-- What completion looks for where nothing hides the cursor: a path, then the beginning of a root,
then a word. -/
def completeLine (context : Context) (before : List Char) (offset : Nat) :
    Except Path.KeyError (Option Result) := do
  match ← completePath? context before offset with
  | some found => return some found
  | none =>
    match completeRoot? context before offset with
    | some found => return some found
    | none => return completeWord? before offset

theorem complete_eq (tree : Tree) (source : List Char) (offset : Int) (context : Context) :
    complete tree source offset context =
      if insideOpaque tree (clamp source.length offset) then .ok none
      else completeLine context (lineBefore source (clamp source.length offset))
        (clamp source.length offset) := rfl

/-- Completion is silent where a token hides the cursor; where the token that touches the cursor
does not hide it, what stands before the cursor on its line decides. -/
theorem complete_parse_opaque (source : String) (offset : Int) (context : Context) :
    ((∃ t ∈ Token.scan source.toList, OpaqueAt (clamp source.toList.length offset) t) →
      complete (parse source) source.toList offset context = .ok none) ∧
    ∀ t ∈ Token.scan source.toList, t.Touches (clamp source.toList.length offset) →
      ¬ OpaqueAt (clamp source.toList.length offset) t →
      insideOpaque (parse source) (clamp source.toList.length offset) = false ∧
        complete (parse source) source.toList offset context =
          completeLine context
            (lineBefore source.toList (clamp source.toList.length offset))
            (clamp source.toList.length offset) := by
  constructor
  · intro h
    rw [complete_eq, if_pos ((insideOpaque_parse_iff source _).mpr h)]
  · intro t ht htouches hopaque
    have hopen := mt (insideOpaque_parse_of_touches ht htouches).mp hopaque
    exact ⟨Bool.eq_false_iff.mpr hopen, by rw [complete_eq, if_neg hopen]⟩

end PolicyEditor.Completion
