import PolicyEditor.Proofs.Token.Concatenation

/-!
Where a line break or a semicolon stands behind a text. Neither goes on with a token of the text,
so these tokens are the same with and without it. Only blanks run together with a line break.
-/

namespace PolicyEditor.Token

open PolicyEditor.Text

def Separator (c : Char) : Prop :=
  c = '\n' ∨ c = ';'

theorem Name.not_mem_separator {s : List Char} (h : Name s) {c : Char} (hc : Separator c) :
    c ∉ s := by
  rcases hc with rfl | rfl
  · exact newline_not_mem h.no_blank
  · obtain ⟨first, rest, rfl, hfirst, hrest⟩ := h
    have hclass : ∀ d, isNameStart d = true ∨ isDigit d = true → ';' ≠ d := by
      rintro d (hd | hd) rfl
      · exact absurd hd (by decide)
      · exact absurd hd (by decide)
    intro hmem
    rcases List.mem_cons.mp hmem with heq | hmem
    · exact hclass first (.inl hfirst) heq
    · exact hclass _ (hrest _ hmem) rfl

theorem Numeral.not_mem_separator {s : List Char} (h : Numeral s) {c : Char} (hc : Separator c) :
    c ∉ s := by
  rcases hc with rfl | rfl
  · exact newline_not_mem h.no_blank
  · intro hmem
    rcases h.inNumeral _ hmem with hdigit | hmark
    · exact absurd hdigit (by decide)
    · exact absurd hmark (by decide)

/-- A separator that belongs to a sign is all of it. -/
theorem Sign.eq_of_mem_separator {s : List Char} (h : Sign s) {c : Char} (hc : Separator c)
    (hmem : c ∈ s) : s = [c] := by
  rcases hc with rfl | rfl
  · exact absurd hmem (newline_not_mem h.no_blank)
  · obtain ⟨k, hk⟩ := h
    rcases spells_iff.mp hk with ⟨d, rfl, -⟩ | ⟨d, e, sign, rfl, hpair, -⟩
    · rw [List.mem_singleton.mp hmem]
    · unfold pairOperator? at hpair
      split at hpair
      case h_6 => cases hpair
      all_goals exact absurd hmem (by decide)

/-- The longest text of a class stays so before a separator, if the class has no text that goes on
over it. -/
theorem Longest.before {P : List Char → Prop} {chars mid : List Char} (h : Longest P chars mid)
    (hne : chars ≠ []) {c : Char} (hP : ∀ s, P s → c ∈ s → s = [c]) (more : List Char) :
    Longest P chars (mid ++ c :: more) := by
  refine ⟨h.1, fun s hs hPs => ?_⟩
  by_cases hmem : c ∈ s
  · rw [hP s hPs hmem]
    exact List.length_pos_iff.mpr hne
  · rw [← List.append_assoc] at hs
    exact h.2 s (prefix_of_not_mem hs hmem) hPs

/-- What is neither a comment nor an item is made of blanks. -/
theorem Begins.all_blank {k : Kind} {chars rest : List Char} (h : Begins k chars rest)
    (htrivia : k.isTrivia = true) (hk : k ≠ .comment) : ∀ c ∈ chars, isBlank c = true := by
  cases h with
  | whitespace h => exact h.1.2
  | comment => exact absurd rfl hk
  | sign _ hspells => cases hspells <;> cases htrivia
  | _ => cases htrivia

/-- A token that is neither invalid nor a blank or comment stays what it is before a separator. -/
theorem Begins.before {k : Kind} {chars rest : List Char} (h : Begins k chars rest)
    (hk : k ≠ .invalid) (htrivia : k.isTrivia = false) {c : Char} (hc : Separator c)
    (more : List Char) : Begins k chars (rest ++ c :: more) := by
  have hne := h.ne_nil
  cases h with
  | whitespace => cases htrivia
  | comment => cases htrivia
  | string h => exact .string (h.1.longest _)
  | openString => exact absurd rfl hk
  | rawString h => exact .rawString (h.1.longest _)
  | openRawString => exact absurd rfl hk
  | number h =>
    exact .number (h.before hne (fun s hs hmem => absurd hmem (hs.not_mem_separator hc)) more)
  | keyword word h =>
    exact .keyword word (h.before hne (fun s hs hmem => absurd hmem (hs.not_mem_separator hc)) more)
  | identifier h hword =>
    exact .identifier (h.before hne (fun s hs hmem => absurd hmem (hs.not_mem_separator hc)) more)
      hword
  | sign h hspells =>
    exact .sign (h.before hne (fun s hs hmem => hs.eq_of_mem_separator hc hmem) more) hspells
  | alien => exact absurd rfl hk

/-- No line break makes a token of what is none, unless a backquote behind it closes one. -/
theorem Begins.invalid_before {chars rest more : List Char} (h : Begins .invalid chars rest)
    (hmore : '`' ∉ more) : ∃ chars' rest', chars ++ (rest ++ '\n' :: more) = chars' ++ rest' ∧
      Begins .invalid chars' rest' := by
  cases h with
  | openString h hnone =>
    refine ⟨chars, rest ++ '\n' :: more, rfl,
      .openString (h.of_stop (fun s hs => hs.no_newline) more) fun s hs hquoted => ?_⟩
    rw [← List.append_assoc] at hs
    exact hnone s (prefix_of_not_mem hs hquoted.no_newline) hquoted
  | @openRawString body hbody =>
    refine ⟨'`' :: (body ++ '\n' :: more), [], by simp, .openRawString ?_⟩
    simp only [List.mem_append, List.mem_cons, not_or]
    exact ⟨hbody, by decide, hmore⟩
  | sign _ hspells => cases hspells
  | alien h => exact ⟨_, _, rfl, .alien h⟩

/-- A text that begins with a token, and the tokens after it. -/
theorem Begins.scanFrom_eq {k : Kind} {chars rest : List Char} (h : Begins k chars rest)
    (pos : Nat) : scanFrom 0 pos (chars ++ rest) =
      ⟨k, chars, pos⟩ :: scanFrom 0 (pos + chars.length) rest :=
  (Splits.cons h (scanFrom_splits (pos + chars.length) rest)).eq_scanFrom.symm

end PolicyEditor.Token
