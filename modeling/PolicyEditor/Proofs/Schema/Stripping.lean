import Mathlib.Data.List.Forall2
import PolicyEditor.Proofs.Schema.Comments
import PolicyEditor.Text.Split

/-!
Removing comments, seen from the text that is left: each of its lines is part of the line with the
same number, and it holds no comments, so that there is nothing to remove from it.
-/

namespace PolicyEditor.Schema

open PolicyEditor.Text (pieces exists_pieces)

/-! ### Lines -/

/-- A text of which characters are left out, but no newlines. -/
inductive Thinned : List Char → List Char → Prop where
  | nil : Thinned [] []
  | keep {c : Char} {kept s : List Char} : Thinned kept s → Thinned (c :: kept) (c :: s)
  | drop {c : Char} {kept s : List Char} : c ≠ '\n' → Thinned kept s → Thinned kept (c :: s)

theorem thinned_stripFrom (region : Region) (s : List Char) : Thinned (stripFrom region s) s := by
  fun_induction stripFrom region s with
  | case1 => exact .nil
  | case2 rest ih | case3 rest ih | case9 rest ih => exact .drop (by decide) (.drop (by decide) ih)
  | case4 c rest _ _ ih | case6 c rest _ ih => exact .keep ih
  | case5 c rest ih => exact .keep (.keep ih)
  | case7 rest ih | case10 rest _ ih => exact .keep ih
  | case8 c rest hc ih | case11 c rest _ hc ih => exact .drop hc ih

theorem Thinned.sublist {kept s : List Char} (h : Thinned kept s) : kept.Sublist s := by
  induction h with
  | nil => exact .slnil
  | keep _ ih => exact ih.cons_cons _
  | drop _ _ ih => exact ih.cons _

theorem length_stripFrom_le (region : Region) (s : List Char) :
    (stripFrom region s).length ≤ s.length :=
  (thinned_stripFrom region s).sublist.length_le

/-- Every line of a thinned text is a thinned line. -/
theorem Thinned.lines {kept s : List Char} (h : Thinned kept s) :
    List.Forall₂ List.Sublist (pieces '\n' kept) (pieces '\n' s) := by
  induction h with
  | nil => exact .cons .slnil .nil
  | @keep c kept s _ ih =>
    by_cases hc : c = '\n'
    · subst hc
      exact .cons .slnil ih
    · obtain ⟨first, more, hkept, hcons⟩ := exists_pieces '\n' kept
      obtain ⟨first', more', hs, hcons'⟩ := exists_pieces '\n' s
      rw [hkept, hs, List.forall₂_cons] at ih
      rw [hcons c hc, hcons' c hc]
      exact .cons (ih.1.cons_cons c) ih.2
  | @drop c kept s hc _ ih =>
    obtain ⟨first, more, hkept, -⟩ := exists_pieces '\n' kept
    obtain ⟨first', more', hs, hcons'⟩ := exists_pieces '\n' s
    rw [hkept, hs, List.forall₂_cons] at ih
    rw [hkept, hcons' c hc]
    exact .cons (ih.1.cons c) ih.2

/-- Removing comments moves no character to another line: there are as many newlines as before, and
every line is left with characters of its own, in their order. -/
theorem strip_keeps_lines (s : List Char) :
    (strip s).count '\n' = s.count '\n' ∧
      List.Forall₂ List.Sublist (pieces '\n' (strip s)) (pieces '\n' s) :=
  ⟨count_newline_stripFrom .code s, (thinned_stripFrom .code s).lines⟩

/-- Comments that the end of the text cuts off leave their newlines too. -/
example : pieces '\n' (strip "a /*\n\"//\n".toList) = ["a ".toList, [], []] := by decide +kernel

/-! ### What is left -/

/-- The region of what is left of a region: of comments only newlines are left. -/
def Region.left : Region → Region
  | .string => .string
  | .code | .lineComment | .blockComment => .code

theorem Region.left_after (c : Char) :
    (if c = '"' then Region.string else .code).left = if c = '"' then .string else .code := by
  split <;> rfl

/-- A slash that is left outside strings begins no comment: the character after it was there before,
and is left as well. -/
theorem stripFrom_code_left {c : Char} {rest : List Char}
    (hline : ∀ tail, c = '/' → rest = '/' :: tail → False)
    (hblock : ∀ tail, c = '/' → rest = '*' :: tail → False) :
    stripFrom .code (c :: stripFrom (if c = '"' then .string else .code) rest) =
      c :: stripFrom (if c = '"' then .string else .code)
        (stripFrom (if c = '"' then .string else .code) rest) := by
  by_cases hc : c = '/'
  · subst hc
    cases rest with
    | nil => rfl
    | cons d tail =>
      have hslash : d ≠ '/' := fun h => hline tail rfl (by rw [h])
      have hstar : d ≠ '*' := fun h => hblock tail rfl (by rw [h])
      have hleft : stripFrom (if '/' = '"' then .string else .code) (d :: tail) =
          d :: stripFrom (if d = '"' then .string else .code) tail :=
        stripFrom_code_cons hslash tail
      rw [hleft, stripFrom]
      · exact fun _ _ heq => hslash (List.cons.inj heq).1
      · exact fun _ _ heq => hstar (List.cons.inj heq).1
  · exact stripFrom_code_cons hc _

/-- Removing comments leaves nothing to remove. -/
theorem stripFrom_left (region : Region) (s : List Char) :
    stripFrom region.left (stripFrom region s) = stripFrom region s := by
  fun_induction stripFrom region s with
  | case1 region => cases region <;> rfl
  | case2 rest ih | case3 rest ih | case9 rest ih => exact ih
  | case4 c rest hline hblock ih =>
    rw [Region.left_after] at ih
    exact (stripFrom_code_left hline hblock).trans (congrArg (c :: ·) ih)
  | case5 c rest ih => exact congrArg (fun more => '\\' :: c :: more) ih
  | case6 c rest hescape ih =>
    by_cases hc : c = '\\'
    · -- A backslash without a character to escape ends the text.
      cases rest with
      | nil => rw [hc]; rfl
      | cons d tail => exact (hescape d tail hc rfl).elim
    · have hafter : (if c = '"' then Region.code else .string).left =
          if c = '"' then .code else .string := by split <;> rfl
      rw [hafter] at ih
      exact (stripFrom_string_cons hc _).trans (congrArg (c :: ·) ih)
  | case7 rest ih | case10 rest _ ih => exact congrArg ('\n' :: ·) ih
  | case8 c rest _ ih | case11 c rest _ _ ih => exact ih

/-- Whether a text without comments ends in a string, given whether it begins in one. -/
def endsInString : Bool → List Char → Bool
  | inside, [] => inside
  | true, '\\' :: _ :: rest => endsInString true rest
  | inside, c :: rest => endsInString (if c = '"' then !inside else inside) rest

/-- Outside strings a text that is left as it is begins with no comment. -/
theorem stripFrom_ne_of_opens {c : Char} (hc : c = '/' ∨ c = '*') (after : List Char) :
    stripFrom .code ('/' :: c :: after) ≠ '/' :: c :: after := by
  intro h
  have hshort : ∀ region, stripFrom region after ≠ '/' :: c :: after := fun region heq => by
    have hle := length_stripFrom_le region after
    rw [heq, List.length_cons, List.length_cons] at hle
    omega
  rcases hc with rfl | rfl
  · exact hshort .lineComment h
  · exact hshort .blockComment h

/-- What follows the first character is left as it is too. -/
theorem stripFrom_tail_of_eq {c : Char} {rest : List Char}
    (h : stripFrom .code (c :: rest) = c :: rest) :
    stripFrom (if c = '"' then .string else .code) rest = rest := by
  by_cases hc : c = '/'
  · subst hc
    cases rest with
    | nil => rfl
    | cons d tail =>
      have hslash : d ≠ '/' := fun hd => stripFrom_ne_of_opens (.inl hd) tail h
      have hstar : d ≠ '*' := fun hd => stripFrom_ne_of_opens (.inr hd) tail h
      rw [stripFrom] at h
      · exact (List.cons.inj h).2
      · exact fun _ _ heq => hslash (List.cons.inj heq).1
      · exact fun _ _ heq => hstar (List.cons.inj heq).1
  · rw [stripFrom_code_cons hc] at h
    exact (List.cons.inj h).2

/-- In a text that is left as it is a comment would begin in a string. -/
theorem endsInString_of_opens {inside : Bool} {before after : List Char} {c : Char}
    (hc : c = '/' ∨ c = '*')
    (h : stripFrom (if inside then .string else .code) (before ++ '/' :: c :: after) =
      before ++ '/' :: c :: after) : endsInString inside before = true := by
  fun_induction endsInString inside before with
  | case1 inside =>
    cases inside with
    | false => exact absurd h (stripFrom_ne_of_opens hc after)
    | true => rfl
  | case2 d rest ih => exact ih (List.cons.inj (List.cons.inj h).2).2
  | case3 inside d rest hescape ih =>
    rw [List.cons_append] at h
    cases inside with
    | false =>
      refine ih ?_
      have htail := stripFrom_tail_of_eq h
      by_cases hd : d = '"' <;> simpa [hd] using htail
    | true =>
      by_cases hslash : d = '\\'
      · cases rest with
        | nil => rw [hslash]; rfl
        | cons e rest => exact (hescape e rest rfl hslash rfl).elim
      · refine ih ?_
        have htail := (List.cons.inj ((stripFrom_string_cons hslash _).symm.trans h)).2
        by_cases hd : d = '"' <;> simpa [hd] using htail

/-- Removing comments brings no two characters together that begin a comment: what is left has a
slash before a slash or a star in strings only, and removing comments again changes nothing. -/
theorem strip_strip (s : List Char) :
    strip (strip s) = strip s ∧
      ∀ before c after, strip s = before ++ '/' :: c :: after → c = '/' ∨ c = '*' →
        endsInString false before = true := by
  have hsame : strip (strip s) = strip s := stripFrom_left .code s
  refine ⟨hsame, fun before c after hs hc => ?_⟩
  have hleft : stripFrom .code (before ++ '/' :: c :: after) = before ++ '/' :: c :: after := by
    rw [← hs]
    exact hsame
  exact endsInString_of_opens hc hleft

end PolicyEditor.Schema
