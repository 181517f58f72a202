import PolicyEditor.Text.Lines

/-!
Where lines end. A text that is read line by line has any line break between its lines; how many
lines end before a character is how many newlines stand before it only if every line break there is
a newline.
-/

namespace PolicyEditor.Text

def lineWidth : List Char → Nat
  | [] => 0
  | '\r' :: '\n' :: _ => 2
  | c :: rest => if isLineBreak c then 1 else lineWidth rest + 1

/-- The offset at which the first `n` lines of a text end, with their line breaks. -/
def linesEnd : (n : Nat) → List Char → Nat
  | 0, _ => 0
  | n + 1, s => lineWidth s + linesEnd n (s.drop (lineWidth s))

def lineBreaks : List Char → Nat
  | [] => 0
  | '\r' :: '\n' :: rest => lineBreaks rest + 1
  | c :: rest => if isLineBreak c then lineBreaks rest + 1 else lineBreaks rest

/-- Whether every line break of a text is a newline, alone or after a carriage return. -/
def plainBreaks : List Char → Bool
  | [] => true
  | '\r' :: '\n' :: rest => plainBreaks rest
  | c :: rest => (c == '\n' || !isLineBreak c) && plainBreaks rest

/-! ### Lines and offsets -/

theorem lineWidth_cons {c : Char} {rest : List Char}
    (hc : ∀ t, c = '\r' → rest = '\n' :: t → False) :
    lineWidth (c :: rest) = if isLineBreak c then 1 else lineWidth rest + 1 := by
  rw [lineWidth.eq_def]
  split
  · rename_i hnil
    cases hnil
  · rename_i hpair
    cases hpair
    exact (hc _ rfl rfl).elim
  · rename_i hcons
    cases hcons
    rfl

/-- Before a character that is no newline a carriage return stands alone if it did before. -/
theorem alone_append {c d : Char} {rest after : List Char} (hc : isLineBreak c = false)
    (hd : ∀ t, d = '\r' → rest = '\n' :: t → False) :
    ∀ t, d = '\r' → rest ++ c :: after = '\n' :: t → False := by
  intro t hreturn heq
  cases rest with
  | nil =>
    obtain ⟨rfl, -⟩ := List.cons.inj heq
    exact absurd hc (by decide)
  | cons e rest =>
    obtain ⟨rfl, -⟩ := List.cons.inj heq
    exact hd rest hreturn rfl

/-- The first line of a text reaches beyond a character if no line break stands before it, and else
ends with the first of them. -/
theorem lineWidth_append {c : Char} (hc : isLineBreak c = false) (before after : List Char) :
    lineBreaks before = 0 ∧ before.length < lineWidth (before ++ c :: after) ∨
      ∃ line rest, before = line ++ rest ∧ lineWidth (before ++ c :: after) = line.length ∧
        lineBreaks before = lineBreaks rest + 1 := by
  fun_induction lineBreaks before with
  | case1 =>
    refine .inl ⟨rfl, ?_⟩
    have halone : ∀ t, c = '\r' → after = '\n' :: t → False := by
      rintro _ rfl _
      exact absurd hc (by decide)
    rw [List.nil_append, lineWidth_cons halone, if_neg (by rw [hc]; decide)]
    exact Nat.succ_pos _
  | case2 rest _ => exact .inr ⟨['\r', '\n'], rest, rfl, rfl, rfl⟩
  | case3 d rest hcr hbreak _ =>
    refine .inr ⟨[d], rest, rfl, ?_, rfl⟩
    rw [List.cons_append, lineWidth_cons (alone_append hc hcr), if_pos hbreak]
    rfl
  | case4 d rest hcr hbreak ih =>
    have hwidth : lineWidth (d :: rest ++ c :: after) = lineWidth (rest ++ c :: after) + 1 := by
      rw [List.cons_append, lineWidth_cons (alone_append hc hcr), if_neg hbreak]
    rw [hwidth]
    rcases ih with ⟨hnone, hlong⟩ | ⟨line, rest, rfl, hline, hbreaks⟩
    · exact .inl ⟨hnone, Nat.succ_lt_succ hlong⟩
    · exact .inr ⟨d :: line, rest, rfl, congrArg Nat.succ hline, hbreaks⟩

/-- So many lines end before a character as line breaks stand before it. -/
theorem linesEnd_le_iff {c : Char} (hc : isLineBreak c = false) (n : Nat)
    (before after : List Char) :
    linesEnd n (before ++ c :: after) ≤ before.length ↔ n ≤ lineBreaks before := by
  induction n generalizing before with
  | zero => simp only [linesEnd, Nat.zero_le]
  | succ n ih =>
    rcases lineWidth_append hc before after with ⟨hnone, hlong⟩ | ⟨line, rest, rfl, hline, hbreaks⟩
    · rw [linesEnd]
      omega
    · have hdrop : (line ++ rest ++ c :: after).drop line.length = rest ++ c :: after := by
        rw [List.append_assoc, List.drop_left]
      have hrest := ih rest
      rw [linesEnd, hline, hdrop, List.length_append]
      omega

/-! ### Newlines -/

theorem plainBreaks_cons {c : Char} {rest : List Char}
    (hc : ∀ t, c = '\r' → rest = '\n' :: t → False) :
    plainBreaks (c :: rest) = ((c == '\n' || !isLineBreak c) && plainBreaks rest) := by
  rw [plainBreaks]
  exact hc

/-- Where every line break is a newline, counting newlines counts lines. -/
theorem lineBreaks_eq_count {s : List Char} (h : plainBreaks s = true) :
    lineBreaks s = s.count '\n' := by
  fun_induction lineBreaks s with
  | case1 => rfl
  | case2 rest ih =>
    rw [plainBreaks] at h
    rw [ih h, List.count_cons_of_ne (by decide), List.count_cons_self]
  | case3 c rest hcr hbreak ih =>
    rw [plainBreaks_cons hcr, hbreak, Bool.not_true, Bool.or_false, Bool.and_eq_true,
      beq_iff_eq] at h
    obtain ⟨rfl, hrest⟩ := h
    rw [ih hrest, List.count_cons_self]
  | case4 c rest hcr hbreak ih =>
    have hne : c ≠ '\n' := by
      rintro rfl
      exact hbreak rfl
    rw [plainBreaks_cons hcr, Bool.and_eq_true] at h
    rw [ih h.2, List.count_cons_of_ne hne]

end PolicyEditor.Text
