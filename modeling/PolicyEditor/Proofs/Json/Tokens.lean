import PolicyEditor.Proofs.Json.Words

/-!
Documents as tokens with texts inserted between them. A token is a mark, a string or a word; every
document is made of tokens and white space.
-/

namespace PolicyEditor.Json

def isMark (c : Char) : Bool :=
  ['{', '}', '[', ']', ',', ':'].contains c

/-- A text with others inserted between its tokens, any number of them at each place. A token is a
mark, a string or a word, which reaches as far as its characters do; white space may be parted
anywhere. -/
inductive Inserted (P : List Char → Prop) : List Char → List Char → Prop where
  | nil : Inserted P [] []
  | insert {more s t : List Char} : P more → Inserted P s t → Inserted P s (more ++ t)
  | space {c : Char} {s t : List Char} :
      isSpace c = true → Inserted P s t → Inserted P (c :: s) (c :: t)
  | mark {c : Char} {s t : List Char} :
      isMark c = true → Inserted P s t → Inserted P (c :: s) (c :: t)
  | text {raw s t : List Char} : StringText raw → Inserted P s t →
      Inserted P ('"' :: raw ++ '"' :: s) ('"' :: raw ++ '"' :: t)
  | word {w s t : List Char} : w ≠ [] → w.all isWordChar = true → EndsWord s → Inserted P s t →
      Inserted P (w ++ s) (w ++ t)

/-! ### Characters of tokens -/

theorem skipSpace_of_not {c : Char} (hc : isSpace c = false) (s : List Char) :
    skipSpace (c :: s) = c :: s := by
  rw [skipSpace, List.dropWhile_cons, if_neg (by rw [hc]; decide)]

theorem isSpace_of_isMark {c : Char} (h : isMark c = true) : isSpace c = false := by
  simp only [isMark, List.contains_eq_mem, List.mem_cons, List.not_mem_nil, or_false,
    decide_eq_true_eq] at h
  rcases h with rfl | rfl | rfl | rfl | rfl | rfl <;> decide

theorem isWordChar_of_isMark {c : Char} (h : isMark c = true) : isWordChar c = false := by
  simp only [isMark, List.contains_eq_mem, List.mem_cons, List.not_mem_nil, or_false,
    decide_eq_true_eq] at h
  rcases h with rfl | rfl | rfl | rfl | rfl | rfl <;> decide

theorem isWordChar_of_isSpace {c : Char} (h : isSpace c = true) : isWordChar c = false := by
  simp only [isSpace, Bool.or_eq_true, beq_iff_eq] at h
  rcases h with ((rfl | rfl) | rfl) | rfl <;> decide

theorem isSpace_of_isWordChar {c : Char} (h : isWordChar c = true) : isSpace c = false :=
  Bool.eq_false_iff.mpr fun hc => absurd h (by rw [isWordChar_of_isSpace hc]; decide)

/-! ### Tokens of documents -/

def Splits (s : List Char) : Prop :=
  Inserted (fun _ => False) s s

/-- Where nothing can be inserted, nothing is. -/
theorem Inserted.eq_of_none {s t : List Char} (h : Inserted (fun _ => False) s t) : t = s := by
  induction h with
  | nil => rfl
  | insert hmore _ _ => exact hmore.elim
  | space _ _ ih | mark _ _ ih | text _ _ ih | word _ _ _ _ ih => rw [ih]

theorem Splits.of_skipSpace {s : List Char} (h : Splits (skipSpace s)) : Splits s := by
  induction s with
  | nil => exact .nil
  | cons c s ih =>
    by_cases hc : isSpace c = true
    · rw [skipSpace, List.dropWhile_cons, if_pos hc] at h
      exact .space hc (ih h)
    · rwa [skipSpace_of_not (Bool.eq_false_iff.mpr hc)] at h

/-- In front of a text the characters of a word join the word that it begins with, if it does. -/
theorem Inserted.word_append_of_none {used s t : List Char} (hused : used.all isWordChar = true)
    (h : Inserted (fun _ => False) s t) : Inserted (fun _ => False) (used ++ s) (used ++ t) := by
  by_cases hne : used = []
  · rw [hne]
    exact h
  have hword : EndsWord s → Inserted (fun _ => False) (used ++ s) (used ++ t) :=
    fun hends => .word hne hused hends h
  cases h with
  | nil => exact hword (fun _ hc => nomatch hc)
  | insert hmore _ => exact hmore.elim
  | space hc _ =>
    refine hword ?_
    rintro _ ⟨⟩
    exact isWordChar_of_isSpace hc
  | mark hc _ =>
    refine hword ?_
    rintro _ ⟨⟩
    exact isWordChar_of_isMark hc
  | text _ _ =>
    refine hword ?_
    rintro _ ⟨⟩
    decide
  | @word w s t _ hw hends h =>
    have hboth : (used ++ w).all isWordChar = true := by
      rw [List.all_append, hused, hw]
      rfl
    rw [← List.append_assoc, ← List.append_assoc]
    exact .word (List.append_ne_nil_of_left_ne_nil hne w) hboth hends h

theorem Splits.skip_mark {s rest : List Char} {c : Char} (hs : skipSpace s = c :: rest)
    (hc : isMark c = true) (h : Splits rest) : Splits s :=
  .of_skipSpace (hs ▸ .mark hc h)

theorem Elements.splits {s rest : List Char} {vs : List Json}
    (h : Elements (fun s _ rest => Splits rest → Splits s) s vs rest) (hrest : Splits rest) :
    Splits s := by
  induction h with
  | last hv hclose => exact hv (.skip_mark hclose (by decide) hrest)
  | more hv hcomma _ ih => exact hv (.skip_mark hcomma (by decide) (.of_skipSpace (ih hrest)))

theorem ReadsMember.splits {s after : List Char} {m : Member}
    (h : ReadsMember (fun s _ rest => Splits rest → Splits s) s m after) (hafter : Splits after) :
    Splits s := by
  obtain ⟨raw, _, afterKey, afterColon, hraw, -, rfl, hcolon, hvalue, -⟩ := h
  exact .text hraw (Splits.skip_mark hcolon (by decide) (.of_skipSpace (hvalue hafter)))

theorem Members.splits {s rest : List Char} {ms : List Member}
    (h : Members (fun s _ rest => Splits rest → Splits s) s ms rest) (hrest : Splits rest) :
    Splits s := by
  induction h with
  | last hm hclose => exact hm.splits (.skip_mark hclose (by decide) hrest)
  | more hm hcomma _ ih =>
    exact hm.splits (.skip_mark hcomma (by decide) (.of_skipSpace (ih hrest)))

theorem splits_closed : ClosedUnderReading fun s _ rest => Splits rest → Splits s where
  word h hrest := Inserted.word_append_of_none h.chars hrest
  text hraw _ hrest := .text hraw hrest
  emptyArray hclose hrest := .mark (by decide) (Splits.skip_mark hclose (by decide) hrest)
  array h hrest := .mark (by decide) (Splits.of_skipSpace (h.splits hrest))
  emptyObject hclose hrest := .mark (by decide) (Splits.skip_mark hclose (by decide) hrest)
  object h hrest := .mark (by decide) (Splits.of_skipSpace (h.splits hrest))

/-- Documents are made of tokens and white space. -/
theorem splits_of_decode {s : List Char} {v : Json} (h : decode s = .ok v) : Splits s := by
  have hdecode : decode? s = some v := by rw [decode?, h]; rfl
  obtain ⟨rest, hsplits, hend⟩ := decode?_reads splits_closed hdecode
  exact .of_skipSpace (hsplits (.of_skipSpace (hend ▸ .nil)))

end PolicyEditor.Json
