import PolicyEditor.Proofs.Json.Reading

/-!
Numbers and literals are read as words: which of its characters a word gives up, and for what value,
does not depend on what follows the word.
-/

namespace PolicyEditor.Json

/-- No word goes on in this text. -/
def EndsWord (s : List Char) : Prop :=
  ∀ c ∈ s.head?, isWordChar c = false

theorem EndsWord.not_cons {c : Char} {s : List Char} (h : EndsWord (c :: s)) :
    ¬ isWordChar c = true :=
  Bool.not_eq_true _ ▸ h c rfl

theorem EndsWord.ne {c d : Char} {s : List Char} (h : EndsWord (c :: s))
    (hd : isWordChar d = true) : c ≠ d := by
  rintro rfl
  exact h.not_cons hd

theorem EndsWord.isDigit {c : Char} {s : List Char} (h : EndsWord (c :: s)) :
    c.isDigit = false :=
  Bool.eq_false_iff.mpr fun hc => h.not_cons (isWordChar_of_isDigit hc)

theorem exists_wordChar {w : List Char} (hne : w ≠ []) (hw : w.all isWordChar = true) :
    ∃ c tail, w = c :: tail ∧ isWordChar c = true := by
  obtain ⟨c, tail, rfl⟩ := List.exists_cons_of_ne_nil hne
  exact ⟨c, tail, rfl, (Bool.and_eq_true_iff.mp hw).1⟩

/-- Where a word ends, so does every part of it that stands in front. -/
theorem EndsWord.split {w s used rest : List Char} (hs : EndsWord s)
    (hused : used.all isWordChar = true) (h : w ++ s = used ++ rest) :
    ∃ left, w = used ++ left ∧ rest = left ++ s := by
  rcases List.append_eq_append_iff.mp h with ⟨more, hmore, hs'⟩ | ⟨left, hw, hrest⟩
  · -- What is left of the part would begin with a character that ends the word.
    cases more with
    | nil => exact ⟨[], by rw [hmore, List.append_nil, List.append_nil], hs'.symm⟩
    | cons c more =>
      subst hs'
      rw [hmore, List.all_append, List.all_cons] at hused
      simp only [Bool.and_eq_true] at hused
      exact absurd hused.2.1 hs.not_cons
  · exact ⟨left, hw, hrest⟩

theorem fraction_of_ne {c : Char} (hc : c ≠ '.') (rest : List Char) :
    fraction (c :: rest) = ([], c :: rest) := by
  rw [fraction]
  exact fun _ _ heq => hc (List.cons.inj heq).1

theorem exponent?_of_ne {c : Char} (hlower : c ≠ 'e') (hupper : c ≠ 'E') (rest : List Char) :
    exponent? (c :: rest) = (none, c :: rest) := by
  simp only [exponent?, hlower, hupper, or_self, if_false]

def splitSign (s : List Char) : Bool × List Char :=
  match s with
  | '-' :: rest => (true, rest)
  | '+' :: rest => (false, rest)
  | rest => (false, rest)

theorem exponent?_of_letter {e : Char} (he : e = 'e' ∨ e = 'E') (rest : List Char) :
    exponent? (e :: rest) =
      match digits (splitSign rest).2 with
      | ([], _) => (none, e :: rest)
      | (ds, after) =>
        (some (if (splitSign rest).1 then -(Text.natOfDigits ds : Int) else Text.natOfDigits ds),
          after) := by
  simp only [exponent?, he, if_true, splitSign]
  rfl

theorem wholeDigits?_of_ne {c : Char} (h : c ≠ '0') (rest : List Char) :
    wholeDigits? (c :: rest) = if c.isDigit then some (digits (c :: rest)) else none := by
  rw [wholeDigits?]
  exact h

theorem splitSign_of_ne {c : Char} (hminus : c ≠ '-') (hplus : c ≠ '+') (rest : List Char) :
    splitSign (c :: rest) = (false, c :: rest) := by
  rw [splitSign]
  · exact fun _ heq => hminus (List.cons.inj heq).1
  · exact fun _ heq => hplus (List.cons.inj heq).1

section

variable {s : List Char} (hs : EndsWord s)

include hs

/-! ### Numbers -/

theorem digits_append (w : List Char) :
    digits (w ++ s) = ((digits w).1, (digits w).2 ++ s) := by
  induction w with
  | nil =>
    cases s with
    | nil => rfl
    | cons c s =>
      simp only [digits, List.nil_append, List.takeWhile_cons, List.dropWhile_cons, hs.isDigit,
        Bool.false_eq_true, if_false, List.takeWhile_nil, List.dropWhile_nil]
  | cons d w ih =>
    simp only [digits, Prod.mk.injEq] at ih
    by_cases hd : d.isDigit = true
    · simp only [digits, List.cons_append, List.takeWhile_cons, List.dropWhile_cons, hd, if_true,
        ih]
    · simp only [digits, List.cons_append, List.takeWhile_cons, List.dropWhile_cons, hd, if_false,
        Bool.false_eq_true]

theorem wholeDigits?_append (w : List Char) :
    wholeDigits? (w ++ s) = (wholeDigits? w).map fun p => (p.1, p.2 ++ s) := by
  cases w with
  | nil =>
    cases s with
    | nil => rfl
    | cons c s =>
      have hzero : c ≠ '0' := hs.ne (by decide)
      rw [List.nil_append, wholeDigits?_of_ne hzero, hs.isDigit]
      rfl
  | cons d w =>
    by_cases hzero : d = '0'
    · subst hzero
      rfl
    · have hdigits := digits_append hs (d :: w)
      rw [List.cons_append] at hdigits
      rw [List.cons_append, wholeDigits?_of_ne hzero, wholeDigits?_of_ne hzero, hdigits]
      split <;> rfl

theorem fraction_append (w : List Char) :
    fraction (w ++ s) = ((fraction w).1, (fraction w).2 ++ s) := by
  cases w with
  | nil =>
    cases s with
    | nil => rfl
    | cons c s => exact fraction_of_ne (hs.ne (by decide)) s
  | cons d w =>
    by_cases hpoint : d = '.'
    · subst hpoint
      cases w with
      | nil =>
        cases s with
        | nil => rfl
        | cons c s => simp only [List.cons_append, List.nil_append, fraction, hs.isDigit,
            Bool.false_eq_true, if_false]
      | cons d w =>
        have hdigits := digits_append hs (d :: w)
        rw [List.cons_append] at hdigits
        simp only [List.cons_append, fraction]
        split
        · exact hdigits
        · rfl
    · rw [List.cons_append, fraction_of_ne hpoint, fraction_of_ne hpoint, List.cons_append]

theorem splitSign_append (w : List Char) :
    splitSign (w ++ s) = ((splitSign w).1, (splitSign w).2 ++ s) := by
  cases w with
  | nil =>
    cases s with
    | nil => rfl
    | cons c s => exact splitSign_of_ne (hs.ne (by decide)) (hs.ne (by decide)) s
  | cons d w =>
    by_cases hminus : d = '-'
    · subst hminus
      rfl
    by_cases hplus : d = '+'
    · subst hplus
      rfl
    rw [List.cons_append, splitSign_of_ne hminus hplus, splitSign_of_ne hminus hplus,
      List.cons_append]

theorem exponent?_append (w : List Char) :
    exponent? (w ++ s) = ((exponent? w).1, (exponent? w).2 ++ s) := by
  cases w with
  | nil =>
    cases s with
    | nil => rfl
    | cons c s => exact exponent?_of_ne (hs.ne (by decide)) (hs.ne (by decide)) s
  | cons e w =>
    by_cases he : e = 'e' ∨ e = 'E'
    · rw [List.cons_append, exponent?_of_letter he, exponent?_of_letter he, splitSign_append hs,
        digits_append hs]
      obtain ⟨_ | ⟨d, ds⟩, after⟩ := digits (splitSign w).2 <;> rfl
    · obtain ⟨hlower, hupper⟩ := not_or.mp he
      rw [List.cons_append, exponent?_of_ne hlower hupper, exponent?_of_ne hlower hupper,
        List.cons_append]

/-! ### Literals -/

theorem afterWord?_append {word : String} (hword : word.toList.all isWordChar = true)
    (w : List Char) :
    Text.afterWord? word (w ++ s) = (Text.afterWord? word w).map (· ++ s) := by
  ext rest
  simp only [Text.afterWord?_eq_some_iff, Option.map_eq_some_iff]
  constructor
  · intro h
    obtain ⟨left, hw, hrest⟩ := hs.split hword h
    exact ⟨left, hw, hrest.symm⟩
  · rintro ⟨left, rfl, rfl⟩
    exact List.append_assoc _ _ _

theorem literal?_append (w : List Char) :
    literal? (w ++ s) = (literal? w).map fun p => (p.1, p.2 ++ s) := by
  have hwords : ∀ p ∈ literals, p.1.toList.all isWordChar = true := by decide +kernel
  rw [literal?, literal?]
  generalize literals = words at hwords ⊢
  induction words with
  | nil => rfl
  | cons p rest ih =>
    obtain ⟨hp, hrest⟩ := List.forall_mem_cons.mp hwords
    simp only [List.findSome?_cons, afterWord?_append hs hp, ih hrest]
    cases Text.afterWord? p.1 w <;> rfl

end

/-- The part of a word that a number takes is the same whatever ends the word. -/
theorem number_word {negative : Bool} {start w s rest : List Char} {v : Json} (hs : EndsWord s)
    (h : number negative start (w ++ s) = .ok (v, rest)) :
    ∃ left, rest = left ++ s ∧ ∀ start t, EndsWord t →
      number negative start (w ++ t) = .ok (v, left ++ t) := by
  simp only [number, wholeDigits?_append hs] at h
  cases hwhole : wholeDigits? w with
  | none =>
    rw [hwhole] at h
    cases h
  | some p =>
    obtain ⟨whole, after⟩ := p
    simp only [hwhole, Option.map_some, fraction_append hs, exponent?_append hs] at h
    refine ⟨(exponent? (fraction after).2).2, ?_, fun start t ht => ?_⟩
    · split at h
      · split at h <;> cases h
        rfl
      · cases h
        rfl
    · simp only [number, wholeDigits?_append ht, hwhole, Option.map_some, fraction_append ht,
        exponent?_append ht]
      split at h
      · rw [if_pos ‹_›]
        split at h <;> cases h
        rw [if_neg ‹_›]
      · rw [if_neg ‹_›]
        cases h
        rfl

/-! ### Words -/

theorem valueStep_of_isWordChar {c : Char} (hc : isWordChar c = true) (rounds : Nat)
    (value : List Char → Read (Json × List Char)) (s : List Char) :
    valueStep rounds value (c :: s) =
      match literal? (c :: s) with
      | some found => .ok found
      | none => if c = '-' then number true (c :: s) s else number false (c :: s) (c :: s) := by
  have hne : ∀ d, isWordChar d = false → c ≠ d := by
    rintro d hd rfl
    exact absurd hc (by rw [hd]; decide)
  unfold valueStep
  split
  · rename_i hnil
    cases hnil
  · rename_i heq
    exact absurd (List.cons.inj heq).1 (hne '"' rfl)
  · rename_i heq
    exact absurd (List.cons.inj heq).1 (hne '{' rfl)
  · rename_i heq
    exact absurd (List.cons.inj heq).1 (hne '[' rfl)
  · rename_i heq
    obtain ⟨rfl, rfl⟩ := List.cons.inj heq
    rfl

/-- The part of a word that a value takes is the same whatever ends the word. -/
theorem valueStep_word {rounds : Nat} {value : List Char → Read (Json × List Char)}
    {w s rest : List Char} {v : Json} (hne : w ≠ []) (hw : w.all isWordChar = true)
    (hs : EndsWord s) (h : valueStep rounds value (w ++ s) = .ok (v, rest)) :
    ∃ left, rest = left ++ s ∧ ∀ rounds value t, EndsWord t →
      valueStep rounds value (w ++ t) = .ok (v, left ++ t) := by
  obtain ⟨c, w, rfl, hc⟩ := exists_wordChar hne hw
  have hstep : ∀ rounds value t, EndsWord t → valueStep rounds value (c :: w ++ t) =
      match (literal? (c :: w)).map fun p => (p.1, p.2 ++ t) with
      | some found => .ok found
      | none =>
        if c = '-' then number true (c :: w ++ t) (w ++ t)
        else number false (c :: w ++ t) (c :: w ++ t) := fun rounds value t ht => by
    rw [← literal?_append ht]
    exact valueStep_of_isWordChar hc rounds value (w ++ t)
  rw [hstep _ _ s hs] at h
  cases hliteral : literal? (c :: w) with
  | some found =>
    rw [hliteral] at h
    cases h
    refine ⟨found.2, rfl, fun rounds value t ht => ?_⟩
    rw [hstep rounds value t ht, hliteral]
    rfl
  | none =>
    simp only [hliteral, Option.map_none] at h hstep
    by_cases hminus : c = '-'
    · subst hminus
      simp only [if_true] at h hstep
      obtain ⟨left, hrest, hleft⟩ := number_word hs h
      exact ⟨left, hrest, fun rounds value t ht =>
        (hstep rounds value t ht).trans (hleft _ t ht)⟩
    · simp only [hminus, if_false] at h hstep
      obtain ⟨left, hrest, hleft⟩ := number_word hs h
      exact ⟨left, hrest, fun rounds value t ht =>
        (hstep rounds value t ht).trans (hleft _ t ht)⟩

end PolicyEditor.Json
