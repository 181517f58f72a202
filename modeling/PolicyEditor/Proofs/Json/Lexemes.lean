import PolicyEditor.Proofs.Json.Reading

/-!
Documents as lexemes: strings, brackets and single characters. What the decoder reads as a value is
a word, a string, or text between brackets that match.
-/

namespace PolicyEditor.Json

/-- A character that begins neither a string nor a comment and is no bracket. -/
def isPlain (c : Char) : Bool :=
  !(['"', '/', '{', '[', '}', ']'].contains c)

/-- Text without comments that leads from one depth of brackets to another, and on its way never
closes a bracket that it did not open below the first depth. -/
inductive Lexemes : Nat → Nat → List Char → Prop where
  | nil {d : Nat} : Lexemes d d []
  | plain {d e : Nat} {c : Char} {s : List Char} : isPlain c = true → Lexemes d e s →
      Lexemes d e (c :: s)
  | text {d e : Nat} {raw s : List Char} : StringText raw → Lexemes d e s →
      Lexemes d e ('"' :: raw ++ '"' :: s)
  | opening {d e : Nat} {c : Char} {s : List Char} : c = '{' ∨ c = '[' → Lexemes (d + 1) e s →
      Lexemes d e (c :: s)
  | closing {d e : Nat} {c : Char} {s : List Char} : c = '}' ∨ c = ']' → Lexemes d e s →
      Lexemes (d + 1) e (c :: s)

inductive ValueText : List Char → Prop where
  | word {s : List Char} : s.all isWordChar = true → ValueText s
  | text {raw : List Char} : StringText raw → ValueText ('"' :: raw ++ ['"'])
  | bracketed {first last : Char} {inside : List Char} : first = '{' ∨ first = '[' →
      last = '}' ∨ last = ']' → Lexemes 0 0 inside → ValueText (first :: inside ++ [last])

def TakesValue (s : List Char) (_ : Json) (rest : List Char) : Prop :=
  ∃ used, ValueText used ∧ s = used ++ rest

/-! ### Putting lexemes together -/

theorem Lexemes.append {d e f : Nat} {s t : List Char} (hs : Lexemes d e s)
    (ht : Lexemes e f t) : Lexemes d f (s ++ t) := by
  induction hs with
  | nil => exact ht
  | plain hc _ ih => exact .plain hc (ih ht)
  | text hraw _ ih =>
    rw [List.append_assoc]
    exact .text hraw (ih ht)
  | opening hc _ ih => exact .opening hc (ih ht)
  | closing hc _ ih => exact .closing hc (ih ht)

theorem Lexemes.deeper {d e : Nat} {s : List Char} (h : Lexemes d e s) :
    Lexemes (d + 1) (e + 1) s := by
  induction h with
  | nil => exact .nil
  | plain hc _ ih => exact .plain hc ih
  | text hraw _ ih => exact .text hraw ih
  | opening hc _ ih => exact .opening hc ih
  | closing hc _ ih => exact .closing hc ih

theorem lexemes_of_all {s : List Char} (h : s.all isPlain = true) (d : Nat) : Lexemes d d s := by
  induction s with
  | nil => exact .nil
  | cons c s ih =>
    obtain ⟨hc, hs⟩ := Bool.and_eq_true_iff.mp h
    exact .plain hc (ih hs)

theorem isPlain_of_isWordChar {c : Char} (h : isWordChar c = true) : isPlain c = true := by
  simp only [isPlain, Bool.not_eq_true', List.contains_eq_mem, decide_eq_false_iff_not,
    List.mem_cons, List.not_mem_nil, or_false, not_or]
  refine ⟨?_, ?_, ?_, ?_, ?_, ?_⟩ <;> rintro rfl <;> exact absurd h (by decide)

theorem isPlain_of_isSpace {c : Char} (h : isSpace c = true) : isPlain c = true := by
  simp only [isSpace, Bool.or_eq_true, beq_iff_eq] at h
  rcases h with ((rfl | rfl) | rfl) | rfl <;> decide

theorem skipSpace_split (s : List Char) :
    ∃ space, space.all isPlain = true ∧ s = space ++ skipSpace s := by
  refine ⟨s.takeWhile isSpace, List.all_eq_true.mpr fun c hc => ?_,
    List.takeWhile_append_dropWhile.symm⟩
  exact isPlain_of_isSpace (List.all_eq_true.mp List.all_takeWhile c hc)

/-- White space and a character after it are lexemes. -/
theorem lexemes_upTo {s rest : List Char} {c : Char} (hc : isPlain c = true)
    (h : skipSpace s = c :: rest) : ∃ used, used.all isPlain = true ∧ s = used ++ rest := by
  obtain ⟨space, hspace, hs⟩ := skipSpace_split s
  refine ⟨space ++ [c], ?_, ?_⟩
  · rw [List.all_append, hspace, List.all_cons, hc]
    rfl
  · rw [List.append_assoc, List.singleton_append, ← h]
    exact hs

theorem ValueText.lexemes {s : List Char} (h : ValueText s) : Lexemes 0 0 s := by
  cases h with
  | word hs =>
    exact lexemes_of_all (List.all_eq_true.mpr fun c hc =>
      isPlain_of_isWordChar (List.all_eq_true.mp hs c hc)) 0
  | text hraw => exact .text hraw .nil
  | bracketed hfirst hlast hinside =>
    exact .opening hfirst (hinside.deeper.append (.closing hlast .nil))

/-! ### What is read -/

/-- A member is lexemes: its key, the colon and its value. -/
theorem ReadsMember.lexemes {s after : List Char} {m : Member}
    (h : ReadsMember TakesValue s m after) : ∃ used, Lexemes 0 0 used ∧ s = used ++ after := by
  obtain ⟨raw, _, afterKey, afterColon, hraw, -, rfl, hcolon, ⟨value, hvalue, hsplit⟩, -⟩ := h
  obtain ⟨colon, hplain, rfl⟩ := lexemes_upTo (by decide) hcolon
  obtain ⟨space, hspace, hafter⟩ := skipSpace_split afterColon
  refine ⟨'"' :: raw ++ '"' :: (colon ++ (space ++ value)), .text hraw
    ((lexemes_of_all hplain 0).append ((lexemes_of_all hspace 0).append hvalue.lexemes)), ?_⟩
  rw [hafter, hsplit]
  simp only [List.append_assoc, List.cons_append]

theorem Elements.lexemes {s rest : List Char} {vs : List Json}
    (h : Elements TakesValue s vs rest) :
    ∃ inside, Lexemes 0 0 inside ∧ s = inside ++ ']' :: rest := by
  induction h with
  | @last s after rest v hv hclose =>
    obtain ⟨value, hvalue, rfl⟩ := hv
    obtain ⟨space, hspace, hafter⟩ := skipSpace_split after
    refine ⟨value ++ space, hvalue.lexemes.append (lexemes_of_all hspace 0), ?_⟩
    rw [List.append_assoc, ← hclose, ← hafter]
  | @more s after next rest v vs hv hcomma _ ih =>
    obtain ⟨value, hvalue, rfl⟩ := hv
    obtain ⟨comma, hplain, rfl⟩ := lexemes_upTo (by decide) hcomma
    obtain ⟨space, hspace, hnext⟩ := skipSpace_split next
    obtain ⟨inside, hinside, hrest⟩ := ih
    refine ⟨value ++ (comma ++ (space ++ inside)), hvalue.lexemes.append
      ((lexemes_of_all hplain 0).append ((lexemes_of_all hspace 0).append hinside)), ?_⟩
    rw [hnext, hrest]
    simp only [List.append_assoc]

/-- The places of the members of an object: lexemes lead up to each of them and to the last brace. -/
theorem Members.lexemes {s rest : List Char} {ms : List Member}
    (h : Members TakesValue s ms rest) :
    (∀ m ∈ ms, ∃ before, Lexemes 0 0 before ∧ s = before ++ m.place) ∧
      ∃ inside, Lexemes 0 0 inside ∧ s = inside ++ '}' :: rest := by
  induction h with
  | @last s after rest m hm hclose =>
    obtain ⟨member, hmember, hsplit⟩ := hm.lexemes
    obtain ⟨space, hspace, hafter⟩ := skipSpace_split after
    refine ⟨List.forall_mem_singleton.mpr ⟨[], .nil, hm.place_eq.symm⟩, member ++ space,
      hmember.append (lexemes_of_all hspace 0), ?_⟩
    rw [hsplit, List.append_assoc, ← hclose, ← hafter]
  | @more s after next rest m ms hm hcomma _ ih =>
    obtain ⟨member, hmember, hsplit⟩ := hm.lexemes
    obtain ⟨comma, hplain, rfl⟩ := lexemes_upTo (by decide) hcomma
    obtain ⟨space, hspace, hnext⟩ := skipSpace_split next
    have hused : Lexemes 0 0 (member ++ (comma ++ space)) :=
      hmember.append ((lexemes_of_all hplain 0).append (lexemes_of_all hspace 0))
    have hs : s = member ++ (comma ++ space) ++ skipSpace next := by
      rw [hsplit, List.append_assoc, List.append_assoc, ← hnext]
    obtain ⟨hplaces, inside, hinside, hrest⟩ := ih
    refine ⟨List.forall_mem_cons.mpr ⟨⟨[], .nil, hm.place_eq.symm⟩, fun other hother => ?_⟩,
      member ++ (comma ++ space) ++ inside, hused.append hinside, ?_⟩
    · obtain ⟨before, hbefore, hplace⟩ := hplaces other hother
      refine ⟨member ++ (comma ++ space) ++ before, hused.append hbefore, ?_⟩
      rw [List.append_assoc _ before, ← hplace]
      exact hs
    · rw [List.append_assoc _ inside, ← hrest]
      exact hs

/-- Brackets with lexemes between them are a value, blanks after the first bracket aside. -/
theorem takesValue_bracketed {first last : Char} {inside lexemes rest : List Char} {v : Json}
    (hfirst : first = '{' ∨ first = '[') (hlast : last = '}' ∨ last = ']')
    (hlexemes : Lexemes 0 0 lexemes) (hinside : skipSpace inside = lexemes ++ last :: rest) :
    TakesValue (first :: inside) v rest := by
  obtain ⟨space, hspace, hsplit⟩ := skipSpace_split inside
  refine ⟨first :: (space ++ lexemes) ++ [last],
    .bracketed hfirst hlast ((lexemes_of_all hspace 0).append hlexemes), ?_⟩
  rw [hsplit, hinside]
  simp only [List.cons_append, List.append_assoc, List.nil_append]

theorem takesValue_closed : ClosedUnderReading TakesValue where
  word hword := ⟨_, .word hword.chars, rfl⟩
  text hraw _ := ⟨_, .text hraw, by simp only [List.cons_append, List.append_assoc,
    List.nil_append]⟩
  emptyArray hclose := takesValue_bracketed (.inr rfl) (.inr rfl) .nil hclose
  array helements := by
    obtain ⟨inside, hinside, hsplit⟩ := helements.lexemes
    exact takesValue_bracketed (.inr rfl) (.inr rfl) hinside hsplit
  emptyObject hclose := takesValue_bracketed (.inl rfl) (.inl rfl) .nil hclose
  object hmembers := by
    obtain ⟨-, inside, hinside, hsplit⟩ := hmembers.lexemes
    exact takesValue_bracketed (.inl rfl) (.inl rfl) hinside hsplit

/-- Lexemes lead into the braces of an object and up to the quote that opens a key. -/
theorem ReadsObject.lexemes {s rest : List Char} {ms : List Member}
    (h : ReadsObject TakesValue s ms rest) {m : Member} (hm : m ∈ ms) :
    ∃ before inside, Lexemes 0 1 before ∧ s = before ++ '"' :: inside ∧
      m.place = '"' :: inside := by
  obtain ⟨inside, rfl, ⟨rfl, -⟩ | hms⟩ := h
  · cases hm
  · obtain ⟨space, hspace, hinside⟩ := skipSpace_split inside
    obtain ⟨before, hbefore, hplace⟩ := hms.lexemes.1 m hm
    obtain ⟨after, hquote⟩ := hms.forall_mem (fun m => ∃ after, m.place = '"' :: after)
      (fun ⟨_, _, _, _, _, _, hs, _, _, hplace, _⟩ => ⟨_, hplace.trans hs⟩) m hm
    refine ⟨'{' :: (space ++ before), after,
      .opening (.inl rfl) ((lexemes_of_all hspace 1).append hbefore.deeper), ?_, hquote⟩
    rw [← hquote, List.cons_append, List.append_assoc, ← hplace, ← hinside]

end PolicyEditor.Json
