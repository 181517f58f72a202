import PolicyEditor.Proofs.Json.Lexemes
import PolicyEditor.Schema.Comments

/-!
What removing comments keeps: every newline, and of everything else the characters outside comments
in order, so that each of them can be found again in the text with comments.
-/

namespace PolicyEditor.Schema

open PolicyEditor.Json (isPlain StringText BetweenQuotes Lexemes)

/-- A quote after this text opens a string; no comment or other string holds it. -/
def OpensString (before : List Char) : Prop :=
  ∀ after, strip (before ++ '"' :: after) = strip before ++ '"' :: stripFrom .string after

/-! ### Newlines -/

theorem count_newline_stripFrom (region : Region) (s : List Char) :
    (stripFrom region s).count '\n' = s.count '\n' := by
  fun_induction stripFrom region s with
  | case1 => rfl
  | case2 rest ih | case3 rest ih | case9 rest ih =>
    simp [ih]
  | case4 c rest _ _ ih | case6 c rest _ ih =>
    simp only [List.count_cons, ih]
  | case5 c rest ih => simp only [List.count_cons, ih]
  | case7 rest ih | case10 rest _ ih => simp only [List.count_cons, ih]
  | case8 c rest hc ih | case11 c rest _ hc ih =>
    rw [ih, List.count_cons_of_ne hc]

/-! ### One character -/

theorem stripFrom_code_cons {c : Char} (hslash : c ≠ '/') (rest : List Char) :
    stripFrom .code (c :: rest) = c :: stripFrom (if c = '"' then .string else .code) rest := by
  rw [stripFrom]
  · exact fun _ heq _ => hslash heq
  · exact fun _ heq _ => hslash heq

theorem stripFrom_string_cons {c : Char} (hslash : c ≠ '\\') (rest : List Char) :
    stripFrom .string (c :: rest) = c :: stripFrom (if c = '"' then .code else .string) rest := by
  rw [stripFrom]
  exact fun _ _ heq _ => hslash heq

theorem stripFrom_lineComment_cons {c : Char} (hline : c ≠ '\n') (rest : List Char) :
    stripFrom .lineComment (c :: rest) = stripFrom .lineComment rest := by
  rw [stripFrom, if_neg hline]

theorem stripFrom_blockComment_cons {c : Char} (hline : c ≠ '\n') {rest : List Char}
    (hopen : ∀ s, c = '*' → rest = '/' :: s → False) :
    stripFrom .blockComment (c :: rest) = stripFrom .blockComment rest := by
  rw [stripFrom, if_neg hline]
  exact hopen

/-! ### Finding kept characters again -/

/-- Removing comments from a region on, a text keeps some characters and leads into another region,
whatever comes after it. -/
def Keeps (first : Region) (before kept : List Char) (last : Region) : Prop :=
  ∀ after, stripFrom first (before ++ after) = kept ++ stripFrom last after

theorem Keeps.append {first middle last : Region} {s t kept more : List Char}
    (hs : Keeps first s kept middle) (ht : Keeps middle t more last) :
    Keeps first (s ++ t) (kept ++ more) last := by
  intro after
  rw [List.append_assoc, hs, ht, List.append_assoc]

/-- A character that is kept outside strings stands in the text after comments alone. -/
theorem kept_char {region : Region} {text rest : List Char} {c : Char} (hregion : region ≠ .string)
    (hslash : c ≠ '/') (h : stripFrom region text = c :: rest) :
    ∃ before after last, text = before ++ c :: after ∧ rest = stripFrom last after ∧
      stripFrom region before = [] ∧ Keeps region (before ++ [c]) [c] last ∧
      (last = .string ↔ c = '"') := by
  fun_induction stripFrom region text generalizing rest with
  | case1 => cases h
  | case2 tail ih =>
    obtain ⟨before, after, last, rfl, hrest, hnone, hkeeps, hlast⟩ := ih nofun h
    exact ⟨'/' :: '/' :: before, after, last, rfl, hrest, hnone, hkeeps, hlast⟩
  | case3 tail ih =>
    obtain ⟨before, after, last, rfl, hrest, hnone, hkeeps, hlast⟩ := ih nofun h
    exact ⟨'/' :: '*' :: before, after, last, rfl, hrest, hnone, hkeeps, hlast⟩
  | case4 d tail _ _ _ =>
    obtain ⟨rfl, rfl⟩ := List.cons.inj h
    refine ⟨[], tail, _, rfl, rfl, rfl, fun after => ?_, ?_⟩
    · exact stripFrom_code_cons hslash after
    · by_cases hquote : d = '"'
      · simp only [hquote, if_true]
      · simp only [hquote, if_false, reduceCtorEq]
  | case5 | case6 => exact absurd rfl hregion
  | case7 tail _ =>
    obtain ⟨rfl, rfl⟩ := List.cons.inj h
    exact ⟨[], tail, .code, rfl, rfl, rfl, fun _ => rfl, by decide⟩
  | case8 d tail hd ih =>
    obtain ⟨before, after, last, rfl, hrest, hnone, hkeeps, hlast⟩ := ih nofun h
    refine ⟨d :: before, after, last, rfl, hrest,
      (stripFrom_lineComment_cons hd _).trans hnone, fun after => ?_, hlast⟩
    exact (stripFrom_lineComment_cons hd _).trans (hkeeps after)
  | case9 tail ih =>
    obtain ⟨before, after, last, rfl, hrest, hnone, hkeeps, hlast⟩ := ih nofun h
    exact ⟨'*' :: '/' :: before, after, last, rfl, hrest, hnone, hkeeps, hlast⟩
  | case10 tail _ _ =>
    obtain ⟨rfl, rfl⟩ := List.cons.inj h
    refine ⟨[], tail, .blockComment, rfl, rfl, rfl, fun _ => rfl, by decide⟩
  | case11 d tail hopen hd ih =>
    obtain ⟨before, after, last, rfl, hrest, hnone, hkeeps, hlast⟩ := ih nofun h
    -- The comment goes on, whatever follows: what is left out before the kept character begins with
    -- no slash, and that character is none.
    have hopen' : ∀ more, ∀ s, d = '*' → before ++ [c] ++ more = '/' :: s → False := by
      intro more s hstar hs
      cases before with
      | nil => exact hslash (List.cons.inj hs).1
      | cons b before =>
        obtain ⟨rfl, -⟩ := List.cons.inj hs
        exact hopen _ hstar rfl
    refine ⟨d :: before, after, last, rfl, hrest, ?_, fun more => ?_, hlast⟩
    · refine (stripFrom_blockComment_cons hd fun s hstar hs => ?_).trans hnone
      exact hopen _ hstar (congrArg (· ++ c :: after) hs)
    · exact (stripFrom_blockComment_cons hd (hopen' more)).trans (hkeeps more)

/-- A string is kept as it stands. -/
theorem keeps_text {raw : List Char} (h : BetweenQuotes raw) :
    Keeps .string (raw ++ ['"']) (raw ++ ['"']) .code := by
  intro after
  induction h with
  | nil => rfl
  | @plain c s hquote hslash _ ih =>
    rw [List.cons_append, List.cons_append, stripFrom_string_cons hslash, if_neg hquote, ih]
    rfl
  | @escape c s _ _ ih => exact congrArg (fun more => '\\' :: c :: more) ih

/-- A character that is kept in a string stands in front. -/
theorem kept_inside {text rest : List Char} {c : Char} (hslash : c ≠ '\\')
    (h : stripFrom .string text = c :: rest) :
    ∃ tail, text = c :: tail ∧ rest = stripFrom (if c = '"' then .code else .string) tail := by
  cases text with
  | nil => cases h
  | cons d tail =>
    by_cases hd : d = '\\'
    · subst hd
      cases tail <;> exact absurd (List.cons.inj h).1.symm hslash
    · rw [stripFrom_string_cons hd] at h
      obtain ⟨rfl, rfl⟩ := List.cons.inj h
      exact ⟨tail, rfl, rfl⟩

theorem kept_escape {text rest : List Char} {c : Char}
    (h : stripFrom .string text = '\\' :: c :: rest) :
    ∃ tail, text = '\\' :: c :: tail ∧ rest = stripFrom .string tail := by
  cases text with
  | nil => cases h
  | cons d tail =>
    by_cases hd : d = '\\'
    · subst hd
      cases tail with
      | nil => cases h
      | cons e tail =>
        have hkept : '\\' :: e :: stripFrom .string tail = '\\' :: c :: rest := h
        obtain ⟨-, rfl, rfl⟩ := (List.cons.inj hkept).imp_right List.cons.inj
        exact ⟨tail, rfl, rfl⟩
    · rw [stripFrom_string_cons hd] at h
      exact absurd (List.cons.inj h).1 hd

/-- A string that is kept was there. -/
theorem kept_text {raw : List Char} (h : BetweenQuotes raw) {text rest : List Char}
    (hkept : stripFrom .string text = raw ++ '"' :: rest) :
    ∃ after, text = raw ++ '"' :: after ∧ rest = stripFrom .code after := by
  induction h generalizing text with
  | nil => exact kept_inside (by decide) hkept
  | @plain c s hquote hslash _ ih =>
    obtain ⟨tail, rfl, htail⟩ := kept_inside hslash hkept
    rw [if_neg hquote] at htail
    obtain ⟨after, rfl, hrest⟩ := ih htail.symm
    exact ⟨after, rfl, hrest⟩
  | @escape c s _ _ ih =>
    obtain ⟨tail, rfl, htail⟩ := kept_escape hkept
    obtain ⟨after, rfl, hrest⟩ := ih htail.symm
    exact ⟨after, rfl, hrest⟩

def Found (region : Region) (text kept rest : List Char) : Prop :=
  ∃ before after last, text = before ++ after ∧ rest = stripFrom last after ∧
    Keeps region before kept last ∧ last ≠ .string

theorem found_cons {region : Region} {text kept rest : List Char} {c : Char}
    (hregion : region ≠ .string) (hc : c ≠ '/' ∧ c ≠ '"')
    (hkept : stripFrom region text = c :: (kept ++ rest))
    (hfound : ∀ {middle tail}, middle ≠ .string → stripFrom middle tail = kept ++ rest →
      Found middle tail kept rest) : Found region text (c :: kept) rest := by
  obtain ⟨before, after, middle, rfl, htail, -, hkeeps, hmiddle⟩ := kept_char hregion hc.1 hkept
  obtain ⟨more, after, last, rfl, hrest, hmore, hlast⟩ :=
    hfound (mt hmiddle.mp hc.2) htail.symm
  refine ⟨before ++ [c] ++ more, after, last, ?_, hrest, hkeeps.append hmore, hlast⟩
  simp only [List.append_assoc, List.cons_append, List.nil_append]

/-- Lexemes that are kept stand in the text with comments around them. -/
theorem found_lexemes {d e : Nat} {kept : List Char} (h : Lexemes d e kept) {region : Region}
    {text rest : List Char} (hregion : region ≠ .string)
    (hkept : stripFrom region text = kept ++ rest) : Found region text kept rest := by
  induction h generalizing region text with
  | nil => exact ⟨[], text, region, rfl, hkept.symm, fun _ => rfl, hregion⟩
  | plain hc _ ih =>
    refine found_cons hregion ⟨?_, ?_⟩ hkept ih <;> rintro rfl <;> cases hc
  | @text d e raw s hraw _ ih =>
    obtain ⟨before, inside, middle, rfl, hinside, -, hquote, hmiddle⟩ :=
      kept_char hregion (by decide) hkept
    obtain rfl := hmiddle.mpr rfl
    have hstring : stripFrom .string inside = raw ++ '"' :: (s ++ rest) := by
      rw [← hinside]
      exact List.append_assoc _ _ _
    obtain ⟨tail, rfl, htail⟩ := kept_text hraw.betweenQuotes hstring
    obtain ⟨more, after, last, rfl, hrest, hmore, hlast⟩ := ih (by decide) htail.symm
    have hkeeps := (hquote.append (keeps_text hraw.betweenQuotes)).append hmore
    refine ⟨before ++ ['"'] ++ (raw ++ ['"']) ++ more, after, last, ?_, hrest, ?_, hlast⟩
    · simp only [List.append_assoc, List.cons_append, List.nil_append]
    · simpa only [List.append_assoc, List.cons_append, List.nil_append] using hkeeps
  | opening hc _ ih =>
    refine found_cons hregion ?_ hkept ih
    rcases hc with rfl | rfl <;> decide
  | closing hc _ ih =>
    refine found_cons hregion ?_ hkept ih
    rcases hc with rfl | rfl <;> decide

/-- A quote that is kept after lexemes opens a string in the text with comments. -/
theorem opensString_of_lexemes {d e : Nat} {kept text rest : List Char} (h : Lexemes d e kept)
    (hkept : strip text = kept ++ '"' :: rest) :
    ∃ before after, text = before ++ '"' :: after ∧ rest = stripFrom .string after ∧
      OpensString before := by
  obtain ⟨before, tail, last, rfl, htail, hbefore, hlast⟩ := found_lexemes h (by decide) hkept
  obtain ⟨skipped, after, inside, rfl, hrest, hnone, hquote, hinside⟩ :=
    kept_char hlast (by decide) htail.symm
  obtain rfl := hinside.mpr rfl
  have hkept : strip (before ++ skipped) = kept := by
    rw [strip, hbefore, hnone, List.append_nil]
  refine ⟨before ++ skipped, after, (List.append_assoc _ _ _).symm, hrest, fun more => ?_⟩
  have hall := (hbefore.append hquote) more
  rw [hkept]
  simpa only [strip, List.append_assoc, List.singleton_append] using hall

end PolicyEditor.Schema
