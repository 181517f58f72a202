import PolicyEditor.Proofs.Json.Spacing
import PolicyEditor.Proofs.Schema.Comments

/-!
Documents with comments between their tokens: without the comments they are read as before.
-/

namespace PolicyEditor.Schema

open PolicyEditor.Json (Inserted Blank Splits StringText EndsWord isWordChar)

/-- A comment as a whole. A line comment has its newline, a block comment ends where it is closed
first. -/
inductive IsComment : List Char → Prop where
  | line (content : List Char) : '\n' ∉ content → IsComment ('/' :: '/' :: content ++ ['\n'])
  | block (content : List Char) : ¬ ['*', '/'] <:+: content →
      IsComment ('/' :: '*' :: content ++ ['*', '/'])

/-! ### Comments -/

theorem keeps_line {content : List Char} (h : '\n' ∉ content) :
    Keeps .lineComment (content ++ ['\n']) ['\n'] .code := by
  intro after
  induction content with
  | nil => rfl
  | cons c content ih =>
    obtain ⟨hc, hcontent⟩ := not_or.mp (mt List.mem_cons.mpr h)
    exact (stripFrom_lineComment_cons (Ne.symm hc) _).trans (ih hcontent)

/-- A block comment goes on up to the first star with a slash after it. -/
theorem keeps_block {content : List Char} (h : ¬ ['*', '/'] <:+: content) :
    Keeps .blockComment (content ++ ['*', '/']) (List.replicate (content.count '\n') '\n')
      .code := by
  intro after
  induction content with
  | nil => rfl
  | cons c content ih =>
    have hrest := ih fun hwithin => h (hwithin.trans (List.suffix_cons c content).isInfix)
    by_cases hline : c = '\n'
    · subst hline
      rw [List.count_cons_self, List.replicate_succ]
      exact congrArg ('\n' :: ·) hrest
    · rw [List.count_cons_of_ne hline]
      refine (stripFrom_blockComment_cons hline fun s hstar hs => ?_).trans hrest
      -- What follows a star in the comment is no slash.
      cases content with
      | nil => exact absurd (List.cons.inj hs).1 (by decide)
      | cons d content =>
        obtain ⟨rfl, -⟩ := List.cons.inj hs
        exact h (hstar ▸ (List.prefix_append ['*', '/'] content).isInfix)

/-- Of a comment only its newlines are kept. -/
theorem IsComment.keeps {comment : List Char} (h : IsComment comment) :
    ∃ kept, Blank kept ∧ Keeps .code comment kept .code := by
  cases h with
  | line _ hcontent => exact ⟨['\n'], rfl, keeps_line hcontent⟩
  | block content hcontent =>
    refine ⟨List.replicate (content.count '\n') '\n', ?_, keeps_block hcontent⟩
    exact List.all_eq_true.mpr fun c hc => by rw [List.eq_of_mem_replicate hc]; rfl

/-! ### Tokens -/

/-- Characters of a class without slashes and quotes are kept. -/
theorem strip_cons {p : Char → Bool} (hslash : p '/' = false) (hquote : p '"' = false) {c : Char}
    (hc : p c = true) (s : List Char) : strip (c :: s) = c :: strip s := by
  have hne : ∀ d, p d = false → c ≠ d := by
    rintro d hd rfl
    exact absurd hc (by rw [hd]; decide)
  rw [strip, stripFrom_code_cons (hne '/' hslash), if_neg (hne '"' hquote)]
  rfl

theorem strip_word {w : List Char} (hw : w.all isWordChar = true) (s : List Char) :
    strip (w ++ s) = w ++ strip s := by
  induction w with
  | nil => rfl
  | cons c w ih =>
    obtain ⟨hc, hw⟩ := Bool.and_eq_true_iff.mp hw
    rw [List.cons_append, strip_cons rfl rfl hc, ih hw]
    rfl

theorem strip_text {raw : List Char} (h : StringText raw) (s : List Char) :
    strip ('"' :: raw ++ '"' :: s) = '"' :: raw ++ '"' :: strip s := by
  have hkeeps := keeps_text h.betweenQuotes s
  rw [List.append_assoc, List.append_assoc] at hkeeps
  exact congrArg ('"' :: ·) hkeeps

/-- Removing comments keeps the tokens, and of what is inserted what it keeps of it. -/
theorem inserted_strip {P Q : List Char → Prop}
    (hkeeps : ∀ m, P m → ∃ kept, Q kept ∧ Keeps .code m kept .code) {s t : List Char}
    (h : Inserted P s t) : Inserted Q s (strip t) := by
  induction h with
  | nil => exact .nil
  | @insert more s t hmore _ ih =>
    obtain ⟨kept, hkept, hstrip⟩ := hkeeps more hmore
    have hsplit : strip (more ++ t) = kept ++ strip t := hstrip t
    rw [hsplit]
    exact .insert hkept ih
  | space hc _ ih =>
    rw [strip_cons rfl rfl hc]
    exact .space hc ih
  | mark hc _ ih =>
    rw [strip_cons rfl rfl hc]
    exact .mark hc ih
  | text hraw _ ih =>
    rw [strip_text hraw]
    exact .text hraw ih
  | word hne hw hs _ ih =>
    rw [strip_word hw]
    exact .word hne hw hs ih

/-- A document is left as it is by removing comments; and with comments between its tokens, however
many at each place, it is read without them as before. -/
theorem decode_strip_commented {s : List Char} {v : Json} (h : Json.decode s = .ok v) :
    Splits s ∧ strip s = s ∧
      ∀ t, Inserted IsComment s t → Json.decode (strip t) = .ok v := by
  have hsplits := Json.splits_of_decode h
  refine ⟨hsplits, (inserted_strip (fun _ hm => hm.elim) hsplits).eq_of_none, fun t ht => ?_⟩
  exact (inserted_strip (fun _ hm => hm.keeps) ht).decode_eq h

def quotingDocument : String :=
  "\x7b\"//\": [\"\\\"/*\", -1]\x7d"

def quotingDocumentCommented : String :=
  "/* \" // */\x7b\"//\"// \x7b /*\n: [\"\\\"/*\"/***/, -1/*\n*//*/*/]\x7d"

def quotingValue : Json :=
  .obj [("//", .arr [.str "\"/*", .int (-1)])]

theorem quotingDocument_inserted :
    Inserted IsComment quotingDocument.toList quotingDocumentCommented.toList := by
  have hfirst : IsComment "/* \" // */".toList := .block " \" // ".toList (by decide +kernel)
  have hline : IsComment "// \x7b /*\n".toList := .line " \x7b /*".toList (by decide +kernel)
  have hstar : IsComment "/***/".toList := .block "*".toList (by decide +kernel)
  have hbreak : IsComment "/*\n*/".toList := .block "\n".toList (by decide +kernel)
  have hslash : IsComment "/*/*/".toList := .block "/".toList (by decide +kernel)
  have hkey : StringText "//".toList :=
    .plain (by decide) (by decide) (by decide) (.plain (by decide) (by decide) (by decide) .nil)
  have hquoting : StringText "\\\"/*".toList :=
    .escape (by decide) (.plain (by decide) (by decide) (by decide)
      (.plain (by decide) (by decide) (by decide) .nil))
  have hends : EndsWord "]\x7d".toList := by
    rintro _ ⟨⟩
    rfl
  -- The document from its last token to its first.
  have hclose : Inserted IsComment "]\x7d".toList
      ("/*\n*/".toList ++ ("/*/*/".toList ++ "]\x7d".toList)) :=
    .insert hbreak (.insert hslash (.mark rfl (.mark rfl .nil)))
  have hnumber : Inserted IsComment ", -1]\x7d".toList
      ("/***/".toList ++ ", -1/*\n*//*/*/]\x7d".toList) :=
    .insert hstar (.mark rfl (.space rfl (.word (w := ['-', '1']) (by decide) rfl hends hclose)))
  have hvalue : Inserted IsComment ": [\"\\\"/*\", -1]\x7d".toList
      ("// \x7b /*\n".toList ++ ": [\"\\\"/*\"/***/, -1/*\n*//*/*/]\x7d".toList) :=
    .insert hline (.mark rfl (.space rfl (.mark rfl (.text hquoting hnumber))))
  exact .insert hfirst (.mark rfl (.text hkey hvalue))

/-- Comments in every kind of place of a document whose strings look like comments themselves. -/
theorem decode_strip_commented_quoting :
    Json.decode quotingDocument.toList = .ok quotingValue ∧
      strip quotingDocument.toList = quotingDocument.toList ∧
      Inserted IsComment quotingDocument.toList quotingDocumentCommented.toList ∧
      Json.decode (strip quotingDocumentCommented.toList) = .ok quotingValue := by
  have hdecode : Json.decode quotingDocument.toList = .ok quotingValue := by rfl
  obtain ⟨-, hsame, hcommented⟩ := decode_strip_commented hdecode
  exact ⟨hdecode, hsame, quotingDocument_inserted, hcommented _ quotingDocument_inserted⟩

end PolicyEditor.Schema
