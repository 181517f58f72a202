import PolicyEditor.Proofs.Token.Boundary
import PolicyEditor.Proofs.Token.Splitting

/-!
Two texts one after another. If the first one ends with a line break and leaves no raw string open,
and the second one does not begin with a blank, then no token reaches from one into the other: the
tokens of both are those of the first and those of the second, moved behind it.
-/

namespace PolicyEditor.Token

open PolicyEditor.Text

/-- A text that is empty or ends with a line break. -/
def WholeLines (s : List Char) : Prop :=
  s = [] ∨ ∃ front, s = front ++ ['\n']

theorem WholeLines.of_append {chars rest : List Char} (h : WholeLines (chars ++ rest)) :
    WholeLines rest := by
  rcases List.eq_nil_or_concat rest with hrest | ⟨mid, c, hrest⟩
  · exact .inl hrest
  rcases h with h | ⟨front, h⟩
  · exact .inl (List.append_eq_nil_iff.mp h).2
  · rw [hrest, List.concat_eq_append, ← List.append_assoc] at h
    have hc : c = '\n' := List.singleton_inj.mp (List.append_inj' h rfl).2
    exact .inr ⟨mid, by rw [hrest, hc, List.concat_eq_append]⟩

theorem WholeLines.newline_mem {s : List Char} (h : WholeLines s) (hne : s ≠ []) : '\n' ∈ s := by
  obtain ⟨front, rfl⟩ := h.resolve_left hne
  exact List.mem_append_right front List.mem_cons_self

/-- The longest text of a class without line breaks ends within its line. -/
theorem Longest.of_wholeLines {P : List Char → Prop} {chars rest : List Char}
    (h : Longest P chars rest) (hne : chars ≠ []) (hline : ∀ s, P s → '\n' ∉ s)
    (hlines : WholeLines (chars ++ rest)) (more : List Char) : Longest P chars (rest ++ more) := by
  rcases hlines.of_append with rfl | ⟨mid, rfl⟩
  · rw [List.append_nil] at hlines
    exact absurd (hlines.newline_mem hne) (hline chars h.1)
  -- A longer text of the class that used what follows would reach over the line break.
  · have hmid : Longest P chars mid := ⟨h.1, fun s hs hP => h.2 s
      (hs.trans (by rw [← List.append_assoc]; exact List.prefix_append _ _)) hP⟩
    rw [List.append_assoc, List.singleton_append]
    exact hmid.of_stop hline more

/-- A run of blanks ends before a character that is none, be it of this text or the next one. -/
theorem longest_blanks_append {chars rest more : List Char} (h : Longest (Run isBlank) chars rest)
    (hmore : ∀ c ∈ more.head?, isBlank c = false) :
    Longest (Run isBlank) chars (rest ++ more) := by
  have hnext : ∀ c ∈ (rest ++ more).head?, isBlank c = false := by
    cases rest with
    | nil => exact hmore
    | cons c rest =>
      rintro _ ⟨rfl⟩
      by_contra hblank
      -- A blank more would make a longer run.
      have hlonger := h.2 (chars ++ [c]) ⟨rest, by simp⟩
        ⟨by simp, List.forall_mem_append.mpr ⟨h.1.2, by simpa using hblank⟩⟩
      rw [List.length_append, List.length_singleton] at hlonger
      omega
  refine ⟨h.1, fun s hs hrun => ?_⟩
  rcases hall : rest ++ more with _ | ⟨c, after⟩
  · rw [hall, List.append_nil] at hs
    exact hs.length_le
  · rw [hall] at hs hnext
    have hc : c ∉ s := fun hmem => by
      have hblank := hrun.2 c hmem
      rw [hnext c rfl] at hblank
      cases hblank
    exact (prefix_of_not_mem hs hc).length_le

theorem newline_not_mem {s : List Char} (h : ∀ c ∈ s, isBlank c = false) : '\n' ∉ s := fun hmem => by
  have hblank := h _ hmem
  rw [isBlank_newline] at hblank
  cases hblank

theorem Comment.no_newline {s : List Char} (h : Comment s) : '\n' ∉ s := by
  obtain ⟨body, rfl, hbody⟩ := h
  simpa using hbody

theorem OpenQuoted.no_newline {s : List Char} (h : OpenQuoted s) : '\n' ∉ s := by
  obtain ⟨body, rfl, hbody⟩ := h
  simpa using hbody

theorem Begins.ne_nil {k : Kind} {chars rest : List Char} (h : Begins k chars rest) : chars ≠ [] := by
  obtain ⟨c, tail, rfl, -⟩ := h.reach_eq
  exact List.cons_ne_nil c tail

/-- A raw string that nothing closes: an invalid token that begins with a backquote. -/
def OpensRaw (t : Token) : Prop :=
  t.kind = .invalid ∧ t.chars.head? = some '`'

instance (t : Token) : Decidable t.OpensRaw :=
  inferInstanceAs (Decidable (_ ∧ _))

/-- A raw string that nothing closes takes all that is left of the text. -/
theorem Begins.eq_nil_of_opensRaw {t : Token} {rest : List Char} (h : Begins t.kind t.chars rest)
    (hraw : t.OpensRaw) : rest = [] := by
  obtain ⟨k, chars, start⟩ := t
  obtain ⟨rfl, hhead⟩ : k = .invalid ∧ chars.head? = some '`' := hraw
  generalize hk : Kind.invalid = k at h
  cases h with
  | openString h =>
    obtain ⟨body, rfl, -⟩ := h.1
    cases hhead
  | openRawString => rfl
  | alien h => exact absurd (Option.some.inj hhead) h.backquote
  | sign _ hspells => cases hspells <;> cases hk
  | _ => cases hk

/-- A quoted string within whole lines and what follows them is within the lines. -/
theorem Quoted.within_lines {s t more : List Char} (h : Quoted s) (hlines : WholeLines t)
    (ht : t ≠ []) (hs : s <+: t ++ more) : s <+: t := by
  obtain ⟨front, rfl⟩ := hlines.resolve_left ht
  rw [List.append_assoc, List.singleton_append] at hs
  exact (prefix_of_not_mem hs h.no_newline).trans (List.prefix_append front ['\n'])

/-- The tokens of whole lines stay what they are when another text follows. -/
theorem Begins.append {t : Token} {rest more : List Char} (h : Begins t.kind t.chars rest)
    (hraw : ¬ t.OpensRaw) (hlines : WholeLines (t.chars ++ rest))
    (hmore : ∀ c ∈ more.head?, isBlank c = false) : Begins t.kind t.chars (rest ++ more) := by
  obtain ⟨k, chars, start⟩ := t
  have hne : chars ≠ [] := h.ne_nil
  -- Tokens in quotes end themselves, blanks at the next text, all others before the line break.
  cases h with
  | whitespace h => exact .whitespace (longest_blanks_append h hmore)
  | comment h =>
    refine .comment (h.of_wholeLines hne (fun s hs => ?_) hlines more)
    exact hs.no_newline
  | string h => exact .string (h.1.longest _)
  | openString h hnone =>
    refine .openString (h.of_wholeLines hne (fun s hs => hs.no_newline) hlines more) ?_
    -- The quote that is missing on its line does not stand on a later one.
    intro s hs hquoted
    rw [← List.append_assoc] at hs
    exact hnone s (hquoted.within_lines hlines (by simp [hne]) hs) hquoted
  | rawString h => exact .rawString (h.1.longest _)
  | openRawString => exact absurd ⟨rfl, rfl⟩ hraw
  | number h =>
    exact .number (h.of_wholeLines hne (fun s hs => newline_not_mem hs.no_blank) hlines more)
  | keyword word h =>
    exact .keyword word (h.of_wholeLines hne (fun s hs => newline_not_mem hs.no_blank) hlines more)
  | identifier h hword =>
    exact .identifier (h.of_wholeLines hne (fun s hs => newline_not_mem hs.no_blank) hlines more)
      hword
  | sign h hspells =>
    exact .sign (h.of_wholeLines hne (fun s hs => newline_not_mem hs.no_blank) hlines more) hspells
  | alien h => exact .alien h

theorem Splits.append {pos : Nat} {s more : List Char} {ts us : List Token} (h : Splits pos s ts)
    (hraw : ∀ t ∈ ts.getLast?, ¬ t.OpensRaw) (hlines : WholeLines s)
    (hmore : ∀ c ∈ more.head?, isBlank c = false) (hus : Splits (pos + s.length) more us) :
    Splits pos (s ++ more) (ts ++ us) := by
  induction h with
  | nil => exact hus
  | @cons k chars rest pos ts hbegins hrest ih =>
    -- Nothing stands behind an open raw string, so only the last token can be one.
    have hboth : ¬ (⟨k, chars, pos⟩ : Token).OpensRaw ∧ ∀ t ∈ ts.getLast?, ¬ t.OpensRaw := by
      cases hrest with
      | nil => exact ⟨hraw _ rfl, nofun⟩
      | cons hnext _ =>
        rw [List.getLast?_cons_cons] at hraw
        refine ⟨fun hopen => ?_, hraw⟩
        have hnil := hbegins.eq_nil_of_opensRaw (t := ⟨k, chars, pos⟩) hopen
        exact hnext.ne_nil (List.append_eq_nil_iff.mp hnil).1
    have hstays := Begins.append (t := ⟨k, chars, pos⟩) hbegins hboth.1 hlines hmore
    rw [List.append_assoc, List.cons_append]
    refine .cons hstays (ih hboth.2 hlines.of_append ?_)
    rwa [Nat.add_assoc, ← List.length_append]

theorem scanFrom_shift (n skip pos : Nat) (s : List Char) :
    scanFrom skip (n + pos) s = (scanFrom skip pos s).map (shift n) := by
  induction s generalizing skip pos with
  | nil => cases skip <;> rfl
  | cons c rest ih =>
    cases skip with
    | zero => simp only [scanFrom, Nat.add_assoc, ih, List.map_cons, shift]
    | succ skip => simp only [scanFrom, Nat.add_assoc, ih]

theorem scan_append {a b : List Char} (hraw : ∀ t ∈ (scan a).getLast?, ¬ t.OpensRaw)
    (ha : WholeLines a) (hb : ∀ c ∈ b.head?, isBlank c = false) :
    scan (a ++ b) = scan a ++ (scan b).map (shift a.length) := by
  have hsplits := (scanFrom_splits 0 a).append hraw ha hb (scanFrom_splits (0 + a.length) b)
  rw [Nat.zero_add, ← Nat.add_zero a.length, scanFrom_shift] at hsplits
  exact hsplits.eq_scanFrom.symm

theorem not_opensRaw_of_valid {ts : List Token} (h : ∀ t ∈ ts, t.kind ≠ .invalid) :
    ∀ t ∈ ts.getLast?, ¬ t.OpensRaw := by
  intro t ht hraw
  exact h t (List.mem_of_getLast? ht) hraw.1

/-- Scanning may begin anew at any line that does not begin with a blank and that no raw string
reaches into: the tokens of the text are those of the lines before and those of the rest. -/
theorem scan_restarts (a b : String) (ha : ∃ front, a = front ++ "\n")
    (hb : ∀ c ∈ b.toList.head?, isBlank c = false)
    (hraw : ∀ t ∈ (scan a.toList).getLast?, ¬ t.OpensRaw) :
    scan (a ++ b).toList = scan a.toList ++ (scan b.toList).map (shift a.length) := by
  have hlines : WholeLines a.toList := by
    obtain ⟨front, rfl⟩ := ha
    exact .inr ⟨front.toList, String.toList_append⟩
  rw [String.toList_append, scan_append hraw hlines hb, String.length_toList]

/-- Lines with a raw string that goes over a line break, a quote that nothing closes and a backslash
before the line break. -/
def brokenLines : String :=
  "p := `a\nb`\nq := \"c\\" ++ "\n"

theorem scan_restarts_after_open_quote :
    (∃ front, brokenLines = front ++ "\n") ∧
      (∀ c ∈ "r\n".toList.head?, isBlank c = false) ∧
      (∀ t ∈ (scan brokenLines.toList).getLast?, ¬ t.OpensRaw) ∧
      scan (brokenLines ++ "r\n").toList =
        scan brokenLines.toList ++ (scan "r\n".toList).map (shift brokenLines.length) := by
  have hline : ∃ front, brokenLines = front ++ "\n" := ⟨_, rfl⟩
  have hblank : ∀ c ∈ "r\n".toList.head?, isBlank c = false := by
    rintro _ ⟨rfl⟩
    rfl
  have hraw : ∀ t ∈ (scan brokenLines.toList).getLast?, ¬ t.OpensRaw := by decide +kernel
  exact ⟨hline, hblank, hraw, scan_restarts brokenLines "r\n" hline hblank hraw⟩

/-- Behind a raw string that nothing closes scanning cannot begin anew. -/
theorem eq_nil_of_scan_append {a b : List Char} {t : Token} (ht : t ∈ (scan a).getLast?)
    (hraw : t.OpensRaw) (h : scan (a ++ b) = scan a ++ (scan b).map (shift a.length)) : b = [] := by
  have hmem : t ∈ scan (a ++ b) := h ▸ List.mem_append_left _ (List.mem_of_getLast? ht)
  have hstop := (scanFrom_splits 0 a).ends.2.2
  rw [← scan, Option.mem_def.mp ht, Option.map_some, Option.getD_some, Nat.zero_add] at hstop
  have hrest := ((scanFrom_splits 0 (a ++ b)).tokenizes.begins t hmem).eq_nil_of_opensRaw hraw
  rwa [hstop, List.drop_left] at hrest

/-- Only blanks end with a line break. -/
theorem Begins.of_wholeLines {k : Kind} {chars : List Char} (h : Begins k chars [])
    (hk : k ≠ .invalid) (hlines : WholeLines chars) : k = .whitespace := by
  have hmem := hlines.newline_mem h.ne_nil
  obtain ⟨front, hfront⟩ := hlines.resolve_left h.ne_nil
  have hquote : ∀ (q : Char) (body : List Char), q ≠ '\n' → chars ≠ q :: (body ++ [q]) := by
    intro q body hq hchars
    rw [hfront, ← List.cons_append] at hchars
    exact hq (List.singleton_inj.mp (List.append_inj' hchars rfl).2).symm
  cases h with
  | whitespace => rfl
  | comment h => exact absurd hmem h.1.no_newline
  | string h =>
    obtain ⟨body, -, hchars⟩ := h.1
    exact absurd hchars (hquote '"' body (by decide))
  | openString => exact absurd rfl hk
  | rawString h =>
    obtain ⟨body, -, hchars⟩ := h.1
    exact absurd hchars (hquote '`' body (by decide))
  | openRawString => exact absurd rfl hk
  | number h => exact absurd hmem (newline_not_mem h.1.no_blank)
  | keyword word h => exact absurd hmem (newline_not_mem h.1.no_blank)
  | identifier h => exact absurd hmem (newline_not_mem h.1.no_blank)
  | sign h => exact absurd hmem (newline_not_mem h.1.no_blank)
  | alien => exact absurd rfl hk

/-- Whole lines end with a token of blanks, and a line break is among them. -/
theorem Splits.last_of_wholeLines {pos : Nat} {s : List Char} {ts : List Token} (h : Splits pos s ts)
    (hvalid : ∀ t ∈ ts, t.kind ≠ .invalid) (hlines : WholeLines s) :
    ∀ t ∈ ts.getLast?, t.kind = .whitespace ∧ '\n' ∈ t.chars := by
  induction h with
  | nil => exact nofun
  | @cons k chars rest pos ts hbegins hrest ih =>
    obtain ⟨hk, hvalid⟩ := List.forall_mem_cons.mp hvalid
    cases hrest with
    | nil =>
      rw [List.append_nil] at hlines
      rintro _ ⟨rfl⟩
      exact ⟨hbegins.of_wholeLines hk hlines, hlines.newline_mem hbegins.ne_nil⟩
    | cons hnext hlater =>
      rw [List.getLast?_cons_cons]
      exact ih hvalid hlines.of_append

end PolicyEditor.Token
