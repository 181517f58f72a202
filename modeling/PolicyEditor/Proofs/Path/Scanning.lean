import PolicyEditor.Hover
import PolicyEditor.Proofs.Path.Extension

/-!
The two readers of a path. Under the cursor a path is found by a scanner that takes what it knows for
a segment and stops at the rest; on its own a path is read to its end or not at all. The scanner
knows fewer segments: it stops before a number after a dot, and it takes the first quote inside a
quoted key for the closing one, be it escaped or not. So it finds a path as a whole exactly if the
path is plain.
-/

namespace PolicyEditor.Path

open PolicyEditor.Completion (afterIndex? afterPart? afterParts afterPath? lineBefore)
open PolicyEditor.Hover (pathsFrom paths)
open PolicyEditor.Json (BetweenQuotes)
open PolicyEditor.Schema (Context)
open PolicyEditor.Text (isBlank isDecimal isNameStart isNameChar stripStart)

inductive Run : List Char → Prop where
  | nil : Run []
  | cons {s rest : List Char} {written : Written} :
      segment? s = some (written, rest) → Run rest → Run s

/-- Segments one after another to the end of a text, of which none is a number after a dot and none
a quoted key with a quote in it. -/
inductive Plain : List Char → Prop where
  | nil : Plain []
  | name {c : Char} {rest : List Char} :
      isNameStart c = true → Plain (rest.dropWhile isNameChar) → Plain ('.' :: c :: rest)
  | index {s text rest : List Char} :
      bracketed? s = some (.index text, rest) → Plain rest → Plain ('[' :: s)
  | key {s raw rest : List Char} :
      bracketed? s = some (.quoted raw, rest) → '"' ∉ raw → Plain rest → Plain ('[' :: s)

/-- A root, and nothing but plain segments after it. -/
def IsPlain (p : List Char) : Prop :=
  ∃ root rest, root? p = some (root, rest) ∧ Plain rest

/-! ### What segments are made of -/

def Clear (u : List Char) : Prop :=
  ∀ c ∈ u, c ≠ '"' ∧ c ≠ '\\'

theorem clear_of_all {p : Char → Bool} (hquote : p '"' = false) (hslash : p '\\' = false)
    {u : List Char} (h : u.all p = true) : Clear u := by
  intro c hc
  have hp := List.all_eq_true.mp h c hc
  constructor
  · rintro rfl
    rw [hquote] at hp
    cases hp
  · rintro rfl
    rw [hslash] at hp
    cases hp

theorem Clear.append {u v : List Char} (hu : Clear u) (hv : Clear v) : Clear (u ++ v) :=
  List.forall_mem_append.mpr ⟨hu, hv⟩

theorem Clear.cons {c : Char} {u : List Char} (hquote : c ≠ '"') (hslash : c ≠ '\\')
    (hu : Clear u) : Clear (c :: u) :=
  List.forall_mem_cons.mpr ⟨⟨hquote, hslash⟩, hu⟩

theorem clear_blanks {u : List Char} (h : u.all isBlank = true) : Clear u :=
  clear_of_all (by decide) (by decide) h

theorem Clear.dropWhile_quote {u : List Char} (h : Clear u) (t : List Char) :
    (u ++ t).dropWhile (· ≠ '"') = t.dropWhile (· ≠ '"') :=
  List.dropWhile_append_of_pos fun c hc => decide_eq_true (h c hc).1

/-- The text that closes a bracket. -/
theorem clear_of_afterBracket? {s after : List Char} (h : afterBracket? s = some after) :
    ∃ u, s = u ++ after ∧ Clear u := by
  obtain ⟨blanks, hblanks, rfl⟩ := afterBracket?_split h
  exact ⟨blanks ++ [']'], by simp,
    (clear_blanks hblanks).append (.cons (by decide) (by decide) nofun)⟩

theorem drop_takeWhile_length (p : Char → Bool) (s : List Char) :
    s.drop (s.takeWhile p).length = s.dropWhile p := by
  induction s with
  | nil => rfl
  | cons c s ih =>
    by_cases hc : p c = true
    · rw [List.takeWhile_cons_of_pos hc, List.dropWhile_cons_of_pos hc]
      exact ih
    · rw [List.takeWhile_cons_of_neg hc, List.dropWhile_cons_of_neg hc]
      rfl

theorem clear_names {u : List Char} (h : u.all isNameChar = true) : Clear u :=
  clear_of_all (by decide) (by decide) h

theorem clear_digits {u : List Char} (h : u.all isDecimal = true) : Clear u :=
  clear_of_all (by decide) (by decide) h

theorem afterIndex?_underscore {s rest : List Char} (h : stripStart s = '_' :: rest) :
    afterIndex? s = afterBracket? rest := by
  simp only [afterIndex?, h]

theorem afterIndex?_number {s : List Char} (hunderscore : ∀ rest, stripStart s ≠ '_' :: rest)
    (hquote : ∀ rest, stripStart s ≠ '"' :: rest) (hne : (stripStart s).takeWhile isDecimal ≠ []) :
    afterIndex? s = afterBracket? ((stripStart s).dropWhile isDecimal) := by
  have hfirst : (stripStart s).head?.any isDecimal = true := by
    cases hs : stripStart s with
    | nil =>
      rw [hs] at hne
      exact absurd rfl hne
    | cons c rest =>
      rw [hs] at hne
      by_contra hc
      exact hne (List.takeWhile_cons_of_neg hc)
  unfold afterIndex?
  split
  · exact absurd ‹_› (hunderscore _)
  · exact absurd ‹_› (hquote _)
  · exact if_pos hfirst

/-- Between brackets stand an index, clear of quotes, or a quoted key. -/
theorem bracketed?_cases {s rest : List Char} {written : Written}
    (h : bracketed? s = some (written, rest)) :
    (∃ text, written = .index text ∧ afterIndex? s = some rest ∧ ∃ u, s = u ++ rest ∧ Clear u) ∨
      ∃ left raw after, written = .quoted raw ∧ left.all isBlank = true ∧
        stripStart s = '"' :: raw ++ '"' :: after ∧ s = left ++ '"' :: raw ++ '"' :: after ∧
        BetweenQuotes raw ∧ afterBracket? after = some rest := by
  obtain ⟨left, hleft, hsplit⟩ := stripStart_split s
  unfold bracketed? at h
  split at h
  · rename_i inner hinner
    simp only [Option.map_eq_some_iff, Prod.mk.injEq] at h
    obtain ⟨last, hlast, rfl, rfl⟩ := h
    obtain ⟨u, rfl, hu⟩ := clear_of_afterBracket? hlast
    rw [hinner] at hsplit
    refine .inl ⟨_, rfl, (afterIndex?_underscore hinner).trans hlast, left ++ '_' :: u,
      by simp [hsplit], ?_⟩
    exact (clear_blanks hleft).append (.cons (by decide) (by decide) hu)
  · rename_i inner hinner
    split at h
    case h_2 => cases h
    rename_i raw close hrun
    simp only [Option.map_eq_some_iff, Prod.mk.injEq] at h
    obtain ⟨last, hlast, rfl, rfl⟩ := h
    obtain ⟨hraw, rfl⟩ := quotedRun_split hrun
    rw [hinner] at hsplit
    exact .inr ⟨left, raw, close, rfl, hleft, hinner, by simp [hsplit], hraw, hlast⟩
  · rename_i hunderscore hquote
    split at h
    · cases h
    · rename_i ds hdigits
      simp only [Option.map_eq_some_iff, Prod.mk.injEq] at h
      obtain ⟨last, hlast, rfl, rfl⟩ := h
      rw [drop_takeWhile_length] at hlast
      obtain ⟨u, hu, hclear⟩ := clear_of_afterBracket? hlast
      refine .inl ⟨_, rfl, (afterIndex?_number hunderscore hquote hdigits).trans hlast,
        left ++ (stripStart s).takeWhile isDecimal ++ u, ?_, ?_⟩
      · rw [List.append_assoc, List.append_assoc, ← hu, List.takeWhile_append_dropWhile]
        exact hsplit
      · exact ((clear_blanks hleft).append (clear_digits List.all_takeWhile)).append hclear

/-- A segment is clear of quotes, or it is a quoted key. -/
theorem segment?_cases {s rest : List Char} {written : Written}
    (h : segment? s = some (written, rest)) :
    (∃ u, s = u ++ rest ∧ Clear u) ∨
      ∃ left raw after, left.all isBlank = true ∧ s = '[' :: left ++ '"' :: raw ++ '"' :: after ∧
        BetweenQuotes raw ∧ afterBracket? after = some rest := by
  unfold segment? at h
  split at h
  · rename_i c tail
    have hdot {p : Char → Bool} (hc : Clear [c]) (htail : Clear (tail.takeWhile p)) :
        ∃ u, '.' :: c :: tail = u ++ tail.dropWhile p ∧ Clear u := by
      refine ⟨'.' :: c :: tail.takeWhile p, ?_, .cons (by decide) (by decide) (hc.append htail)⟩
      rw [List.cons_append, List.cons_append, List.takeWhile_append_dropWhile]
    split at h
    · rename_i hc
      cases h
      refine .inl (hdot (clear_names ?_) (clear_names List.all_takeWhile))
      rw [List.all_cons, List.all_nil, Bool.and_true]
      exact Text.isNameChar_of_isNameStart hc
    split at h
    · rename_i hc
      cases h
      refine .inl (hdot (clear_digits ?_) (clear_digits List.all_takeWhile))
      rw [List.all_cons, List.all_nil, Bool.and_true]
      exact hc
    · cases h
  · rename_i tail
    rcases bracketed?_cases h with ⟨_, -, -, u, rfl, hu⟩ |
      ⟨left, raw, after, -, hleft, -, rfl, hraw, hafter⟩
    · exact .inl ⟨'[' :: u, rfl, .cons (by decide) (by decide) hu⟩
    · exact .inr ⟨left, raw, after, hleft, rfl, hraw, hafter⟩
  · cases h

/-- What the scanner takes for a segment is clear of quotes, or it takes the first quote after
another one for the end of a key. -/
theorem afterPart?_cases {s rest : List Char} (h : afterPart? s = some rest) :
    (∃ u, s = u ++ rest ∧ Clear u) ∨
      ∃ left inner after, left.all isBlank = true ∧ s = '[' :: left ++ '"' :: inner ∧
        inner.dropWhile (· ≠ '"') = '"' :: after ∧ afterBracket? after = some rest := by
  unfold afterPart? at h
  split at h
  · rename_i c tail
    split at h
    · rename_i hc
      cases h
      refine .inl ⟨'.' :: c :: tail.takeWhile isNameChar, ?_, .cons (by decide) (by decide) ?_⟩
      · rw [List.cons_append, List.cons_append, List.takeWhile_append_dropWhile]
      · refine clear_names ?_
        rw [List.all_cons, Text.isNameChar_of_isNameStart hc, Bool.true_and]
        exact List.all_takeWhile
    · cases h
  · rename_i tail
    obtain ⟨left, hleft, hsplit⟩ := stripStart_split tail
    unfold afterIndex? at h
    split at h
    · rename_i inner hinner
      obtain ⟨u, rfl, hu⟩ := clear_of_afterBracket? h
      rw [hinner] at hsplit
      refine .inl ⟨'[' :: left ++ '_' :: u, by simp [hsplit], .cons (by decide) (by decide) ?_⟩
      exact (clear_blanks hleft).append (.cons (by decide) (by decide) hu)
    · rename_i inner hinner
      split at h
      · rename_i after hafter
        rw [hinner] at hsplit
        exact .inr ⟨left, inner, after, hleft, by simp [hsplit], hafter, h⟩
      · cases h
    · split at h
      · obtain ⟨u, hu, hclear⟩ := clear_of_afterBracket? h
        refine .inl ⟨'[' :: left ++ (stripStart tail).takeWhile isDecimal ++ u, ?_, ?_⟩
        · rw [List.append_assoc, List.append_assoc, ← hu, List.takeWhile_append_dropWhile,
            List.cons_append]
          exact congrArg _ hsplit
        · have hbefore : Clear ('[' :: left) := .cons (by decide) (by decide) (clear_blanks hleft)
          exact (hbefore.append (clear_digits List.all_takeWhile)).append hclear
      · cases h
  · cases h

/-! ### Inside a quoted key -/

def Guarded (raw : List Char) : Prop :=
  ∀ front back, raw = front ++ '"' :: back → front.getLast? = some '\\'

theorem guarded_of_betweenQuotes {raw : List Char} (h : BetweenQuotes raw) : Guarded raw := by
  induction h with
  | nil =>
    intro front back heq
    exact absurd heq.symm (List.append_ne_nil_of_right_ne_nil _ (List.cons_ne_nil _ _))
  | @plain c s hquote _ _ ih =>
    intro front back heq
    cases front with
    | nil => exact absurd (List.head_eq_of_cons_eq heq) hquote
    | cons d front =>
      have hlast := ih front back (List.tail_eq_of_cons_eq heq)
      rw [List.getLast?_cons, hlast]
      rfl
  | @escape c s _ _ ih =>
    intro front back heq
    match front with
    | [] => exact absurd (List.head_eq_of_cons_eq heq) (by decide)
    | [d] => rw [← List.head_eq_of_cons_eq heq]; rfl
    | d :: e :: front =>
      have hlast := ih front back (List.tail_eq_of_cons_eq (List.tail_eq_of_cons_eq heq))
      rw [List.getLast?_cons, List.getLast?_cons, hlast]
      rfl

theorem Guarded.not_quote {back : List Char} : ¬ Guarded ('"' :: back) := by
  intro h
  cases h [] back rfl

theorem Guarded.after {front back : List Char} {c : Char} (h : Guarded (front ++ c :: back))
    (hc : c ≠ '\\') : Guarded back := by
  intro inner rest heq
  have hlast := h (front ++ c :: inner) rest (by rw [heq, List.append_assoc, List.cons_append])
  rw [List.getLast?_append, List.getLast?_cons, Option.some_or, Option.some.injEq] at hlast
  cases hinner : inner.getLast? with
  | none =>
    rw [hinner] at hlast
    exact absurd hlast hc
  | some d =>
    rw [hinner] at hlast
    exact congrArg some hlast

/-- The text goes on inside a quoted key, and after the key with segments to its end. -/
def WithinKey (t : List Char) : Prop :=
  ∃ raw after more, t = raw ++ '"' :: after ∧ Guarded raw ∧ afterBracket? after = some more ∧
    Run more

/-- What is clear of quotes and backslashes does not lead out of a key. -/
theorem WithinKey.cut {u t : List Char} (h : WithinKey (u ++ t)) (hu : Clear u) : WithinKey t := by
  induction u with
  | nil => exact h
  | cons c u ih =>
    obtain ⟨⟨hquote, hslash⟩, hrest⟩ := List.forall_mem_cons.mp hu
    refine ih ?_ hrest
    obtain ⟨raw, after, more, heq, hraw, hafter, hmore⟩ := h
    cases raw with
    | nil => exact absurd (List.head_eq_of_cons_eq heq) hquote
    | cons d raw =>
      obtain ⟨rfl, htail⟩ := List.cons_eq_cons.mp heq
      have hguarded : Guarded ([] ++ c :: raw) := hraw
      exact ⟨raw, after, more, htail, hguarded.after hslash, hafter, hmore⟩

/-- At a quote the key ends. -/
theorem WithinKey.at_quote {t : List Char} (h : WithinKey ('"' :: t)) :
    ∃ more, afterBracket? t = some more ∧ Run more := by
  obtain ⟨raw, after, more, heq, hraw, hafter, hmore⟩ := h
  cases raw with
  | nil =>
    cases heq
    exact ⟨more, hafter, hmore⟩
  | cons c raw =>
    rw [← List.head_eq_of_cons_eq heq] at hraw
    exact absurd hraw Guarded.not_quote

theorem WithinKey.afterBracket? {s t : List Char} (h : WithinKey s)
    (ht : afterBracket? s = some t) : WithinKey t := by
  obtain ⟨u, rfl, hu⟩ := clear_of_afterBracket? ht
  exact h.cut hu

/-- Inside segments, the first quote opens a key. -/
theorem Run.within_first_quote {s after : List Char} (h : Run s)
    (hquote : s.dropWhile (· ≠ '"') = '"' :: after) : WithinKey after := by
  induction h with
  | nil => cases hquote
  | cons hsegment hrest ih =>
    rcases segment?_cases hsegment with ⟨u, rfl, hu⟩ | ⟨left, raw, close, hleft, rfl, hraw, hclose⟩
    · exact ih (hu.dropWhile_quote _ ▸ hquote)
    · have hopen : Clear ('[' :: left) := .cons (by decide) (by decide) (clear_blanks hleft)
      rw [List.append_assoc, hopen.dropWhile_quote, List.cons_append,
        List.dropWhile_cons_of_neg (by decide)] at hquote
      cases hquote
      exact ⟨raw, close, _, rfl, guarded_of_betweenQuotes hraw, hclose, hrest⟩

/-- From inside a quoted key the scanner does not come out: where it finds the quote that closes the
key, it takes it for one that opens another, and ends inside the next key. -/
theorem WithinKey.afterPart? {s t : List Char} (h : WithinKey s) (ht : afterPart? s = some t) :
    WithinKey t := by
  rcases afterPart?_cases ht with ⟨u, rfl, hu⟩ | ⟨left, inner, after, hleft, rfl, hinner, hafter⟩
  · exact h.cut hu
  · have hopen : Clear ('[' :: left) := .cons (by decide) (by decide) (clear_blanks hleft)
    obtain ⟨more, hclose, hmore⟩ := (h.cut hopen).at_quote
    obtain ⟨u, rfl, hu⟩ := clear_of_afterBracket? hclose
    rw [hu.dropWhile_quote] at hinner
    exact (hmore.within_first_quote hinner).afterBracket? hafter

theorem WithinKey.afterParts_ne_nil {s : List Char} (h : WithinKey s) (rounds : Nat) :
    afterParts rounds s ≠ [] := by
  induction rounds generalizing s with
  | zero =>
    obtain ⟨raw, after, more, rfl, -⟩ := h
    exact List.append_ne_nil_of_right_ne_nil _ (List.cons_ne_nil _ _)
  | succ rounds ih =>
    rw [afterParts]
    split
    · exact ih (h.afterPart? ‹_›)
    · obtain ⟨raw, after, more, rfl, -⟩ := h
      exact List.append_ne_nil_of_right_ne_nil _ (List.cons_ne_nil _ _)

/-! ### Plain segments -/

theorem dropWhile_to_quote {raw after : List Char} (hraw : '"' ∉ raw) :
    (raw ++ '"' :: after).dropWhile (· ≠ '"') = '"' :: after := by
  have hpass : ∀ c ∈ raw, decide (c ≠ '"') = true := by
    intro c hc
    refine decide_eq_true ?_
    rintro rfl
    exact hraw hc
  rw [List.dropWhile_append_of_pos hpass]
  exact List.dropWhile_cons_of_neg (by decide)

/-- The scanner takes a key up to its first quote. -/
theorem afterIndex?_of_key {s raw after : List Char} (hs : stripStart s = '"' :: raw ++ '"' :: after)
    (hraw : '"' ∉ raw) : afterIndex? s = afterBracket? after := by
  rw [List.cons_append] at hs
  simp only [afterIndex?, hs, dropWhile_to_quote hraw]

theorem afterPart?_bracket (s : List Char) : afterPart? ('[' :: s) = afterIndex? s := rfl

theorem afterPart?_dot (c : Char) (s : List Char) : afterPart? ('.' :: c :: s) =
    if isNameStart c then some (s.dropWhile isNameChar) else none := rfl

theorem afterParts_step {s rest : List Char} (h : afterPart? s = some rest) (rounds : Nat) :
    afterParts (rounds + 1) s = afterParts rounds rest := by
  simp only [afterParts, h]

theorem afterParts_stuck {s : List Char} (h : afterPart? s = none) (rounds : Nat) :
    afterParts rounds s = s := by
  cases rounds with
  | zero => rfl
  | succ rounds => simp only [afterParts, h]

/-- With a segment read, the rounds that are left are enough for the rest of the text. -/
theorem afterParts_next {c : Char} {s rest : List Char} (h : afterPart? (c :: s) = some rest)
    {rounds : Nat} (hrounds : (c :: s).length ≤ rounds) :
    ∃ n, s.length ≤ n ∧ afterParts rounds (c :: s) = afterParts n rest := by
  cases rounds with
  | zero => exact absurd hrounds (Nat.not_succ_le_zero _)
  | succ n => exact ⟨n, Nat.le_of_succ_le_succ hrounds, afterParts_step h n⟩

/-- The scanner goes through plain segments to their end. -/
theorem Plain.afterParts {s : List Char} (h : Plain s) {rounds : Nat}
    (hrounds : s.length ≤ rounds) : afterParts rounds s = [] := by
  induction h generalizing rounds with
  | nil => exact afterParts_stuck rfl rounds
  | @name c rest hc _ ih =>
    have hpart : afterPart? ('.' :: c :: rest) = some (rest.dropWhile isNameChar) := if_pos hc
    have hlength := (List.dropWhile_suffix (l := rest) isNameChar).length_le
    obtain ⟨n, hn, hnext⟩ := afterParts_next hpart hrounds
    rw [hnext]
    exact ih (Nat.le_trans hlength (Nat.le_of_succ_le hn))
  | @index s text rest hs _ ih =>
    obtain ⟨_, -, hpart, u, rfl, -⟩ | ⟨_, _, _, hwritten, -⟩ := bracketed?_cases hs
    · obtain ⟨n, hn, hnext⟩ := afterParts_next ((afterPart?_bracket _).trans hpart) hrounds
      rw [hnext]
      exact ih (by simp only [List.length_append] at hn; omega)
    · cases hwritten
  | @key s raw rest hs hraw _ ih =>
    obtain ⟨_, hwritten, -⟩ | ⟨left, _, after, hwritten, -, hstrip, rfl, -, hafter⟩ :=
      bracketed?_cases hs
    · cases hwritten
    · cases hwritten
      have hpart := (afterIndex?_of_key hstrip hraw).trans hafter
      obtain ⟨u, rfl, -⟩ := clear_of_afterBracket? hafter
      obtain ⟨n, hn, hnext⟩ := afterParts_next ((afterPart?_bracket _).trans hpart) hrounds
      rw [hnext]
      exact ih (by simp only [List.length_cons, List.length_append] at hn; omega)

/-- The scanner gets stuck inside a key with a quote in it. -/
theorem afterParts_ne_nil_of_key {s raw after rest : List Char}
    (hs : stripStart s = '"' :: raw ++ '"' :: after) (hraw : BetweenQuotes raw)
    (hafter : afterBracket? after = some rest) (hrest : Run rest) (hquote : '"' ∈ raw)
    (rounds : Nat) : afterParts rounds ('[' :: s) ≠ [] := by
  cases rounds with
  | zero => exact List.cons_ne_nil _ _
  | succ rounds =>
    obtain ⟨front, back, rfl, hfront⟩ := List.eq_append_cons_of_mem hquote
    have hinside : WithinKey (back ++ '"' :: after) :=
      ⟨back, after, rest, rfl, (guarded_of_betweenQuotes hraw).after (by decide), hafter, hrest⟩
    have hpart : afterPart? ('[' :: s) = afterBracket? (back ++ '"' :: after) := by
      refine afterIndex?_of_key ?_ hfront
      rw [hs, List.cons_append, List.cons_append, List.append_assoc, List.cons_append]
    cases hclose : afterBracket? (back ++ '"' :: after) with
    | none =>
      rw [afterParts_stuck (hpart.trans hclose)]
      exact List.cons_ne_nil _ _
    | some t =>
      rw [afterParts_step (hpart.trans hclose)]
      exact (hinside.afterBracket? hclose).afterParts_ne_nil rounds

/-- Only through plain segments does the scanner come to the end. -/
theorem Run.plain_of_afterParts {s : List Char} (h : Run s) {rounds : Nat}
    (hend : afterParts rounds s = []) : Plain s := by
  induction h generalizing rounds with
  | nil => exact .nil
  | @cons s rest written hsegment hrest ih =>
    unfold segment? at hsegment
    split at hsegment
    · rename_i c tail
      split at hsegment
      · rename_i hc
        cases hsegment
        have hpart : afterPart? ('.' :: c :: tail) = some (tail.dropWhile isNameChar) := if_pos hc
        cases rounds with
        | zero => cases hend
        | succ rounds =>
          rw [afterParts_step hpart] at hend
          exact .name hc (ih hend)
      · rename_i hc
        rw [afterParts_stuck ((afterPart?_dot c tail).trans (if_neg hc))] at hend
        cases hend
    · rename_i tail
      rcases bracketed?_cases hsegment with ⟨text, rfl, hpart, -⟩ |
        ⟨left, raw, after, rfl, -, hstrip, -, hraw, hafter⟩
      · cases rounds with
        | zero => cases hend
        | succ rounds =>
          rw [afterParts_step ((afterPart?_bracket tail).trans hpart)] at hend
          exact .index hsegment (ih hend)
      · by_cases hquote : '"' ∈ raw
        · exact absurd hend (afterParts_ne_nil_of_key hstrip hraw hafter hrest hquote rounds)
        · cases rounds with
          | zero => cases hend
          | succ rounds =>
            have hpart := (afterIndex?_of_key hstrip hquote).trans hafter
            rw [afterParts_step ((afterPart?_bracket tail).trans hpart)] at hend
            exact .key hsegment hquote (ih hend)
    · cases hsegment

end PolicyEditor.Path
