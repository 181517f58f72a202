import Mathlib.Data.List.TakeWhile
import PolicyEditor.Proofs.Path.Keys
import PolicyEditor.Proofs.Text.Classes

/-!
Paths that go on. What is written after a path does not change how the path is read, as long as it
does not run on in its last name or number; only the blanks that end the path stay in the way.
-/

namespace PolicyEditor.Path

open PolicyEditor.Json (BetweenQuotes)
open PolicyEditor.Schema (Root)
open PolicyEditor.Text (isBlank isDecimal isNameStart isNameChar isWord stripStart)

/-- A text that does not run on in a name, a number or a word. -/
def Apart (t : List Char) : Prop :=
  ∀ c ∈ t.head?, isWord c = false ∧ isDecimal c = false

theorem takeWhile_append_of_apart {p : Char → Bool} {t : List Char} (s : List Char)
    (h : ∀ c ∈ t.head?, p c = false) : (s ++ t).takeWhile p = s.takeWhile p := by
  have htail : t.takeWhile p = [] := by
    cases t with
    | nil => rfl
    | cons c t => exact List.takeWhile_cons_of_neg (by rw [h c rfl]; decide)
  rw [List.takeWhile_append]
  split
  · rename_i hlength
    rw [htail, List.append_nil]
    exact ((List.takeWhile_prefix p).eq_of_length hlength).symm
  · rfl

theorem dropWhile_append_of_apart {p : Char → Bool} {t : List Char} (s : List Char)
    (h : ∀ c ∈ t.head?, p c = false) : (s ++ t).dropWhile p = s.dropWhile p ++ t := by
  have htail : t.dropWhile p = t := by
    cases t with
    | nil => rfl
    | cons c t => exact List.dropWhile_cons_of_neg (by rw [h c rfl]; decide)
  rw [List.dropWhile_append]
  split
  · rename_i hempty
    rw [htail, List.isEmpty_iff.mp hempty, List.nil_append]
  · rfl

theorem Apart.isNameChar {t : List Char} (h : Apart t) : ∀ c ∈ t.head?, isNameChar c = false := by
  intro c hc
  apply Bool.eq_false_iff.mpr
  intro hname
  have hword := (h c hc).1
  rw [Text.isWord_of_isNameChar hname] at hword
  cases hword

theorem stripStart_append {s : List Char} (t : List Char) (h : stripStart s ≠ []) :
    stripStart (s ++ t) = stripStart s ++ t := by
  have hempty : ¬ (s.dropWhile isBlank).isEmpty = true := fun hs => h (List.isEmpty_iff.mp hs)
  rw [stripStart, List.dropWhile_append, if_neg hempty]
  rfl

/-! ### Segments -/

theorem quotedRun_quoted {raw : List Char} (h : BetweenQuotes raw) (after : List Char) :
    quotedRun (raw ++ '"' :: after) = some (raw, after) := by
  induction h with
  | nil => rfl
  | @plain c s hquote hslash _ ih =>
    rw [List.cons_append, quotedRun.eq_5 _ _ hquote (fun heq => absurd heq hslash)
      (fun _ _ heq => absurd heq hslash), ih, Option.map_some]
  | @escape c s hbreak _ ih =>
    simp only [List.cons_append, quotedRun, hbreak, if_false, ih, Option.map_some]

theorem afterBracket?_append {s after : List Char} (h : afterBracket? s = some after)
    (t : List Char) : afterBracket? (s ++ t) = some (after ++ t) := by
  unfold afterBracket? at h ⊢
  split at h
  · rename_i rest hrest
    cases h
    rw [stripStart_append t (by rw [hrest]; nofun), hrest]
    rfl
  · cases h

theorem bracketed?_append {s after : List Char} {written : Written}
    (h : bracketed? s = some (written, after)) (t : List Char) :
    bracketed? (s ++ t) = some (written, after ++ t) := by
  have hne : stripStart s ≠ [] := by
    intro hnil
    simp only [bracketed?, hnil, List.takeWhile_nil, reduceCtorEq] at h
  unfold bracketed? at h ⊢
  rw [stripStart_append t hne]
  split at h
  · rename_i rest hrest
    simp only [Option.map_eq_some_iff, Prod.mk.injEq] at h
    obtain ⟨last, hlast, rfl, rfl⟩ := h
    simp only [hrest, List.cons_append, afterBracket?_append hlast t, Option.map_some]
  · rename_i rest hrest
    split at h
    case h_2 => cases h
    rename_i raw close hrun
    simp only [Option.map_eq_some_iff, Prod.mk.injEq] at h
    obtain ⟨last, hlast, rfl, rfl⟩ := h
    obtain ⟨hraw, rfl⟩ := quotedRun_split hrun
    simp only [hrest, List.cons_append, List.append_assoc, quotedRun_quoted hraw,
      afterBracket?_append hlast t, Option.map_some]
  · rename_i _ hunderscore hquote
    split at h
    · cases h
    · rename_i digits hdigits
      simp only [Option.map_eq_some_iff, Prod.mk.injEq] at h
      obtain ⟨last, hlast, rfl, rfl⟩ := h
      have hlength : (List.takeWhile isDecimal (stripStart s)).length < (stripStart s).length := by
        apply Nat.lt_of_not_le
        intro hle
        rw [List.drop_eq_nil_of_le hle] at hlast
        cases hlast
      have htake : (stripStart s ++ t).takeWhile isDecimal =
          (stripStart s).takeWhile isDecimal := by
        rw [List.takeWhile_append, if_neg (Nat.ne_of_lt hlength)]
      have hread : (List.drop (List.takeWhile isDecimal (stripStart s)).length
          (stripStart s ++ t)) =
          List.drop (List.takeWhile isDecimal (stripStart s)).length (stripStart s) ++ t :=
        List.drop_append_of_le_length (Nat.le_of_lt hlength)
      obtain ⟨d, ds, hcons⟩ := List.exists_cons_of_ne_nil hne
      split
      · rename_i rest hrest
        rw [hcons] at hrest
        cases hrest
        exact absurd hcons (hunderscore ds)
      · rename_i rest hrest
        rw [hcons] at hrest
        cases hrest
        exact absurd hcons (hquote ds)
      · rw [htake]
        split
        · exact absurd ‹_› hdigits
        · rw [hread, afterBracket?_append hlast t, Option.map_some]

theorem segment?_append {s after t : List Char} {written : Written}
    (h : segment? s = some (written, after)) (ht : Apart t) :
    segment? (s ++ t) = some (written, after ++ t) := by
  unfold segment? at h
  split at h
  · rename_i c rest
    have hname := ht.isNameChar
    have hdecimal : ∀ c ∈ t.head?, isDecimal c = false := fun c hc => (ht c hc).2
    simp only [List.cons_append, segment?, takeWhile_append_of_apart rest hname,
      dropWhile_append_of_apart rest hname, takeWhile_append_of_apart rest hdecimal,
      dropWhile_append_of_apart rest hdecimal]
    split at h
    · cases h
      rw [if_pos ‹_›]
    · rw [if_neg ‹_›]
      split at h
      · cases h
        rw [if_pos ‹_›]
      · cases h
  · rename_i rest
    exact bracketed?_append h t
  · cases h

/-! ### The end of a path -/

theorem isBlank_eq_false_of_isNameChar {c : Char} (h : isNameChar c = true) :
    isBlank c = false := by
  simp only [Text.isNameChar, Char.isAlphanum, Bool.or_eq_true] at h
  rcases h with (halpha | hdigit) | hunderscore
  · exact Text.isBlank_eq_false_of_isNameStart (by simp only [isNameStart, halpha, Bool.true_or])
  · exact Text.isBlank_eq_false_of_isDigit
      (Text.isDigit_of_isDecimal (by simp only [isDecimal, hdigit, Bool.true_or]))
  · exact Text.isBlank_eq_false_of_isNameStart
      (by simp only [isNameStart, hunderscore, Bool.or_true])

/-- A blank ends the text. -/
def EndsBlank (s : List Char) : Prop :=
  ∃ c ∈ s.getLast?, isBlank c = true

theorem EndsBlank.of_suffix {s t : List Char} (h : EndsBlank s) (hs : s <:+ t) : EndsBlank t := by
  obtain ⟨c, hc, hblank⟩ := h
  obtain ⟨front, rfl⟩ := hs
  refine ⟨c, ?_, hblank⟩
  rw [Option.mem_def] at hc ⊢
  rw [List.getLast?_append, hc]
  rfl

theorem not_endsBlank_of_all {p : Char → Bool} (hp : ∀ c, p c = true → isBlank c = false)
    {s : List Char} (h : ∀ c ∈ s.getLast?, p c = true) : ¬ EndsBlank s := by
  rintro ⟨c, hc, hblank⟩
  rw [hp c (h c hc)] at hblank
  cases hblank

theorem not_endsBlank_of_afterBracket? {s t : List Char} (h : afterBracket? t = some [])
    (hs : t <:+ s) : ¬ EndsBlank s := by
  obtain ⟨blanks, -, rfl⟩ := afterBracket?_split h
  obtain ⟨front, rfl⟩ := hs
  rintro ⟨c, hc, hblank⟩
  rw [← List.append_assoc, List.getLast?_concat, Option.mem_def, Option.some.injEq] at hc
  rw [← hc] at hblank
  exact absurd hblank (by decide)

/-- A segment does not end with a blank. -/
theorem not_endsBlank_of_segment? {s : List Char} {written : Written}
    (h : segment? s = some (written, [])) : ¬ EndsBlank s := by
  have hrun : ∀ (p : Char → Bool) (c : Char) (rest : List Char), p c = true →
      rest.dropWhile p = [] → ∀ d ∈ ('.' :: c :: rest).getLast?, p d = true := by
    intro p c rest hc hdrop d hd
    rw [List.getLast?_cons_cons] at hd
    rcases List.mem_cons.mp (List.mem_of_getLast? hd) with rfl | hmem
    · exact hc
    · exact List.dropWhile_eq_nil_iff.mp hdrop d hmem
  unfold segment? at h
  split at h
  · split at h
    · rename_i hstart
      obtain ⟨-, hdrop⟩ := Prod.mk.inj (Option.some.inj h)
      exact not_endsBlank_of_all (fun _ => isBlank_eq_false_of_isNameChar)
        (hrun isNameChar _ _ (Text.isNameChar_of_isNameStart hstart) hdrop)
    split at h
    · rename_i hdecimal
      obtain ⟨-, hdrop⟩ := Prod.mk.inj (Option.some.inj h)
      exact not_endsBlank_of_all
        (fun _ hd => Text.isBlank_eq_false_of_isDigit (Text.isDigit_of_isDecimal hd))
        (hrun isDecimal _ _ hdecimal hdrop)
    · cases h
  · rename_i rest
    have hinside : stripStart rest <:+ '[' :: rest :=
      (stripStart_suffix rest).trans (List.suffix_cons _ _)
    unfold bracketed? at h
    split at h
    · rename_i inner hinner
      simp only [Option.map_eq_some_iff, Prod.mk.injEq] at h
      obtain ⟨last, hlast, -, rfl⟩ := h
      rw [hinner] at hinside
      exact not_endsBlank_of_afterBracket? hlast ((List.suffix_cons _ _).trans hinside)
    · rename_i inner hinner
      split at h
      case h_2 => cases h
      rename_i raw close hrun
      simp only [Option.map_eq_some_iff, Prod.mk.injEq] at h
      obtain ⟨last, hlast, -, rfl⟩ := h
      obtain ⟨-, rfl⟩ := quotedRun_split hrun
      rw [hinner] at hinside
      exact not_endsBlank_of_afterBracket? hlast
        (List.IsSuffix.trans ⟨'"' :: raw ++ ['"'], by simp⟩ hinside)
    · split at h
      · cases h
      · simp only [Option.map_eq_some_iff, Prod.mk.injEq] at h
        obtain ⟨last, hlast, -, rfl⟩ := h
        exact not_endsBlank_of_afterBracket? hlast ((List.drop_suffix _ _).trans hinside)
  · cases h

/-! ### Whole paths -/

/-- Every number of rounds that is large enough reads the same. -/
theorem readSegments_rounds {rounds more : Nat} {s : List Char} (hrounds : s.length < rounds)
    (hmore : s.length < more) : readSegments rounds s = readSegments more s := by
  induction rounds generalizing s more with
  | zero => omega
  | succ rounds ih =>
    obtain ⟨more, rfl⟩ : ∃ n, more = n + 1 := ⟨more - 1, by omega⟩
    simp only [readSegments]
    split
    · rfl
    · split
      · rfl
      · rename_i written rest hsegment
        have hlength := (segment?_split hsegment).2.1
        rw [ih (show rest.length < rounds by omega) (show rest.length < more by omega)]

/-- The segments of a text, if it is nothing but segments and the blanks that end it. -/
def readAll (s : List Char) : Except KeyError (Option (List Segment)) :=
  readSegments (s.length + 1) s

theorem readAll_blank {s : List Char} (h : s.all isBlank = true) : readAll s = .ok (some []) := by
  simp only [readAll, readSegments, h, if_true]

theorem readAll_of_segment?_none {s : List Char} (hblank : ¬ s.all isBlank = true)
    (h : segment? s = none) : readAll s = .ok none := by
  rw [readAll, readSegments, if_neg hblank, h]

theorem readAll_cons {s rest : List Char} {written : Written}
    (h : segment? s = some (written, rest)) :
    readAll s = (do
      let first ← written.read
      let more ← readAll rest
      return more.map (first :: ·)) := by
  have hblank : ¬ s.all isBlank = true := by
    intro hblank
    rw [segment?_blank hblank] at h
    cases h
  have hlength := (segment?_split h).2.1
  rw [readAll, readSegments, if_neg hblank, h, readAll]
  simp only [readSegments_rounds hlength (Nat.lt_succ_self rest.length)]

/-- The ways in which a text is read: it is blank, or a segment and the rest are read. -/
theorem readAll_cases {s : List Char} {found : List Segment}
    (h : readAll s = .ok (some found)) :
    (s.all isBlank = true ∧ found = []) ∨
      ∃ written rest first more, segment? s = some (written, rest) ∧
        written.read = .ok first ∧ readAll rest = .ok (some more) ∧ found = first :: more := by
  by_cases hblank : s.all isBlank = true
  · rw [readAll_blank hblank] at h
    cases h
    exact .inl ⟨hblank, rfl⟩
  · cases hsegment : segment? s with
    | none =>
      rw [readAll_of_segment?_none hblank hsegment] at h
      cases h
    | some next =>
      obtain ⟨written, rest⟩ := next
      rw [readAll_cons hsegment] at h
      obtain ⟨first, hread, h⟩ := Json.ok_of_bind_ok h
      obtain ⟨more, hmore, h⟩ := Json.ok_of_bind_ok h
      cases more with
      | none => cases h
      | some more =>
        cases h
        exact .inr ⟨written, rest, first, more, rfl, hread, hmore, rfl⟩

theorem EndsBlank.of_cut {s t : List Char} (h : EndsBlank (s ++ t)) (ht : t ≠ []) :
    EndsBlank t := by
  obtain ⟨c, hc, hblank⟩ := h
  rw [Option.mem_def, List.getLast?_append, List.getLast?_eq_some_getLast ht] at hc
  exact ⟨c, (List.getLast?_eq_some_getLast ht).trans hc, hblank⟩

theorem endsBlank_of_all {s : List Char} (hs : s ≠ []) (h : s.all isBlank = true) :
    EndsBlank s :=
  ⟨s.getLast hs, List.getLast?_eq_some_getLast hs,
    List.all_eq_true.mp h _ (List.getLast_mem hs)⟩

/-- What follows segments is read where they end: after them, or at the blanks that end them. -/
theorem readAll_append {s : List Char} {found : List Segment}
    (h : readAll s = .ok (some found)) :
    ∃ blanks, blanks.all isBlank = true ∧ blanks <:+ s ∧ (blanks = [] → ¬ EndsBlank s) ∧
      ∀ t, Apart t → readAll (s ++ t) =
        (readAll (blanks ++ t)).map (Option.map (found ++ ·)) := by
  induction hn : s.length using Nat.strongRecOn generalizing s found with
  | ind n ih =>
    subst hn
    rcases readAll_cases h with ⟨hblank, rfl⟩ |
      ⟨written, rest, first, more, hsegment, hread, hmore, rfl⟩
    · refine ⟨s, hblank, List.suffix_refl s, ?_, fun t _ => ?_⟩
      · rintro rfl ⟨c, hc, -⟩
        cases hc
      · cases readAll (s ++ t) with
        | error e => rfl
        | ok found => cases found <;> rfl
    · obtain ⟨hsuffix, hlength, -⟩ := segment?_split hsegment
      obtain ⟨blanks, hblanks, hcut, hend, happend⟩ := ih rest.length hlength hmore rfl
      refine ⟨blanks, hblanks, hcut.trans hsuffix, fun hnil => ?_, fun t ht => ?_⟩
      · by_cases hrest : rest = []
        · exact not_endsBlank_of_segment? (hrest ▸ hsegment)
        · obtain ⟨front, rfl⟩ := hsuffix
          exact fun h => hend hnil (h.of_cut hrest)
      · rw [readAll_cons (segment?_append hsegment ht), hread, happend t ht]
        cases readAll (blanks ++ t) with
        | error e => rfl
        | ok found => cases found <;> rfl

theorem root?_name (root : Root) (rest : List Char) :
    root? (root.name.toList ++ rest) = some (root, rest) := by
  have hafter : Text.afterWord? root.name (root.name.toList ++ rest) = some rest :=
    Text.afterWord?_eq_some_iff.mpr rfl
  cases root with
  | input => simp only [root?, hafter]
  | data =>
    have hinput : Text.afterWord? Root.input.name (Root.data.name.toList ++ rest) = none := rfl
    simp only [root?, hinput, hafter, Option.map_some]

theorem stripStart_name (root : Root) (rest : List Char) :
    stripStart (root.name.toList ++ rest) = root.name.toList ++ rest := by
  cases root <;> rfl

theorem not_endsBlank_name (root : Root) (s : List Char) :
    ¬ EndsBlank (s ++ root.name.toList) := by
  intro h
  obtain ⟨c, hc, hblank⟩ := h.of_cut (by cases root <;> decide)
  cases root <;> cases hc <;> exact absurd hblank (by decide)

theorem parse_cases {s : List Char} {p : Path} (h : parse s = .ok (some p)) :
    ∃ rest, root? (stripStart s) = some (p.root, rest) ∧ rest.head?.any isWord = false ∧
      readAll rest = .ok (some p.segments) := by
  unfold parse at h
  split at h
  · cases h
  · rename_i root rest hroot
    split at h
    · cases h
    · rename_i hword
      obtain ⟨found, hfound, h⟩ := Json.ok_of_bind_ok h
      cases found with
      | none => cases h
      | some found =>
        cases h
        exact ⟨rest, hroot, Bool.eq_false_iff.mpr hword, hfound⟩

theorem parse_of_readAll {s rest : List Char} {root : Root}
    (hroot : root? (stripStart s) = some (root, rest)) (hword : rest.head?.any isWord = false) :
    parse s = (readAll rest).map (Option.map (⟨root, ·⟩)) := by
  simp only [parse, hroot, hword, Bool.false_eq_true, if_false]
  rfl

/-- What follows a path is read where its segments end. -/
theorem parse_append {s : List Char} {p : Path} (h : parse s = .ok (some p)) :
    ∃ blanks, blanks.all isBlank = true ∧ (blanks = [] ↔ ¬ EndsBlank s) ∧
      ∀ t, Apart t → parse (s ++ t) =
        (readAll (blanks ++ t)).map (Option.map fun more => ⟨p.root, p.segments ++ more⟩) := by
  obtain ⟨rest, hroot, hword, hread⟩ := parse_cases h
  obtain ⟨blanks, hblanks, hcut, hend, happend⟩ := readAll_append hread
  obtain ⟨left, -, hleft⟩ := stripStart_split s
  rw [root?_split hroot, ← List.append_assoc] at hleft
  refine ⟨blanks, hblanks, ⟨fun hnil => ?_, fun hs => ?_⟩, fun t ht => ?_⟩
  · rw [hleft]
    by_cases hrest : rest = []
    · rw [hrest, List.append_nil]
      exact not_endsBlank_name p.root left
    · exact fun h => hend hnil (h.of_cut hrest)
  · by_contra hne
    have hsuffix : rest <:+ s := ⟨_, hleft.symm⟩
    exact hs ((endsBlank_of_all hne hblanks).of_suffix (hcut.trans hsuffix))
  · have hstart : stripStart (s ++ t) = p.root.name.toList ++ (rest ++ t) := by
      have hne : stripStart s ≠ [] := by
        intro hnil
        rw [hnil] at hroot
        cases hroot
      rw [stripStart_append t hne, root?_split hroot, List.append_assoc]
    have hfirst : (rest ++ t).head?.any isWord = false := by
      cases rest with
      | cons c rest => exact hword
      | nil =>
        cases t with
        | nil => rfl
        | cons c t => exact (ht c rfl).1
    rw [parse_of_readAll (hstart ▸ root?_name p.root (rest ++ t)) hfirst, happend t ht]
    cases readAll (blanks ++ t) with
    | error e => rfl
    | ok found => cases found <;> rfl

end PolicyEditor.Path
