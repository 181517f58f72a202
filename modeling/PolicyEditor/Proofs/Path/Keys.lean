import PolicyEditor.Path.Basic
import PolicyEditor.Proofs.Json.StringText

/-!
Which texts hold a quoted key that no document could hold. Reading a path fails exactly if its
segments, read one after the other, lead to such a key.
-/

namespace PolicyEditor.Path

open PolicyEditor.Json (BetweenQuotes StringText decode_quoted_iff)
open PolicyEditor.Schema (Context Root)
open PolicyEditor.Text (isBlank isWord stripStart)

/-- A quoted key in brackets somewhere in a text, with blanks inside the brackets or not. -/
def HoldsKey (s raw : List Char) : Prop :=
  BetweenQuotes raw ∧ ∃ left right, left.all isBlank = true ∧ right.all isBlank = true ∧
    '[' :: left ++ '"' :: raw ++ '"' :: right ++ [']'] <:+: s

/-- Every quoted key in brackets is the inside of a string. -/
def ReadableKeys (s : List Char) : Prop :=
  ∀ raw, HoldsKey s raw → StringText raw

/-- Segments that lead from the beginning of a text to a key that is not the inside of a string. -/
inductive LeadsToUnreadable : List Char → Prop where
  | key {s raw after : List Char} : segment? s = some (.quoted raw, after) → ¬ StringText raw →
      LeadsToUnreadable s
  | step {s after : List Char} {written : Written} : segment? s = some (written, after) →
      LeadsToUnreadable after → LeadsToUnreadable s

/-- A root after blanks or none, from which segments lead to a key that cannot be read. -/
def MeetsUnreadable (s : List Char) : Prop :=
  ∃ root rest, root? (stripStart s) = some (root, rest) ∧ rest.head?.any isWord = false ∧
    LeadsToUnreadable rest

theorem HoldsKey.of_infix {s t raw : List Char} (ht : t <:+: s) (h : HoldsKey t raw) :
    HoldsKey s raw := by
  obtain ⟨hraw, left, right, hleft, hright, hkey⟩ := h
  exact ⟨hraw, left, right, hleft, hright, hkey.trans ht⟩

theorem ReadableKeys.of_infix {s t : List Char} (ht : t <:+: s) (h : ReadableKeys s) :
    ReadableKeys t :=
  fun raw hraw => h raw (hraw.of_infix ht)

/-! ### Segments -/

theorem stripStart_split (s : List Char) :
    ∃ blanks, blanks.all isBlank = true ∧ s = blanks ++ stripStart s :=
  ⟨s.takeWhile isBlank, List.all_takeWhile, List.takeWhile_append_dropWhile.symm⟩

theorem stripStart_suffix (s : List Char) : stripStart s <:+ s :=
  List.dropWhile_suffix _

theorem quotedRun_split {s raw after : List Char} (h : quotedRun s = some (raw, after)) :
    BetweenQuotes raw ∧ s = raw ++ '"' :: after := by
  induction s using quotedRun.induct generalizing raw with
  | case1 => cases h
  | case2 rest =>
    cases h
    exact ⟨.nil, rfl⟩
  | case3 => cases h
  | case4 rest => simp [quotedRun] at h
  | case5 c rest hc ih =>
    simp only [quotedRun, hc, if_false, Option.map_eq_some_iff] at h
    obtain ⟨⟨raw', after'⟩, hrest, heq⟩ := h
    cases heq
    obtain ⟨hraw, rfl⟩ := ih hrest
    exact ⟨.escape hc hraw, rfl⟩
  | case6 c rest hquote hlast hslash ih =>
    have hne : c ≠ '\\' := by
      rintro rfl
      match rest with
      | [] => exact hlast rfl rfl
      | d :: rest => exact hslash d rest rfl rfl
    rw [quotedRun.eq_5 _ _ hquote hlast hslash, Option.map_eq_some_iff] at h
    obtain ⟨⟨raw', after'⟩, hrest, heq⟩ := h
    cases heq
    obtain ⟨hraw, rfl⟩ := ih hrest
    exact ⟨.plain hquote hne hraw, rfl⟩

theorem afterBracket?_split {s after : List Char} (h : afterBracket? s = some after) :
    ∃ blanks, blanks.all isBlank = true ∧ s = blanks ++ ']' :: after := by
  obtain ⟨blanks, hblanks, hs⟩ := stripStart_split s
  unfold afterBracket? at h
  split at h
  · rename_i rest hrest
    cases h
    exact ⟨blanks, hblanks, hrest ▸ hs⟩
  · cases h

/-- A segment takes text away; one in brackets and quotes is a key of the text. -/
theorem segment?_split {s after : List Char} {written : Written}
    (h : segment? s = some (written, after)) : after <:+ s ∧ after.length < s.length ∧
      ∀ raw, written = .quoted raw → HoldsKey s raw := by
  unfold segment? at h
  split at h
  · rename_i c rest
    have hname := List.dropWhile_suffix (l := rest) Text.isNameChar
    have hdigits := List.dropWhile_suffix (l := rest) Text.isDecimal
    have hrest : rest <:+ '.' :: c :: rest := ⟨['.', c], rfl⟩
    split at h
    · cases h
      have hlength := hname.length_le
      exact ⟨hname.trans hrest, by simp only [List.length_cons]; omega, nofun⟩
    split at h
    · cases h
      have hlength := hdigits.length_le
      exact ⟨hdigits.trans hrest, by simp only [List.length_cons]; omega, nofun⟩
    · cases h
  · rename_i rest
    obtain ⟨left, hleft, hsplit⟩ := stripStart_split rest
    unfold bracketed? at h
    split at h
    · rename_i inner hinner
      simp only [Option.map_eq_some_iff, Prod.mk.injEq] at h
      obtain ⟨last, hlast, rfl, rfl⟩ := h
      obtain ⟨right, -, rfl⟩ := afterBracket?_split hlast
      rw [hsplit, hinner]
      refine ⟨⟨'[' :: left ++ '_' :: right ++ [']'], by simp⟩, ?_, nofun⟩
      simp only [List.length_cons, List.length_append]
      omega
    · rename_i inner hinner
      split at h
      case h_2 => cases h
      rename_i raw close hrun
      simp only [Option.map_eq_some_iff, Prod.mk.injEq] at h
      obtain ⟨last, hlast, rfl, rfl⟩ := h
      obtain ⟨right, hright, rfl⟩ := afterBracket?_split hlast
      obtain ⟨hraw, rfl⟩ := quotedRun_split hrun
      rw [hsplit, hinner]
      refine ⟨⟨'[' :: left ++ '"' :: raw ++ '"' :: right ++ [']'], by simp⟩, ?_, ?_⟩
      · simp only [List.length_cons, List.length_append]
        omega
      · intro raw' heq
        cases heq
        exact ⟨hraw, left, right, hleft, hright, [], last, by simp⟩
    · split at h
      · cases h
      · rename_i digits hdigits
        simp only [Option.map_eq_some_iff, Prod.mk.injEq] at h
        obtain ⟨last, hlast, rfl, rfl⟩ := h
        obtain ⟨right, -, hdrop⟩ := afterBracket?_split hlast
        have hlast : last <:+ List.drop _ (stripStart rest) :=
          ⟨right ++ [']'], by rw [hdrop]; simp⟩
        have hall := (hlast.trans (List.drop_suffix _ _)).trans (stripStart_suffix rest)
        have hlength := hall.length_le
        exact ⟨hall.trans (List.suffix_cons _ _), by simp only [List.length_cons]; omega, nofun⟩
  · cases h

theorem segment?_blank {s : List Char} (h : s.all isBlank = true) : segment? s = none := by
  unfold segment?
  split
  · exact absurd (List.all_eq_true.mp h '.' List.mem_cons_self) (by decide)
  · exact absurd (List.all_eq_true.mp h '[' List.mem_cons_self) (by decide)
  · rfl

/-- A key that cannot be read stands in the text. -/
theorem LeadsToUnreadable.holdsKey {s : List Char} (h : LeadsToUnreadable s) :
    ∃ raw, HoldsKey s raw ∧ ¬ StringText raw := by
  induction h with
  | @key s raw after hsegment hraw => exact ⟨raw, (segment?_split hsegment).2.2 raw rfl, hraw⟩
  | step hsegment _ ih =>
    obtain ⟨raw, hkey, hraw⟩ := ih
    exact ⟨raw, hkey.of_infix (segment?_split hsegment).1.isInfix, hraw⟩

/-! ### Reading -/

section

variable {ε α β γ : Type} {x : Except ε α} {y : Except ε β}

theorem raises_map_iff (f : α → γ) :
    (∃ e, (do let a ← x; return f a) = .error e) ↔ ∃ e, x = .error e := by
  cases x <;> simp [bind, Except.bind, pure, Except.pure]

theorem raises_pair_iff (f : α → β → γ) :
    (∃ e, (do let a ← x; let b ← y; return f a b) = .error e) ↔
      (∃ e, x = .error e) ∨ ∃ e, y = .error e := by
  cases x <;> cases y <;> simp [bind, Except.bind, pure, Except.pure]

theorem raises_of_isOk (h : x.isOk = false) : ∃ e, x = .error e := by
  cases x with
  | error e => exact ⟨e, rfl⟩
  | ok a => cases h

theorem ok_of_not_raises (h : ¬ ∃ e, x = .error e) : ∃ a, x = .ok a := by
  cases x with
  | error e => exact absurd ⟨e, rfl⟩ h
  | ok a => exact ⟨a, rfl⟩

end

theorem decodeKey_raises_iff {raw : List Char} (h : BetweenQuotes raw) :
    (∃ e, decodeKey ('"' :: raw ++ ['"']) = .error e) ↔ ¬ StringText raw := by
  rw [← decode_quoted_iff h]
  unfold decodeKey
  cases Json.decode ('"' :: raw ++ ['"']) with
  | error e => simp
  | ok v => cases v <;> simp

theorem read_raises_iff {s after : List Char} {written : Written}
    (h : segment? s = some (written, after)) :
    (∃ e, written.read = .error e) ↔ ∃ raw, written = .quoted raw ∧ ¬ StringText raw := by
  cases written with
  | name key => simp [Written.read]
  | index text => simp [Written.read]
  | quoted raw =>
    have hraw := ((segment?_split h).2.2 raw rfl).1
    simp only [Written.quoted.injEq, exists_eq_left', ← decodeKey_raises_iff hraw, Written.read]
    cases decodeKey ('"' :: raw ++ ['"']) <;> simp [Except.map]

/-- On the number of rounds, of which every segment takes one. -/
theorem readSegments_raises_iff {rounds : Nat} {s : List Char} (h : s.length < rounds) :
    (∃ e, readSegments rounds s = .error e) ↔ LeadsToUnreadable s := by
  induction rounds generalizing s with
  | zero => omega
  | succ rounds ih =>
    by_cases hblank : s.all isBlank = true
    · simp only [readSegments, hblank, if_true, reduceCtorEq, exists_false, false_iff]
      intro hlead
      cases hlead with
      | key hsegment _ | step hsegment _ =>
        rw [segment?_blank hblank] at hsegment
        cases hsegment
    · simp only [readSegments, hblank]
      cases hsegment : segment? s with
      | none =>
        simp only [reduceCtorEq, exists_false, false_iff, Bool.false_eq_true, if_false]
        intro hlead
        cases hlead with
        | key h _ | step h _ =>
          rw [hsegment] at h
          cases h
      | some found =>
        obtain ⟨written, rest⟩ := found
        have hrest := ih (s := rest) (by have := (segment?_split hsegment).2.1; omega)
        have hread := read_raises_iff hsegment
        have hlead : LeadsToUnreadable s ↔
            (∃ raw, written = .quoted raw ∧ ¬ StringText raw) ∨ LeadsToUnreadable rest := by
          constructor
          · intro hlead
            cases hlead with
            | key h hraw =>
              rw [hsegment] at h
              cases h
              exact .inl ⟨_, rfl, hraw⟩
            | step h hlead =>
              rw [hsegment] at h
              cases h
              exact .inr hlead
          · rintro (⟨raw, rfl, hraw⟩ | hlead)
            · exact .key hsegment hraw
            · exact .step hsegment hlead
        rw [hlead, ← hread, ← hrest]
        exact raises_pair_iff fun first (more : Option (List Segment)) => more.map (first :: ·)

theorem parse_raises_iff (s : List Char) : (∃ e, parse s = .error e) ↔ MeetsUnreadable s := by
  unfold parse MeetsUnreadable
  cases hroot : root? (stripStart s) with
  | none => simp
  | some found =>
    obtain ⟨root, rest⟩ := found
    simp only [Option.some.injEq, Prod.mk.injEq]
    by_cases hword : rest.head?.any isWord = true
    · simp only [hword, if_true, reduceCtorEq, exists_false, false_iff]
      rintro ⟨_, _, ⟨-, rfl⟩, hword', -⟩
      rw [hword] at hword'
      cases hword'
    · have hsegments := readSegments_raises_iff (Nat.lt_succ_self rest.length)
      have hmeets : (∃ root' rest', (root = root' ∧ rest = rest') ∧
          rest'.head?.any isWord = false ∧ LeadsToUnreadable rest') ↔ LeadsToUnreadable rest := by
        constructor
        · rintro ⟨_, _, ⟨-, rfl⟩, -, hlead⟩
          exact hlead
        · exact fun hlead => ⟨root, rest, ⟨rfl, rfl⟩, Bool.eq_false_iff.mpr hword, hlead⟩
      rw [hmeets, ← hsegments]
      simp only [hword]
      exact raises_map_iff fun (found : Option (List Segment)) => found.map (Path.mk root)

theorem resolve_raises_iff (context : Context) (s : List Char) :
    (∃ e, resolve context s = .error e) ↔ MeetsUnreadable s := by
  rw [← parse_raises_iff]
  exact raises_map_iff fun (found : Option Path) => found.bind (lookup context)

/-! ### Keys that can be read -/

theorem root?_split {s rest : List Char} {root : Root} (h : root? s = some (root, rest)) :
    s = root.name.toList ++ rest := by
  unfold root? at h
  split at h
  · rename_i hinput
    cases h
    exact Text.afterWord?_eq_some_iff.mp hinput
  · simp only [Option.map_eq_some_iff, Prod.mk.injEq] at h
    obtain ⟨_, hdata, rfl, rfl⟩ := h
    exact Text.afterWord?_eq_some_iff.mp hdata

theorem ReadableKeys.not_meetsUnreadable {s : List Char} (h : ReadableKeys s) :
    ¬ MeetsUnreadable s := by
  rintro ⟨root, rest, hroot, -, hlead⟩
  obtain ⟨raw, hkey, hraw⟩ := hlead.holdsKey
  have hsuffix : rest <:+ Text.stripStart s := ⟨_, (root?_split hroot).symm⟩
  have hrest := hsuffix.trans (stripStart_suffix s)
  exact hraw (h raw (hkey.of_infix hrest.isInfix))

end PolicyEditor.Path
