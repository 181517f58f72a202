import PolicyEditor.Proofs.Path.Scanning

/-!
Texts without blanks around them. What the scanner under a cursor takes for a path is one of these,
and so is a path that is still being typed.
-/

namespace PolicyEditor.Path

open PolicyEditor.Completion (afterIndex? afterPart? afterParts afterPath? isTypedPath)
open PolicyEditor.Schema (Root)
open PolicyEditor.Text (isBlank isNameChar stripStart stripEnd strip)

/-! ### Blanks at the ends -/

theorem stripEnd_eq_self_iff {s : List Char} : stripEnd s = s ↔ ¬ EndsBlank s := by
  constructor
  · rintro h ⟨c, hc, hblank⟩
    rw [stripEnd, ← List.reverse_inj, List.reverse_reverse] at h
    have hlast := List.head?_dropWhile_not isBlank s.reverse
    rw [h, List.head?_reverse, Option.mem_def.mp hc] at hlast
    exact absurd hblank (Bool.eq_false_iff.mp hlast)
  · intro h
    rw [stripEnd, ← List.reverse_inj, List.reverse_reverse]
    cases hs : s.reverse with
    | nil => rfl
    | cons c rest =>
      refine List.dropWhile_cons_of_neg fun hblank => h ⟨c, ?_, hblank⟩
      rw [Option.mem_def, ← List.head?_reverse, hs, List.head?_cons]

/-- A text is trimmed if no blank begins it and none ends it. -/
theorem strip_eq_self_iff {s : List Char} : strip s = s ↔ stripStart s = s ∧ ¬ EndsBlank s := by
  rw [← stripEnd_eq_self_iff]
  constructor
  · intro h
    have hlength : (strip s).length ≤ (stripStart s).length := by
      have hshorter := (List.dropWhile_suffix (l := (stripStart s).reverse) isBlank).length_le
      rw [List.length_reverse] at hshorter
      rw [strip, stripEnd, List.length_reverse]
      exact hshorter
    rw [h] at hlength
    have hstart := (stripStart_suffix s).eq_of_length_le hlength
    refine ⟨hstart, ?_⟩
    rw [strip, hstart] at h
    exact h
  · rintro ⟨hstart, hend⟩
    rw [strip, hstart, hend]

theorem not_endsBlank_nil : ¬ EndsBlank [] := by
  rintro ⟨c, hc, -⟩
  cases hc

theorem not_endsBlank_append {s t : List Char} (hs : ¬ EndsBlank s) (ht : ¬ EndsBlank t) :
    ¬ EndsBlank (s ++ t) := by
  by_cases hnil : t = []
  · rw [hnil, List.append_nil]
    exact hs
  · exact fun h => ht (h.of_cut hnil)

theorem not_endsBlank_of_forall {s : List Char} (h : ∀ c ∈ s, isBlank c = false) :
    ¬ EndsBlank s := by
  rintro ⟨c, hc, hblank⟩
  rw [h c (List.mem_of_getLast? hc)] at hblank
  cases hblank

/-! ### What the scanner takes -/

/-- A dot and the name characters after it. -/
theorem not_endsBlank_dot {s : List Char} (h : ∀ c ∈ s, isNameChar c = true) :
    ¬ EndsBlank ('.' :: s) :=
  not_endsBlank_of_forall (List.forall_mem_cons.mpr
    ⟨by decide, fun c hc => isBlank_eq_false_of_isNameChar (h c hc)⟩)

/-- Brackets are taken up to the closing one. -/
theorem afterIndex?_split {s rest : List Char} (h : afterIndex? s = some rest) :
    ∃ inside, s = inside ++ ']' :: rest := by
  have hclose : ∀ {t : List Char}, t <:+ s → afterBracket? t = some rest →
      ∃ inside, s = inside ++ ']' :: rest := by
    rintro t ⟨front, rfl⟩ ht
    obtain ⟨blanks, -, rfl⟩ := afterBracket?_split ht
    exact ⟨front ++ blanks, (List.append_assoc _ _ _).symm⟩
  have hstart := stripStart_suffix s
  unfold afterIndex? at h
  split at h
  · rename_i inner hinner
    rw [hinner] at hstart
    exact hclose ((List.suffix_cons _ _).trans hstart) h
  · rename_i inner hinner
    rw [hinner] at hstart
    split at h
    · rename_i after hafter
      have hinside := (List.dropWhile_suffix (l := inner) (· ≠ '"'))
      rw [hafter] at hinside
      exact hclose (((List.suffix_cons _ _).trans hinside).trans
        ((List.suffix_cons _ _).trans hstart)) h
    · cases h
  · split at h
    · exact hclose ((List.dropWhile_suffix _).trans hstart) h
    · cases h

theorem afterPart?_split {s rest : List Char} (h : afterPart? s = some rest) :
    ∃ part, s = part ++ rest ∧ ¬ EndsBlank part := by
  unfold afterPart? at h
  split at h
  · rename_i c tail
    split at h
    · rename_i hc
      cases h
      refine ⟨'.' :: (c :: tail.takeWhile isNameChar), ?_, not_endsBlank_dot ?_⟩
      · rw [List.cons_append, List.cons_append, List.takeWhile_append_dropWhile]
      · exact List.forall_mem_cons.mpr
          ⟨Text.isNameChar_of_isNameStart hc, List.all_eq_true.mp List.all_takeWhile⟩
    · cases h
  · rename_i tail
    obtain ⟨inside, rfl⟩ := afterIndex?_split h
    refine ⟨'[' :: inside ++ [']'], by simp, ?_⟩
    rintro ⟨c, hc, hblank⟩
    rw [List.getLast?_concat] at hc
    cases hc
    exact absurd hblank (by decide)
  · cases h

theorem afterParts_split (rounds : Nat) (s : List Char) :
    ∃ parts, s = parts ++ afterParts rounds s ∧ ¬ EndsBlank parts := by
  induction rounds generalizing s with
  | zero => exact ⟨[], rfl, not_endsBlank_nil⟩
  | succ rounds ih =>
    rw [afterParts]
    split
    · rename_i rest hpart
      obtain ⟨part, rfl, hend⟩ := afterPart?_split hpart
      obtain ⟨parts, hparts, hends⟩ := ih rest
      exact ⟨part ++ parts, by rw [List.append_assoc, ← hparts], not_endsBlank_append hend hends⟩
    · exact ⟨[], rfl, not_endsBlank_nil⟩

/-- The scanner takes a root and parts of a path, and does not stop behind a blank. -/
theorem afterPath?_split {s after : List Char} (h : afterPath? s = some after) :
    ∃ (root : Root) (parts : List Char), s = root.name.toList ++ parts ++ after ∧
      ¬ EndsBlank (root.name.toList ++ parts) := by
  obtain ⟨⟨root, rest⟩, hroot, rfl⟩ := Option.map_eq_some_iff.mp h
  obtain ⟨parts, hparts, hend⟩ := afterParts_split rest.length rest
  refine ⟨root, parts, ?_, not_endsBlank_append (not_endsBlank_name root []) hend⟩
  rw [List.append_assoc]
  exact (root?_split hroot).trans (congrArg _ hparts)

theorem strip_of_name {root : Root} {rest : List Char} (h : ¬ EndsBlank (root.name.toList ++ rest)) :
    strip (root.name.toList ++ rest) = root.name.toList ++ rest :=
  strip_eq_self_iff.mpr ⟨stripStart_name root rest, h⟩

theorem strip_of_isTypedPath {s : List Char} (h : isTypedPath s = true) : strip s = s := by
  unfold isTypedPath at h
  split at h
  · cases h
  · rename_i hpath
    obtain ⟨root, parts, rfl, hend⟩ := afterPath?_split hpath
    rw [List.append_nil]
    exact strip_of_name hend
  · rename_i c rest hpath
    obtain ⟨hdot, hrest⟩ := Bool.and_eq_true_iff.mp h
    obtain ⟨root, parts, rfl, hend⟩ := afterPath?_split hpath
    have hdotted := not_endsBlank_dot (List.all_eq_true.mp hrest)
    have htyped := not_endsBlank_append hend hdotted
    rw [beq_iff_eq.mp hdot]
    rw [List.append_assoc] at htyped ⊢
    exact strip_of_name htyped

end PolicyEditor.Path
