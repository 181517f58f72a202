/-!
Taking texts apart: at a separator, or after a word that they begin with.
-/

namespace PolicyEditor.Text

def pieces (separator : Char) : List Char → List (List Char)
  | [] => [[]]
  | c :: rest =>
    if c = separator then [] :: pieces separator rest
    else
      match pieces separator rest with
      | [] => [[c]]
      | first :: more => (c :: first) :: more

theorem exists_pieces (separator : Char) (s : List Char) :
    ∃ first more, pieces separator s = first :: more ∧
      ∀ c, c ≠ separator → pieces separator (c :: s) = (c :: first) :: more := by
  cases hs : pieces separator s with
  | nil =>
    -- Every text has a first piece.
    cases s with
    | nil => cases hs
    | cons c rest =>
      rw [pieces] at hs
      split at hs
      · cases hs
      · split at hs <;> cases hs
  | cons first more =>
    refine ⟨first, more, rfl, fun c hc => ?_⟩
    rw [pieces, if_neg hc, hs]

def afterWord? (word : String) (s : List Char) : Option (List Char) :=
  if word.toList.isPrefixOf s then some (s.drop word.length) else none

theorem afterWord?_eq_some_iff {word : String} {s rest : List Char} :
    afterWord? word s = some rest ↔ s = word.toList ++ rest := by
  unfold afterWord?
  constructor
  · intro h
    split at h
    · rename_i hprefix
      obtain ⟨after, rfl⟩ := List.isPrefixOf_iff_prefix.mp hprefix
      rw [← String.length_toList, List.drop_left, Option.some.injEq] at h
      rw [h]
    · cases h
  · rintro rfl
    have hprefix := List.isPrefixOf_iff_prefix.mpr (List.prefix_append word.toList rest)
    rw [if_pos hprefix, ← String.length_toList, List.drop_left]

end PolicyEditor.Text
