import Mathlib.Data.List.Forall2
import Mathlib.Data.List.TakeWhile
import PolicyEditor.Proofs.Json.Spacing
import PolicyEditor.Proofs.Json.Spelling

/-!
Documents put together from documents. The text of a value is read as this value in front of
everything that no word goes on in. So texts of values, with commas between them and brackets around
them, are read as the list of these values.
-/

namespace PolicyEditor.Json

/-- Behind white space a text is read as a value, in front of everything that no word goes on in. -/
def Carries (used : List Char) (v : Json) : Prop :=
  ∀ tail n, EndsWord tail → (used ++ tail).length < n →
    valueUpTo n (skipSpace (used ++ tail)) = .ok (v, tail)

/-- A text up to the bracket that closes an array is read as its elements, in front of everything. -/
def CarriesElements (used : List Char) (vs : List Json) : Prop :=
  ∀ tail n rounds, (used ++ tail).length < n → (used ++ tail).length < rounds →
    elements (valueUpTo n) rounds (skipSpace (used ++ tail)) = .ok (vs, tail)

/-- A text up to the brace that closes an object is read as its members, in front of everything. -/
def CarriesMembers (used : List Char) (ms : List (String × Json)) : Prop :=
  ∀ tail n rounds width, (used ++ tail).length < n → (used ++ tail).length < rounds →
    (used ++ tail).length < width →
    members width (valueUpTo n) rounds (skipSpace (used ++ tail)) = .ok (ms, tail)

/-! ### White space and marks -/

section

variable {space used more raw chars : List Char} {v : Json} {vs : List Json}
variable {ms : List (String × Json)}

theorem Carries.spaced (h : Carries used v) (hspace : Blank space) : Carries (space ++ used) v := by
  intro tail n htail hn
  rw [List.append_assoc, List.length_append] at hn
  rw [List.append_assoc, skipSpace_append hspace]
  exact h tail n htail (by omega)

theorem CarriesElements.spaced (h : CarriesElements used vs) (hspace : Blank space) :
    CarriesElements (space ++ used) vs := by
  intro tail n rounds hn hrounds
  rw [List.append_assoc, List.length_append] at hn hrounds
  rw [List.append_assoc, skipSpace_append hspace]
  exact h tail n rounds (by omega) (by omega)

theorem CarriesMembers.spaced (h : CarriesMembers used ms) (hspace : Blank space) :
    CarriesMembers (space ++ used) ms := by
  intro tail n rounds width hn hrounds hwidth
  rw [List.append_assoc, List.length_append] at hn hrounds hwidth
  rw [List.append_assoc, skipSpace_append hspace]
  exact h tail n rounds width (by omega) (by omega) (by omega)

/-! ### Values from their parts -/

def memberText (raw space used : List Char) : List Char :=
  '"' :: raw ++ '"' :: (space ++ ':' :: used)

end

/-! ### What is read -/

theorem Carries.decode? {s : List Char} {v : Json} (h : Carries s v)
    (hmark : s.head? ≠ some '\uFEFF') : decode? s = some v := by
  have hread := h [] (s.length + 1) nofun (by rw [List.append_nil]; omega)
  rw [List.append_nil] at hread
  simp only [Json.decode?, decode, document, if_neg hmark, bind, Except.bind, hread]
  rfl

end PolicyEditor.Json
