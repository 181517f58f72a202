import Mathlib.Data.List.Forall2
import PolicyEditor.Validation.Basic

/-!
When checks succeed. A check made of others gives a value exactly if each of them does; one lemma
for each way to put checks together says which value that is.
-/

namespace PolicyEditor.Validation

variable {α β : Type}

namespace Checked

theorem toOption_eq_some_iff {x : Checked α} {a : α} : x.toOption = some a ↔ x = .valid a := by
  cases x <;> simp [toOption]

theorem map_eq_valid_iff {f : α → β} {x : Checked α} {b : β} :
    x.map f = .valid b ↔ ∃ a, x = .valid a ∧ f a = b := by
  cases x <;> simp [map]

theorem and_eq_valid_iff {f : Checked (α → β)} {x : Checked α} {b : β} :
    f.and x = .valid b ↔ ∃ g a, f = .valid g ∧ x = .valid a ∧ g a = b := by
  cases f <;> cases x <;> simp [Checked.and]

theorem andThen_eq_valid_iff {x : Checked α} {f : α → Checked β} {b : β} :
    x.andThen f = .valid b ↔ ∃ a, x = .valid a ∧ f a = .valid b := by
  cases x <;> simp [andThen]

theorem under_eq_valid_iff {field : String} {x : Checked α} {a : α} :
    x.under field = .valid a ↔ x = .valid a := by
  cases x <;> simp [under]

end Checked

theorem flawed_ne_valid (flaw : Flaw) (a : α) : flawed flaw ≠ .valid a := nofun

/-- A list of values is checked value by value. -/
theorem each_eq_valid_iff {check : Json → Checked α} {number : Nat} {vs : List Json}
    {as : List α} :
    each check number vs = .valid as ↔ List.Forall₂ (fun v a => check v = .valid a) vs as := by
  induction vs generalizing number as with
  | nil => cases as <;> simp [each]
  | cons v vs ih =>
    simp only [each, Checked.and_eq_valid_iff, Checked.map_eq_valid_iff,
      Checked.under_eq_valid_iff, ih, List.forall₂_cons_left_iff]
    constructor
    · rintro ⟨_, as, ⟨a, ha, rfl⟩, has, rfl⟩
      exact ⟨a, as, ha, has, rfl⟩
    · rintro ⟨a, as, ha, has, rfl⟩
      exact ⟨_, as, ⟨a, ha, rfl⟩, has, rfl⟩

theorem list_eq_valid_iff {check : Json → Checked α} {v : Json} {as : List α} :
    list check v = .valid as ↔
      ∃ vs, v = .arr vs ∧ List.Forall₂ (fun v a => check v = .valid a) vs as := by
  cases v <;> simp [list, flawed_ne_valid, each_eq_valid_iff]

theorem dictionary_eq_valid_iff {v : Json} {members : List (String × Json)} :
    dictionary v = .valid members ↔ v = .obj members := by
  cases v <;> simp [dictionary, flawed_ne_valid]

theorem literal_eq_valid_iff {values : List (String × α)} {v : Json} {a : α} :
    literal values v = .valid a ↔ ∃ name, v = .str name ∧ Json.find? name values = some a := by
  cases v with
  | str name => cases hfind : Json.find? name values <;> simp [literal, hfind, flawed_ne_valid]
  | _ => simp [literal, flawed_ne_valid]

/-! ### Values that may be null -/

theorem nullable_eq_none_iff {check : Json → Checked α} {v : Json} :
    nullable check v = .valid none ↔ v = .null := by
  cases v <;> simp [nullable, Checked.map_eq_valid_iff]

theorem nullable_eq_some_iff {check : Json → Checked α} {v : Json} {a : α} :
    nullable check v = .valid (some a) ↔ v ≠ .null ∧ check v = .valid a := by
  cases v <;> simp [nullable, Checked.map_eq_valid_iff]

theorem exists_nullable {check : Json → Checked α} {v : Json}
    (h : v ≠ .null → ∃ a, check v = .valid a) : ∃ a, nullable check v = .valid a := by
  by_cases hnull : v = .null
  · exact ⟨none, nullable_eq_none_iff.mpr hnull⟩
  · obtain ⟨a, ha⟩ := h hnull
    exact ⟨some a, nullable_eq_some_iff.mpr ⟨hnull, ha⟩⟩

theorem null_iff_of_nullable {check : Json → Checked α} {v : Json} {a : Option α}
    (h : nullable check v = .valid a) : v = .null ↔ a = none := by
  cases a with
  | none => exact iff_of_true (nullable_eq_none_iff.mp h) rfl
  | some a => exact iff_of_false (nullable_eq_some_iff.mp h).1 nofun

/-- Of a value that may be null only another one is looked at. -/
theorem nullable_congr {check check' : Json → Checked α} {v : Json} (h : check v = check' v) :
    nullable check v = nullable check' v := by
  cases v <;> simp only [nullable, h]

theorem nullable_string_eq_valid_iff {v : Json} {text : Option String} :
    nullable string v = .valid text ↔ v = .ofOption text := by
  cases v <;> cases text <;> simp [nullable, string, flawed, Checked.map, Json.ofOption]

/-! ### Fields -/

def given (field : String) (members : List (String × Json)) : Json :=
  (Json.find? field members).getD .null

section

variable {check : Json → Checked α} {field : String} {members : List (String × Json)}

/-- A field that takes for null what it takes when it is missing is checked as if it were there. -/
theorem optional_eq_under {default : α} (hnull : check .null = .valid default) :
    optional field default check members = (check (given field members)).under field := by
  unfold optional given
  cases Json.find? field members with
  | none => rw [Option.getD_none, hnull, Checked.under]
  | some v => rfl

theorem optional_nullable_eq_under :
    optional field none (nullable check) members =
      (nullable check (given field members)).under field :=
  optional_eq_under rfl

theorem optional_nullable_eq_valid_iff {a : Option α} :
    optional field none (nullable check) members = .valid a ↔
      nullable check (given field members) = .valid a := by
  rw [optional_nullable_eq_under, Checked.under_eq_valid_iff]

theorem optional_anything_eq_valid_iff {v : Json} :
    optional field .null anything members = .valid v ↔ given field members = v := by
  have hunder : optional field .null anything members =
      (anything (given field members)).under field := optional_eq_under rfl
  rw [hunder, Checked.under_eq_valid_iff, anything, Checked.valid.injEq]

/-- A field that cannot be null has to be there. -/
theorem required_eq_valid_iff {a : α} (hnull : check .null ≠ .valid a) :
    required field check members = .valid a ↔ check (given field members) = .valid a := by
  unfold required given
  cases Json.find? field members with
  | none => exact iff_of_false (flawed_ne_valid .missing a ∘ Checked.under_eq_valid_iff.mp) hnull
  | some v => exact Checked.under_eq_valid_iff

end

end PolicyEditor.Validation
