import PolicyEditor.Proofs.Json.Assembly
import PolicyEditor.Proofs.Lint.Output

/-!
Every output of a linter that does not nest too deep is read as one report. Output that tells of no
report says that the policy is invalid, and nothing else; output that lists violations loses none of
them.
-/

namespace PolicyEditor.Lint

open PolicyEditor.Text (isBlank)
open PolicyEditor.Validation

/-! ### What an output tells -/

/-- A member that is there and does not count as nothing. -/
def Counts (fields : List (String × Json)) (field : String) (v : Json) : Prop :=
  Json.find? field fields = some v ∧ v.isEmpty = false

/-- What a member is taken for: itself if it counts, and a default otherwise. -/
def TakenFor (fields : List (String × Json)) (field : String) (default v : Json) : Prop :=
  Counts fields field v ∨ (∀ w, ¬ Counts fields field w) ∧ v = default

def ListViolations (listed : List Json) (vs : List Violation) : Prop :=
  List.Forall₂ (fun j v => Violation.check j = .valid v) listed vs

/-- The members of an output tell of a report. -/
structure Tells (fields : List (String × Json)) (r : Report) : Prop where
  violations : ∃ listed, TakenFor fields "violations" (.arr []) (.arr listed) ∧
    ListViolations listed r.violations
  summary : TakenFor fields "summary" (.obj []) (.obj r.summary)
  aggregates : TakenFor fields "aggregates" (.arr []) (.arr r.aggregates)
  parseError : r.parseError = none

/-- What a linter's output comes to, unless it nests too deep. -/
inductive Outcome [Json.Nesting] (stdout stderr : String) : Report → Prop where
  | silent : stdout.toList.all isBlank = true → stderr.toList.all isBlank = true →
      Outcome stdout stderr {}
  | complaint : stdout.toList.all isBlank = true → stderr.toList.all isBlank = false →
      Outcome stdout stderr
        (.unreadable (((parseMessage? stderr.toList).map String.ofList).getD "Parse error"))
  | report {fields : List (String × Json)} {r : Report} : stdout.toList.all isBlank = false →
      Json.load? stdout.toList = some (.obj fields) → Tells fields r → Outcome stdout stderr r
  | unreadable : stdout.toList.all isBlank = false → ¬ Json.TooDeep stdout.toList →
      (∀ fields r, Json.load? stdout.toList = some (.obj fields) → ¬ Tells fields r) →
      Outcome stdout stderr (.unreadable "Invalid policy syntax")

/-! ### Members of the output -/

section

variable {fields : List (String × Json)} {field : String}

end

section

variable [Json.Nesting] {stdout stderr : String}

end

/-! ### The rule of a violation -/

section

variable {fields : List (String × Json)}

theorem check_eq_valid_iff {v : Violation} :
    Violation.check (.obj fields) = .valid v ↔
      ruleField fields = .valid v.rule ∧ optionalText "category" fields = .valid v.category ∧
      optionalText "level" fields = .valid v.level ∧
      optionalText "description" fields = .valid v.description ∧
      Validation.optional "location" {} Location.check fields = .valid v.location ∧
      Validation.optional "related_resources" [] (list Resource.check) fields = .valid v.resources := by
  rw [Violation.check, record]
  simp only [Checked.and_eq_valid_iff]
  constructor
  · rintro ⟨_, _, ⟨_, _, ⟨_, _, ⟨_, _, ⟨_, _, ⟨_, _, ⟨⟩, hrule, rfl⟩, hcategory, rfl⟩, hlevel, rfl⟩,
      hdescription, rfl⟩, hlocation, rfl⟩, hresources, rfl⟩
    exact ⟨hrule, hcategory, hlevel, hdescription, hlocation, hresources⟩
  · rintro ⟨hrule, hcategory, hlevel, hdescription, hlocation, hresources⟩
    exact ⟨_, _, ⟨_, _, ⟨_, _, ⟨_, _, ⟨_, _, ⟨_, _, rfl, hrule, rfl⟩, hcategory, rfl⟩, hlevel, rfl⟩,
      hdescription, rfl⟩, hlocation, rfl⟩, hresources, rfl⟩

end

/-! ### Outputs and reports -/

section

open scoped Json.UsualNesting

end

end PolicyEditor.Lint
