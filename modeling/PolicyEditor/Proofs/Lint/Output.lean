import PolicyEditor.Lint.Output
import PolicyEditor.Proofs.Json.Nesting
import PolicyEditor.Proofs.Validation.Checked

/-!
What a linter's output is read as. A report is clean if it neither finds anything nor tells that the
policy cannot be read; which outputs give one is told from their parts.
-/

namespace PolicyEditor.Lint

open PolicyEditor.Text (isBlank)
open PolicyEditor.Validation

/-- Nothing is found, and the policy can be read. -/
def Report.Clean (r : Report) : Prop :=
  r.violations = [] ∧ r.parseError = none

/-- The members of an output that finds nothing: no violation is listed, and what else is there has
the type that a report wants. What counts as nothing is as good as missing. -/
structure FindsNothing (fields : List (String × Json)) : Prop where
  violations : ∀ v ∈ Json.find? "violations" fields, v.isEmpty = true
  summary : ∀ v ∈ Json.find? "summary" fields, v.isEmpty = true ∨ ∃ members, v = .obj members
  aggregates : ∀ v ∈ Json.find? "aggregates" fields, v.isEmpty = true ∨ ∃ vs, v = .arr vs

/-! ### Members of the output -/

/-- What holds of a member as it is read holds of the member itself, unless that counts as nothing. -/
theorem memberOr_iff {P : Json → Prop} {default : Json} (hdefault : P default) (field : String)
    (fields : List (String × Json)) :
    P (memberOr default field fields) ↔
      ∀ v ∈ Json.find? field fields, v.isEmpty = true ∨ P v := by
  unfold memberOr
  cases Json.find? field fields with
  | none => simp [hdefault]
  | some v => by_cases hempty : v.isEmpty = true <;> simp [hempty, hdefault]

/-- A report is read field by field; it never tells of a policy that cannot be read. -/
theorem reportOf?_eq_some_iff {fields : List (String × Json)} {r : Report} :
    reportOf? (.obj fields) = some r ↔
      list Violation.check (memberOr (.arr []) "violations" fields) = .valid r.violations ∧
      memberOr (.obj []) "summary" fields = .obj r.summary ∧
      list anything (memberOr (.arr []) "aggregates" fields) = .valid r.aggregates ∧
      r.parseError = none := by
  have hcheck : ∀ v s a, Report.check (.obj [("violations", v), ("summary", s), ("aggregates", a)]) =
      ((((Checked.valid Report.mk).and ((list Violation.check v).under "violations")).and
        ((dictionary s).under "summary")).and ((list anything a).under "aggregates")).and
          (.valid none) := fun _ _ _ => rfl
  rw [reportOf?, Checked.toOption_eq_some_iff, hcheck]
  simp only [Checked.and_eq_valid_iff, Checked.under_eq_valid_iff, dictionary_eq_valid_iff]
  constructor
  · rintro ⟨_, _, ⟨_, aggregates, ⟨_, summary, ⟨_, violations, ⟨⟩, hviolations, rfl⟩, hsummary,
      rfl⟩, haggregates, rfl⟩, ⟨⟩, rfl⟩
    exact ⟨hviolations, hsummary, haggregates, rfl⟩
  · rintro ⟨hviolations, hsummary, haggregates, herror⟩
    refine ⟨_, _, ⟨_, _, ⟨_, _, ⟨_, _, rfl, hviolations, rfl⟩, hsummary, rfl⟩, haggregates, rfl⟩,
      rfl, ?_⟩
    cases r
    cases herror
    rfl

/-! ### Clean reports -/

theorem findsNothing_iff {fields : List (String × Json)} :
    FindsNothing fields ↔ ∃ r, reportOf? (.obj fields) = some r ∧ r.Clean := by
  have hviolations := memberOr_iff (P := (· = .arr [])) rfl "violations" fields
  have hsummary :=
    memberOr_iff (P := fun v => ∃ members, v = .obj members) ⟨[], rfl⟩ "summary" fields
  have haggregates := memberOr_iff (P := fun v => ∃ vs, v = .arr vs) ⟨[], rfl⟩ "aggregates" fields
  constructor
  · intro h
    have hlisted := hviolations.mpr fun v hv => .inl (h.violations v hv)
    obtain ⟨members, hmembers⟩ := hsummary.mpr h.summary
    obtain ⟨vs, hvs⟩ := haggregates.mpr h.aggregates
    have hall : list anything (.arr vs) = .valid vs :=
      list_eq_valid_iff.mpr ⟨vs, rfl, List.forall₂_same.mpr fun _ _ => rfl⟩
    exact ⟨⟨[], members, vs, none⟩,
      reportOf?_eq_some_iff.mpr ⟨by rw [hlisted]; rfl, hmembers, by rw [hvs, hall], rfl⟩, rfl, rfl⟩
  · -- As many violations are reported as are listed, so that the list is empty.
    rintro ⟨r, hr, hnone, -⟩
    obtain ⟨hlisted, hmembers, hvs, -⟩ := reportOf?_eq_some_iff.mp hr
    obtain ⟨listed, hlist, hchecked⟩ := list_eq_valid_iff.mp hlisted
    obtain ⟨vs, hvs, -⟩ := list_eq_valid_iff.mp hvs
    rw [hnone, List.forall₂_nil_right_iff] at hchecked
    rw [hchecked] at hlist
    refine ⟨fun v hv => ?_, hsummary.mp ⟨_, hmembers⟩, haggregates.mp ⟨_, hvs⟩⟩
    rcases hviolations.mp hlist v hv with hempty | rfl
    · exact hempty
    · rfl

/-- An output that can be read is read as a report, which tells of an invalid policy if the output
does not tell of anything else. -/
theorem parseOutput_of_load [Json.Nesting] {stdout stderr : String}
    (hout : stdout.toList.all isBlank = false) (hdeep : ¬ Json.TooDeep stdout.toList) :
    parseOutput stdout stderr =
      .ok (((Json.load? stdout.toList).bind reportOf?).getD
        (.unreadable "Invalid policy syntax")) := by
  rw [parseOutput, if_neg (Bool.eq_false_iff.mp hout), Json.load?]
  cases hload : Json.load stdout.toList with
  | ok output => rfl
  | error e =>
    have hfault : e.fault ≠ .tooDeep := fun h => hdeep ⟨e.offset, by rw [hload, ← h]⟩
    exact if_neg hfault

theorem parseOutput_of_tooDeep [Json.Nesting] {stdout stderr : String}
    (hout : stdout.toList.all isBlank = false) (hdeep : Json.TooDeep stdout.toList) :
    ∃ e, parseOutput stdout stderr = .error e := by
  obtain ⟨offset, hload⟩ := hdeep
  rw [parseOutput, if_neg (Bool.eq_false_iff.mp hout), hload]
  exact ⟨_, rfl⟩

/-- A report is clean if nothing but blanks is written, or an object that finds nothing. -/
theorem clean_parseOutput_iff [Json.Nesting] {stdout stderr : String} :
    (∃ report, parseOutput stdout stderr = .ok report ∧ report.Clean) ↔
      stdout.toList.all isBlank = true ∧ stderr.toList.all isBlank = true ∨
      stdout.toList.all isBlank = false ∧
        ∃ fields, Json.load? stdout.toList = some (.obj fields) ∧ FindsNothing fields := by
  have hunreadable : ∀ why, ¬ (Report.unreadable why).Clean := fun _ h => nomatch h.2
  by_cases hout : stdout.toList.all isBlank = true
  · by_cases herr : stderr.toList.all isBlank = true
    · rw [parseOutput, if_pos hout, if_pos herr]
      exact iff_of_true ⟨_, rfl, rfl, rfl⟩ (.inl ⟨hout, herr⟩)
    · rw [parseOutput, if_pos hout, if_neg herr]
      exact iff_of_false (by simp [hunreadable]) (by simp [hout, herr])
  · have hwritten := Bool.eq_false_iff.mpr hout
    simp only [hout, findsNothing_iff]
    by_cases hdeep : Json.TooDeep stdout.toList
    · obtain ⟨e, hraised⟩ := @parseOutput_of_tooDeep _ _ stderr hwritten hdeep
      have hload : Json.load? stdout.toList = none := by
        refine Option.eq_none_iff_forall_ne_some.mpr fun v hv => ?_
        exact (Json.load?_eq_some_iff.mp hv).2 hdeep
      simp [hraised, hload]
    · rw [parseOutput_of_load hwritten hdeep]
      cases Json.load? stdout.toList with
      | none => simp [hunreadable]
      | some v =>
        cases v with
        | obj fields =>
          cases hreport : reportOf? (.obj fields) with
          | none => simp [hreport, hunreadable]
          | some r => simp [hreport]
        | _ => simp [reportOf?, hunreadable]

end PolicyEditor.Lint
