import PolicyEditor.Engine.Regal
import PolicyEditor.Proofs.Lint.Output

/-!
Clean reports of the linter. A run that fails without a word is told as a failure; every other run
that ends is read as a report, and whether that is clean depends on nothing but what was written.
-/

namespace PolicyEditor.Engine.Regal

open PolicyEditor.Lint (FindsNothing Report)
open PolicyEditor.Text (isBlank)

/-- A run wrote no finding: nothing but blanks, or an object that lists no violations. -/
def WritesNoFinding [Json.Nesting] (e : Ended) : Prop :=
  e.stdout.toList.all isBlank = true ∧ e.stderr.toList.all isBlank = true ∨
  e.stdout.toList.all isBlank = false ∧
    ∃ fields, Json.load? e.stdout.toList = some (.obj fields) ∧ FindsNothing fields

theorem failedSilently_eq_false_iff {e : Ended} :
    failedSilently e = false ↔
      (e.exitCode = 0 ∨ e.exitCode = 3) ∨ e.stdout ≠ "" ∨ e.stderr ≠ "" := by
  simp only [failedSilently, violationsExitCode, Bool.and_eq_false_iff, bne_eq_false_iff_eq,
    String.isEmpty_eq_false_iff, or_assoc]

theorem mapError_eq_ok_iff {α ε ε' : Type} {r : Except ε α} {f : ε → ε'} {a : α} :
    r.mapError f = .ok a ↔ r = .ok a := by
  cases r with
  | ok b => exact ⟨fun h => by cases h; rfl, fun h => by cases h; rfl⟩
  | error e => exact iff_of_false nofun nofun

section

variable [Json.Nesting]

theorem clean_reportOf_iff {e : Ended} :
    (∃ report, reportOf (.ok e) = .ok report ∧ report.Clean) ↔
      failedSilently e = false ∧ WritesNoFinding e := by
  rw [reportOf, WritesNoFinding, ← Lint.clean_parseOutput_iff]
  cases failedSilently e with
  | true => exact iff_of_false (fun ⟨_, h, _⟩ => nomatch h) (fun h => nomatch h.1)
  | false =>
    simp only [Bool.false_eq_true, if_false, mapError_eq_ok_iff, true_and]

/-- A lint gives a report only after a run that ended, and the report is that of the run. -/
theorem result_lint_eq_ok_iff {t : Tool} {m : Machine} {policy : String} {report : Report} :
    (lint t m policy).result = .ok report ↔
      ∃ executable ended, t.executable m = .ok executable ∧
        run executable t.limit m.behaviour = .ok ended ∧ reportOf (.ok ended) = .ok report := by
  unfold lint Tool.call
  cases t.executable m with
  | error failure => simp
  | ok executable =>
    cases hrun : run executable t.limit m.behaviour with
    | error i => simp [hrun, reportOf]
    | ok ended => simp [hrun]

/-- A lint gives a clean report exactly if its run ended with code 0 or 3, or with another code
after it wrote something, and what it wrote has no finding. The code itself is looked at only where
nothing was written. -/
theorem clean_lint_iff (t : Tool) (m : Machine) (policy : String) :
    (∃ report, (lint t m policy).result = .ok report ∧ report.Clean) ↔
      ∃ executable ended, t.executable m = .ok executable ∧
        run executable t.limit m.behaviour = .ok ended ∧
        ((ended.exitCode = 0 ∨ ended.exitCode = 3) ∨ ended.stdout ≠ "" ∨ ended.stderr ≠ "") ∧
        WritesNoFinding ended := by
  constructor
  · rintro ⟨report, hreport, hclean⟩
    obtain ⟨executable, ended, hfound, hrun, hread⟩ := result_lint_eq_ok_iff.mp hreport
    obtain ⟨hsaid, hnothing⟩ := clean_reportOf_iff.mp ⟨report, hread, hclean⟩
    exact ⟨executable, ended, hfound, hrun, failedSilently_eq_false_iff.mp hsaid, hnothing⟩
  · rintro ⟨executable, ended, hfound, hrun, hsaid, hnothing⟩
    obtain ⟨report, hread, hclean⟩ :=
      clean_reportOf_iff.mpr ⟨failedSilently_eq_false_iff.mpr hsaid, hnothing⟩
    exact ⟨report, result_lint_eq_ok_iff.mpr ⟨executable, ended, hfound, hrun, hread⟩, hclean⟩

end

section

open scoped Json.UsualNesting

def failingMachine (stdout : List UInt8) : Machine where
  executable path := path == "/usr/local/bin/regal"
  onSearchPath _ := none
  behaviour := .ends (.ofInt 0) (some 1) stdout []

theorem lint_failingMachine {stdout : List UInt8} {written : String} {report : Report}
    (hrun : run "/usr/local/bin/regal" (ofSettings {}).limit (failingMachine stdout).behaviour =
      .ok ⟨1, written, ""⟩) (hread : reportOf (.ok ⟨1, written, ""⟩) = .ok report) :
    (lint (ofSettings {}) (failingMachine stdout) "package a").result = .ok report :=
  result_lint_eq_ok_iff.mpr ⟨_, _, rfl, hrun, hread⟩

/-- A linter that fails after a line break, or after an object without members, gives a clean
report. -/
theorem failed_run_passes_for_clean :
    (run "/usr/local/bin/regal" (ofSettings {}).limit (failingMachine [10]).behaviour =
        .ok ⟨1, "\n", ""⟩ ∧
      (lint (ofSettings {}) (failingMachine [10]) "package a").result = .ok {}) ∧
    (run "/usr/local/bin/regal" (ofSettings {}).limit (failingMachine [123, 125]).behaviour =
        .ok ⟨1, "\x7b\x7d", ""⟩ ∧
      (lint (ofSettings {}) (failingMachine [123, 125]) "package a").result = .ok {}) ∧
    Report.Clean {} := by
  have hbreak : run "/usr/local/bin/regal" (ofSettings {}).limit (failingMachine [10]).behaviour =
      .ok ⟨1, "\n", ""⟩ := by decide +kernel
  have hobject : run "/usr/local/bin/regal" (ofSettings {}).limit
      (failingMachine [123, 125]).behaviour = .ok ⟨1, "\x7b\x7d", ""⟩ := by decide +kernel
  exact ⟨⟨hbreak, lint_failingMachine hbreak rfl⟩, ⟨hobject, lint_failingMachine hobject rfl⟩,
    rfl, rfl⟩

end

end PolicyEditor.Engine.Regal
