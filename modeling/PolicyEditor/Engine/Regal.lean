import PolicyEditor.Engine.Tool
import PolicyEditor.Lint.Output
import PolicyEditor.Settings

/-!
The linter regal: it is given the policy as a file and writes its report.
-/

namespace PolicyEditor.Engine.Regal

open PolicyEditor.Text (isDecimal)

def ofSettings (s : Settings) : Tool :=
  { program := "regal", override := s.regalPath, limit := s.lintTimeout }

/-- The exit code that tells of violations. The report is written all the same. -/
def violationsExitCode : Int := 3

def failedSilently (e : Ended) : Bool :=
  e.exitCode != 0 && e.exitCode != violationsExitCode && e.stdout.isEmpty && e.stderr.isEmpty

variable [Json.Nesting]

def reportOf : Except Interruption Ended → Except Failure Lint.Report
  | .error i => .error (.linter i.message)
  | .ok ended =>
    if failedSilently ended then
      .error (.linter ("regal exited with code " ++ toString ended.exitCode))
    else (Lint.parseOutput ended.stdout ended.stderr).mapError fun _ => .tooDeep

def policyFile : String := "policy.rego"

def lint (t : Tool) (m : Machine) (policy : String) : Answer Lint.Report :=
  t.call m t.limit [.text "lint", .file policyFile, .text "--format", .text "json"]
    [(policyFile, policy)] reportOf

def numberAndDot? (s : List Char) : Option (List Char × List Char) :=
  match s.takeWhile isDecimal, s.dropWhile isDecimal with
  | d :: ds, '.' :: rest => some (d :: ds ++ ['.'], rest)
  | _, _ => none

def versionAt? (s : List Char) : Option String := do
  let (major, s) ← numberAndDot? s
  let (minor, s) ← numberAndDot? s
  match s.takeWhile isDecimal with
  | [] => none
  | patch => some (String.ofList (major ++ minor ++ patch))

def versionIn? : List Char → Option String
  | [] => none
  | c :: rest => (versionAt? (c :: rest)).or (versionIn? rest)

def version (t : Tool) (m : Machine) : Answer String :=
  t.version m versionIn?

end PolicyEditor.Engine.Regal
