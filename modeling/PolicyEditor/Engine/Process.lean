import PolicyEditor.Decimal.Digits
import PolicyEditor.File.Directory
import PolicyEditor.Text.Case
import PolicyEditor.Text.Utf8

/-!
Running a program with a time limit, and why an engine gives no answer. How the program behaves is
given; the run tells what the one who started it sees.
-/

namespace PolicyEditor.Engine

open PolicyEditor.Decimal (Binary64)

/-- A shape of an evaluation's output in which no value can be looked up. -/
inductive Malformed where
  /-- An object where the first element of a list is looked up. -/
  | keyed
  /-- A value without elements where the first element of a list is looked up. -/
  | elementless
  /-- A value without members where a member is looked up. -/
  | memberless
  deriving DecidableEq, Repr

inductive Failure where
  /-- None of the candidates for a program can be run. -/
  | notFound (program : String) (candidates : List String)
  | linter (message : String)
  | evaluation (message : String)
  /-- A program did not end in time. -/
  | timeout (message : String)
  /-- The system refused to start a program. -/
  | system (message : String)
  | malformed (fault : Malformed)
  /-- The output nests too deep to be read. -/
  | tooDeep
  deriving DecidableEq, Repr

namespace Failure

/-- Whether a failure is one of the engine's own, which those who ask it answer for. -/
def isReported : Failure → Bool
  | .notFound _ _ | .linter _ | .evaluation _ => true
  | .timeout _ | .system _ | .malformed _ | .tooDeep => false

def pathVariable (program : String) : String :=
  Text.upper program ++ "_PATH"

def message : Failure → String
  | .notFound program candidates =>
    program ++ " executable not found. Install " ++ program ++ " or set " ++ pathVariable program ++
      ". Checked: " ++ ", ".intercalate candidates
  | .linter m | .evaluation m | .timeout m | .system m => m
  | .malformed _ | .tooDeep => ""

end Failure

inductive Behaviour where
  /-- It cannot be started. -/
  | refused (reason : String)
  /-- It ends after so many seconds. The exit code may not be known. -/
  | ends (delay : Binary64) (exitCode : Option Int) (stdout stderr : List UInt8)

structure Ended where
  exitCode : Int
  stdout : String
  stderr : String
  deriving DecidableEq, Repr

/-- Why a run has no end to tell of. -/
inductive Interruption where
  | timedOut (program : String) (limit : Binary64)
  | refused (reason : String)
  deriving DecidableEq, Repr

def Interruption.message : Interruption → String
  | .timedOut program limit => program ++ " did not finish within " ++ limit.brief ++ "s"
  | .refused reason => reason

def Interruption.failure (i : Interruption) : Failure :=
  match i with
  | .timedOut _ _ => .timeout i.message
  | .refused _ => .system i.message

def unknownExitCode : Int := -1

def run (program : String) (limit : Binary64) : Behaviour → Except Interruption Ended
  | .refused reason => .error (.refused reason)
  | .ends delay exitCode stdout stderr =>
    if limit.lt delay then .error (.timedOut (File.Path.ofString program).name limit)
    else
      .ok ⟨exitCode.getD unknownExitCode, Text.decodeUtf8 stdout, Text.decodeUtf8 stderr⟩

end PolicyEditor.Engine
