import PolicyEditor.Engine.Work
import PolicyEditor.Path.Basic
import PolicyEditor.Validation.Basic

/-!
What front ends are set up with, and what keeps one from answering at all. Settings that are not
valid show once they are needed.
-/

namespace PolicyEditor.FrontEnd

open PolicyEditor.Engine (Linter Evaluator Engines Machine)
open PolicyEditor.Validation

structure Setup where
  settings : Checked Settings
  linter : Checked Linter
  evaluator : Checked Evaluator

namespace Setup

variable [Json.Nesting]

def ofEnvironment (env : List (String × String)) (m : Machine) : Setup :=
  let settings := Settings.ofEnvironment env
  { settings := settings
    linter := settings.map fun s => (Engines.ofSettings s m).linter
    evaluator := settings.map fun s => (Engines.ofSettings s m).evaluator }

/-- The engines to run work with. For one that is not valid, which no work asks, one stands in that
cannot be found. -/
def engines (s : Setup) : Engines :=
  let absent := Engines.ofSettings {} .bare
  { linter := s.linter.toOption.getD absent.linter
    evaluator := s.evaluator.toOption.getD absent.evaluator }

end Setup

inductive Fault where
  /-- An engine failed in a way that is not answered for. -/
  | engine (failure : Engine.Failure)
  | settings (problems : List Validation.Problem)
  /-- A quoted key in a policy's path cannot be read. -/
  | key (error : Path.KeyError)
  /-- A directory stands where a file is read. -/
  | directory (path : String)
  /-- Nothing stands where a file is read. -/
  | missing (path : String)
  deriving DecidableEq, Repr

def Fault.message? : Fault → Option String
  | .settings problems => some (Validation.describe problems)
  | .key e => some e.message
  | .engine (.system _) | .engine (.malformed _) | .engine .tooDeep => none
  | .directory _ | .missing _ => none
  | .engine failure => some failure.message

end PolicyEditor.FrontEnd
