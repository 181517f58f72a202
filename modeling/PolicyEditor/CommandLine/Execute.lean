import PolicyEditor.CommandLine.Watch
import PolicyEditor.FrontEnd.Analysis
import PolicyEditor.FrontEnd.Basic
import PolicyEditor.Json.Encode
import PolicyEditor.Tree.Outline

/-!
Executing commands: each comes to what it prints, the files that it writes, and an exit code or the
fault that keeps it from ending well.
-/

namespace PolicyEditor.CommandLine

open PolicyEditor.Engine (Work Failure)
open PolicyEditor.File (Directory)
open PolicyEditor.FrontEnd (Fault Setup Cursor)
open PolicyEditor.Validation (Checked)

variable [Json.Nesting]

structure Outcome where
  printed : List Printed := []
  written : List (String × String) := []
  ending : Except Fault Nat := .ok 0

def ended (printed : List Printed) (code : Nat) : Work Outcome :=
  .done { printed := printed, ending := .ok code }

def broken (fault : Fault) : Work Outcome :=
  .done { ending := .error fault }

def provided {α : Type} (r : Except Fault α) (next : α → Work Outcome) : Work Outcome :=
  match r with
  | .ok a => next a
  | .error fault => broken fault

def needing {α : Type} (part : Checked α) (next : α → Work Outcome) : Work Outcome :=
  match part with
  | .valid a => next a
  | .invalid problems => broken (.settings problems)

/-- A failure of an engine is printed if it is one of its own. -/
def engineFailure (failure : Failure) : Work Outcome :=
  if failure.isReported then ended [.line (marked "red" failure.message)] 1
  else broken (.engine failure)

def readOptional (d : Directory) : Option String → Except Fault (Option String)
  | none => .ok none
  | some path => (readText d path).map some

def cursorAt (d : Directory) (policy : String) (offset : Int) (docs : Documents) :
    Except Fault Cursor := do
  let text ← readText d policy
  let input ← readOptional d docs.input
  let data ← readOptional d docs.data
  return ⟨text, offset, input, data⟩

def schemaOutcome (d : Directory) (document : String) (source : Option String) : Work Outcome :=
  provided (readText d document) fun text =>
    match Schema.parse? source text with
    | some node => ended [.tree (schemaBranch (shownName document) node)] 0
    | none => ended [.line (marked "red" (shownPath document ++ " is not valid JSON."))] 1

def completeOutcome (c : Cursor) : Work Outcome :=
  provided (FrontEnd.completion c) fun found => ended (completionPrinted found) 0

def hoverOutcome (c : Cursor) : Work Outcome :=
  provided ((Hover.at? c.policy.toList c.offset c.context).mapError Fault.key) fun found =>
    ended (hoverPrinted found) 0

def parseErrorPrinted (report : Lint.Report) : List Printed :=
  ((Lint.nonempty? report.parseError).map fun why =>
    .line (marked "red" "Parse error:" ++ " " ++ why)).toList

def lintOutcome (setup : Setup) (d : Directory) (policy : String) : Work Outcome :=
  provided (readText d policy) fun text =>
    needing setup.settings fun settings => needing setup.linter fun _ =>
      .lint text fun
        | .error failure => engineFailure failure
        | .ok report =>
          let found := FrontEnd.diagnosticsOf settings text report
          ended (parseErrorPrinted report ++ diagnosticsPrinted (shownPath policy) found)
            (if found.isEmpty then 0 else 1)

def watchOutcome (setup : Setup) (d : Directory) (w : Watched) (course : Course) : Work Outcome :=
  needing setup.settings fun settings => needing setup.linter fun _ =>
    (w.watch settings d course).map fun
      | (printed, none) => { printed := printed }
      | (printed, some fault) => { printed := printed, ending := .error fault }

/-- Documents that are not given are empty objects. -/
def evaluateOutcome (setup : Setup) (d : Directory) (policy : String) (docs : Documents) :
    Work Outcome :=
  provided (cursorAt d policy 0 docs) fun c => needing setup.evaluator fun _ =>
    .evaluate c.policy (c.input.getD Schema.emptyDocument)
      (c.data.getD Schema.emptyDocument) fun
      | .error failure => engineFailure failure
      | .ok value => ended [.json (Json.encode true value)] 0

def formatOutcome (setup : Setup) (d : Directory) (policy : String) (write : Bool) : Work Outcome :=
  needing setup.evaluator fun _ => provided (readText d policy) fun text =>
    .format text fun
      | .error failure => engineFailure failure
      | .ok formatted =>
        if write then
          .done
            { printed := [.line (marked "green" "Formatted" ++ " " ++ shownPath policy)]
              written := ((d.fileName? policy).map fun name => (name, formatted)).toList }
        else ended [.raw formatted] 0

/-- Announces a server and starts it. A tool server has its engines from the settings. -/
def serveOutcome (setup : Setup) (server : Server) : Work Outcome :=
  let start : Work Outcome := ended [.line (announcement server), .serving server] 0
  match server with
  | .http _ _ => start
  | .tools _ => needing setup.settings fun _ => start

def Command.outcome (setup : Setup) (d : Directory) (course : Course) : Command → Work Outcome
  | .tree policy trivia =>
    provided (readText d policy) fun text =>
      ended [.line ((Grammar.parse text).outline 0 trivia)] 0
  | .highlight policy =>
    provided (readText d policy) fun text =>
      ended (spansPrinted text.toList (Highlight.spans (Grammar.parse text))) 0
  | .schema document source => schemaOutcome d document source
  | .complete policy offset docs => provided (cursorAt d policy offset docs) completeOutcome
  | .hover policy offset docs => provided (cursorAt d policy offset docs) hoverOutcome
  | .lint policy => lintOutcome setup d policy
  | .watch policy docs => watchOutcome setup d ⟨policy, docs⟩ course
  | .evaluate policy docs => evaluateOutcome setup d policy docs
  | .format policy write => formatOutcome setup d policy write
  | .serve server => serveOutcome setup server

def misuseCode : Nat := 2

def execute (setup : Setup) (d : Directory) (course : Course) (arguments : List String) :
    Work Outcome :=
  match Request.ofArguments d arguments with
  | .command c => c.outcome setup d course
  | .help => ended [] 0
  | .misuse => ended [] misuseCode

end PolicyEditor.CommandLine
