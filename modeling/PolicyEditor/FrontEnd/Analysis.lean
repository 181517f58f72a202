import PolicyEditor.FrontEnd.Basic
import PolicyEditor.FrontEnd.Message
import PolicyEditor.Grammar.Script
import PolicyEditor.Lint.Scheduler
import PolicyEditor.Settings

/-!
Analyses of a whole policy that front ends offer; each is given everything it looks at.
-/

namespace PolicyEditor.FrontEnd

open PolicyEditor.Schema (Context)

variable [Json.Nesting]

structure Cursor where
  policy : String
  offset : Int
  input : Option String
  data : Option String
  deriving DecidableEq, Repr

def Cursor.context (c : Cursor) : Context :=
  .ofTexts c.input c.data

def styledRanges (policy : String) : List StyledRange :=
  (Highlight.spans (Grammar.parse policy)).map .ofSpan

def completion (c : Cursor) : Except Fault (Option Completion.Result) :=
  (Completion.complete (Grammar.parse c.policy) c.policy.toList c.offset c.context).mapError .key

def hoverNote (c : Cursor) : Except Fault (Option HoverNote) :=
  match Hover.at? c.policy.toList c.offset c.context with
  | .error e => .error (.key e)
  | .ok found => .ok (found.map .ofResult)

def completionJson : Option Completion.Result → Json
  | none => .obj [("start", .null), ("items", .arr [])]
  | some r =>
    .obj [("start", .int r.start),
      ("items", .arr (r.items.map fun i => (Candidate.ofItem i).toJson))]

def hoverJson : Option HoverNote → Json
  | none => .null
  | some h => h.toJson

def diagnosticsOf (s : Settings) (policy : String) (report : Lint.Report) : List Lint.Diagnostic :=
  Lint.diagnostics s.suppressedRules policy.toList report.violations

def lintMembers (diagnostics : List Lint.Diagnostic) (parseError : Option String) :
    List (String × Json) :=
  [("diagnostics", .arr (diagnostics.map Lint.Diagnostic.toJson)),
   ("parse_error", .ofOption parseError)]

end PolicyEditor.FrontEnd
