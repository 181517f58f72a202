import PolicyEditor.Grammar.Script
import PolicyEditor.Highlight
import PolicyEditor.Hover
import PolicyEditor.Lint.Timeline
import PolicyEditor.Settings

/-!
An editor's session: a policy and its two documents, what is derived from them, and the diagnostics
that were published last. The tree is built on the first look after an edit and kept until the next
one; the schema of a document is rebuilt when the document changes.
-/

namespace PolicyEditor

open PolicyEditor.Lint (Diagnostic Report Timeline)
open PolicyEditor.Lint.Scheduler (Effect)

structure Session where
  policy : String
  /-- How often the policy was edited. -/
  version : Nat := 0
  /-- The tree of the policy, if it has been looked at. -/
  built : Option Tree := none
  context : Schema.Context
  diagnostics : List Diagnostic := []
  /-- The linter's timeline, if there is a linter. -/
  timeline : Option Timeline := none

namespace Session

variable [Json.Nesting]

def timelineFor (s : Settings) : Timeline :=
  { rules := s.lintRules, debounce := s.lintDebounceMs }

/-- A new session, with a linter if `linted`. The first policy is not linted until it is edited. -/
def create (policy : String) (input data : Option String) (s : Settings) (linted : Bool) :
    Session :=
  { policy := policy
    context := .ofTexts input data
    timeline := if linted then some (timelineFor s) else none }

def lastPublished? (effects : List Effect) : Option (List Diagnostic) :=
  effects.foldl (fun last e =>
    match e with
    | .publish diagnostics => some diagnostics
    | .lint _ => last) none

/-- A session after its timeline has moved on: what was published last are its diagnostics. -/
def follow (s : Session) (moved : Timeline × List Effect) : Session × List Effect :=
  ({ s with
      timeline := some moved.1
      diagnostics := (lastPublished? moved.2).getD s.diagnostics }, moved.2)

def onTimeline (s : Session) (move : Timeline → Timeline × List Effect) :
    Session × List Effect :=
  match s.timeline with
  | some t => s.follow (move t)
  | none => (s, [])

def updatePolicy (s : Session) (text : String) : Session × List Effect :=
  { s with policy := text, version := s.version + 1, built := none }.onTimeline (·.edit text)

def updateInput (s : Session) (text : Option String) : Session :=
  { s with context := { s.context with input := Schema.Root.input.schema? text } }

def updateData (s : Session) (text : Option String) : Session :=
  { s with context := { s.context with data := Schema.Root.data.schema? text } }

def tree (s : Session) : Tree × Session :=
  match s.built with
  | some t => (t, s)
  | none =>
    let t := Grammar.parse s.policy
    (t, { s with built := some t })

def highlight (s : Session) : List Highlight.Span × Session :=
  let (t, s) := s.tree
  (Highlight.spans t, s)

def complete (s : Session) (offset : Int) :
    Except Path.KeyError (Option Completion.Result) × Session :=
  let (t, s) := s.tree
  (Completion.complete t s.policy.toList offset s.context, s)

def hover (s : Session) (offset : Int) : Except Path.KeyError (Option Hover.Result) :=
  Hover.at? s.policy.toList offset s.context

/-- Ends the linter's quiet period if its time has come. -/
def settle (s : Session) : Session × List Effect :=
  s.onTimeline (·.settle)

def elapse (s : Session) (ms : Int) : Session × List Effect :=
  s.onTimeline (·.elapse ms)

def openCall? (s : Session) : Option Nat :=
  s.timeline.bind Timeline.openCall?

def answer (s : Session) (call : Nat) (report : Option Report) :
    (Session × List Effect) × Bool :=
  match s.timeline with
  | some t =>
    let (t, effects, wasOpen) := t.answer call report
    (s.follow (t, effects), wasOpen)
  | none => ((s, []), false)

def close (s : Session) : Session × List Effect :=
  s.onTimeline (·.close)

end Session

end PolicyEditor
