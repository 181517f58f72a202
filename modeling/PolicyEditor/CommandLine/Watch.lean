import PolicyEditor.CommandLine.Printed
import PolicyEditor.Engine.Work
import PolicyEditor.FrontEnd.Basic
import PolicyEditor.Session
import PolicyEditor.Text.Lines
import PolicyEditor.Watcher

/-!
Watching a policy and its documents: they are loaded into a session, and loaded again when their
files change. What the session's linter publishes is printed.

A changed file is one of the documents if both paths resolve alike, and it is read where its path
resolves to. What paths resolve to and what is read there is given.
-/

namespace PolicyEditor.CommandLine

open PolicyEditor.Engine (Work)
open PolicyEditor.File (Directory)
open PolicyEditor.FrontEnd (Fault)
open PolicyEditor.Lint.Scheduler (Effect)

structure Change where
  after : Int
  files : List (String × String)
  deriving DecidableEq, Repr

/-- What happens while files are watched: changes, and a while later the end. -/
structure Course where
  changes : List Change := []
  afterwards : Int := 2000
  interrupted : Bool := false
  deriving DecidableEq, Repr

def textOf (path : String) : File.Entry → Except Fault String
  | .file _ content => .ok (String.ofList (Text.unifyNewlines content.toList))
  | .directory => .error (.directory path)
  | .absent => .error (.missing path)

def readText (d : Directory) (path : String) : Except Fault String :=
  textOf path (d.entry path)

def readAt (d : Directory) (place : List String) : Except Fault String :=
  textOf ("/" ++ "/".intercalate place) (d.entryAt place)

structure Watched where
  policy : String
  documents : Documents
  deriving DecidableEq, Repr

def Watched.paths (w : Watched) : List String :=
  w.policy :: (w.documents.input.toList ++ w.documents.data.toList)

variable [Json.Nesting]

section

variable {Place ε : Type} [DecidableEq Place] (resolve : String → Place)

/-- Takes the new text of the file at a place into a session. A file that is watched for several
purposes serves the first of them. -/
def Watched.update (w : Watched) (s : Session) (place : Place) (text : String) :
    Session × List Effect :=
  if resolve w.policy = place then s.updatePolicy text
  else if w.documents.input.map resolve = some place then (s.updateInput (some text), [])
  else if w.documents.data.map resolve = some place then (s.updateData (some text), [])
  else (s, [])

/-- Loads files into a session, up to the first that cannot be read. -/
def Watched.load (w : Watched) (read : Place → Except ε String) (s : Session) :
    List String → Session × List Effect × Option ε
  | [] => (s, [], none)
  | path :: rest =>
    match read (resolve path) with
    | .ok text =>
      let (s, effects) := w.update resolve s (resolve path) text
      let (s, more, fault) := w.load read s rest
      (s, effects ++ more, fault)
    | .error fault => (s, [], some fault)

end

def published (title : String) (effects : List Effect) : List Printed :=
  effects.flatMap fun
    | .publish found => diagnosticsPrinted title found
    | .lint _ => []

/-- Prints what effects publish and answers the calls among them. The linter answers before anything
else happens, so an answer starts no further call. -/
def follow (title : String) (s : Session) : List Effect → Work (Session × List Printed)
  | [] => .done (s, [])
  | .publish found :: rest =>
    (follow title s rest).map fun (s, more) => (s, diagnosticsPrinted title found ++ more)
  | .lint call :: rest =>
    .lint call.text fun report =>
      let ((s, effects), _) := s.answer (s.openCall?.getD 0) report.toOption
      (follow title s rest).map fun (s, more) => (s, published title effects ++ more)

def Change.watched (c : Change) : List String :=
  (c.files.map (·.1)).filter fun name => Watcher.isWatched (.ofString name)

def Watched.pass (w : Watched) (afterwards : Int) (d : Directory) (s : Session) :
    List Change → Work (List Printed)
  | [] =>
    let (s, effects) := s.elapse afterwards
    (follow (shownPath w.policy) s effects).map (·.2)
  | c :: rest =>
    let title := shownPath w.policy
    let (s, effects) := s.elapse c.after
    (follow title s effects).andThen fun (s, first) =>
      -- What fell due before the change is settled; now come the new files.
      let d := d.writeAll c.files
      let (s, loaded, _) := w.load d.resolve (readAt d) s c.watched
      let (s, effects) := s.settle
      (follow title s (loaded ++ effects)).andThen fun (s, second) =>
        (w.pass afterwards d s rest).map fun more => first ++ second ++ more

def Watched.greeting (w : Watched) : Printed :=
  .line (marked "green" ("Watching " ++ ", ".intercalate (w.paths.map shownPath)) ++
    " (Ctrl-C to stop)")

def Watched.watch (w : Watched) (settings : Settings) (d : Directory) (course : Course) :
    Work (List Printed × Option Fault) :=
  let (s, loaded, fault) := w.load d.resolve (readAt d) (.create "" none none settings true) w.paths
  let title := shownPath w.policy
  match fault with
  | some fault => .done (published title loaded, some fault)
  | none =>
    let (s, effects) := s.settle
    (follow title s effects).andThen fun (s, first) =>
      (w.pass course.afterwards d s course.changes).map fun more =>
        (published title loaded ++ w.greeting :: (first ++ more) ++
          (if course.interrupted then [.line "Stopped."] else []), none)

end PolicyEditor.CommandLine
