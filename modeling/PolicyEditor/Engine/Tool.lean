import PolicyEditor.Engine.Process

/-!
Command-line tools: where their executables are found, and how they are called with files of their
own. An executable that has been found is not looked for again.
-/

namespace PolicyEditor.Engine

open PolicyEditor.Decimal (Binary64)

/-- What a machine answers: which files can be executed, where the search path leads, and how a
started program behaves. -/
structure Machine where
  executable : String → Bool
  onSearchPath : String → Option String
  behaviour : Behaviour

def Machine.bare : Machine :=
  ⟨fun _ => false, fun _ => none, .refused ""⟩

inductive Argument where
  | text (s : String)
  | file (name : String)
  deriving DecidableEq, Repr

/-- A program that was started: its executable, its other arguments, and the files that it was
given, each with its name and content. -/
structure Launch where
  executable : String
  arguments : List Argument
  files : List (String × String)
  deriving DecidableEq, Repr

structure Tool where
  program : String
  override : Option String
  limit : Binary64
  found : Option String := none
  deriving DecidableEq, Repr

/-- What a call comes to: the tool afterwards, what was started, and the answer. -/
structure Answer (α : Type) where
  tool : Tool
  launches : List Launch
  result : Except Failure α

/-- Where an executable may be, in the order of the search. -/
def candidates (program : String) (override : Option String) : List String :=
  (override.toList ++ ["/usr/local/bin/" ++ program, program]).filter fun c => !c.isEmpty

/-- The executable that a candidate leads to. An absolute path stands for itself, anything else is
looked for on the search path. -/
def Machine.locate? (m : Machine) (candidate : String) : Option String :=
  if (File.Path.ofString candidate).isAbsolute then
    if m.executable candidate then some candidate else none
  else m.onSearchPath candidate

def Machine.find (m : Machine) (program : String) (override : Option String) :
    Except Failure String :=
  let places := candidates program override
  match places.findSome? m.locate? with
  | some executable => .ok executable
  | none => .error (.notFound program places)

namespace Tool

def executable (t : Tool) (m : Machine) : Except Failure String :=
  match t.found with
  | some executable => .ok executable
  | none => m.find t.program t.override

/-- A call with arguments and files; `read` makes the answer from the run. -/
def call {α : Type} (t : Tool) (m : Machine) (limit : Binary64) (arguments : List Argument)
    (files : List (String × String)) (read : Except Interruption Ended → Except Failure α) :
    Answer α :=
  match t.executable m with
  | .error failure => ⟨t, [], .error failure⟩
  | .ok executable =>
    ⟨{ t with found := some executable }, [⟨executable, arguments, files⟩],
      read (run executable limit m.behaviour)⟩

def versionLimit : Binary64 := .ofInt 5

def version (t : Tool) (m : Machine) (versionIn? : List Char → Option String) : Answer String :=
  t.call m versionLimit [.text "version"] [] fun
    | .error i => .error i.failure
    | .ok ended => .ok ((versionIn? ended.stdout.toList).getD "unknown")

end Tool

end PolicyEditor.Engine
