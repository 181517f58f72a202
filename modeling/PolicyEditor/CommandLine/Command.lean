import PolicyEditor.CommandLine.Arguments
import PolicyEditor.File.Directory
import PolicyEditor.Text.Integer

/-!
Commands, and the arguments that ask for them. Files that a command is given have to be there, and a
policy has to be a file.
-/

namespace PolicyEditor.CommandLine

open PolicyEditor.File (Directory Entry)

structure Documents where
  input : Option String
  data : Option String
  deriving DecidableEq, Repr

inductive Server where
  | http (host : String) (port : Int)
  | tools (transport : String)
  deriving DecidableEq, Repr

inductive Command where
  | tree (policy : String) (trivia : Bool)
  | highlight (policy : String)
  | schema (document : String) (source : Option String)
  | complete (policy : String) (offset : Int) (documents : Documents)
  | hover (policy : String) (offset : Int) (documents : Documents)
  | lint (policy : String)
  | watch (policy : String) (documents : Documents)
  | evaluate (policy : String) (documents : Documents)
  | format (policy : String) (write : Bool)
  | serve (server : Server)
  deriving DecidableEq, Repr

inductive Request where
  | command (c : Command)
  | help
  | misuse
  deriving DecidableEq, Repr

def helpOptions : Options := [("-h", .help), ("--help", .help)]

def globalOptions : Options :=
  [("--verbose", .put "verbose" "yes"), ("-v", .put "verbose" "yes")] ++ helpOptions

def documentOptions : Options :=
  [("--input", .take "input"), ("-i", .take "input"),
   ("--data", .take "data"), ("-d", .take "data")]

def cursorOptions : Options :=
  ("--offset", .take "offset") :: documentOptions

def policyPath? (d : Directory) (path : String) : Option String :=
  match d.entry path with
  | .file _ _ => some path
  | _ => none

/-- The path of a document that is given under a key. One that is not there is misuse; one that is
not given is none. -/
def documentPath? (d : Directory) (g : Given) (key : String) : Option (Option String) :=
  match g.value? key with
  | none => some none
  | some path => if d.entry path = .absent then none else some (some path)

def documents? (d : Directory) (g : Given) : Option Documents := do
  return ⟨← documentPath? d g "input", ← documentPath? d g "data"⟩

def onlyOperand? (g : Given) : Option String :=
  match g.operands with
  | [operand] => some operand
  | _ => none

def onlyPolicy? (d : Directory) (g : Given) : Option String :=
  (onlyOperand? g).bind (policyPath? d)

def isSet (g : Given) (key : String) : Bool :=
  g.value? key == some "yes"

structure Form where
  options : Options
  read? : Directory → Given → Option Command

def cursorForm (make : String → Int → Documents → Command) : Form where
  options := cursorOptions
  read? d g := do
    let offset ← Text.integerOf? (← g.value? "offset")
    return make (← onlyPolicy? d g) offset (← documents? d g)

def documentsForm (make : String → Documents → Command) : Form where
  options := documentOptions
  read? d g := do
    return make (← onlyPolicy? d g) (← documents? d g)

def policyForm (options : Options) (make : String → Given → Command) : Form where
  options := options
  read? d g := (onlyPolicy? d g).map fun policy => make policy g

def serverForm (options : Options) (make : Given → Option Server) : Form where
  options := options
  read? _ g := if g.operands.isEmpty then (make g).map .serve else none

def forms : List (String × Form) :=
  [("tree", policyForm [("--trivia", .put "trivia" "yes"), ("--no-trivia", .put "trivia" "no")]
      fun policy g => .tree policy (isSet g "trivia")),
   ("highlight", policyForm [] fun policy _ => .highlight policy),
   ("schema", policyForm [("--source", .take "source")]
      fun document g => .schema document (g.value? "source")),
   ("complete", cursorForm .complete),
   ("hover", cursorForm .hover),
   ("lint", policyForm [] fun policy _ => .lint policy),
   ("watch", documentsForm .watch),
   ("eval", documentsForm .evaluate),
   ("fmt", policyForm [("--write", .put "write" "yes"), ("-w", .put "write" "yes")]
      fun policy g => .format policy (isSet g "write"))]

def serverForms : List (String × Form) :=
  [("api", serverForm [("--host", .take "host"), ("--port", .take "port")] fun g => do
      return .http ((g.value? "host").getD "127.0.0.1")
        (← Text.integerOf? ((g.value? "port").getD "8000"))),
   ("mcp", serverForm [("--transport", .take "transport")] fun g =>
      some (.tools ((g.value? "transport").getD "stdio")))]

def form? (name : String) (known : List (String × Form)) : Option Form :=
  (known.find? fun f => f.1 == name).map (·.2)

/-- What the arguments of a command ask for. Help goes before faults of operands and values. -/
def Form.request (f : Form) (d : Directory) (arguments : List String) : Request :=
  match given? (f.options ++ helpOptions) true arguments with
  | none => .misuse
  | some g =>
    if g.help then .help
    else
      match f.read? d g with
      | some c => .command c
      | none => .misuse

def groupRequest (options : Options) (next : String → List String → Request)
    (arguments : List String) : Request :=
  match given? options false arguments with
  | none => .misuse
  | some g =>
    if g.help then .help
    else
      match g.operands with
      | [] => .misuse
      | name :: rest => next name rest

def formRequest (known : List (String × Form)) (d : Directory) (name : String)
    (arguments : List String) : Request :=
  match form? name known with
  | some f => f.request d arguments
  | none => .misuse

def Request.ofArguments (d : Directory) (arguments : List String) : Request :=
  groupRequest globalOptions (fun name rest =>
    if name = "serve" then groupRequest helpOptions (formRequest serverForms d) rest
    else formRequest forms d name rest) arguments

end PolicyEditor.CommandLine
