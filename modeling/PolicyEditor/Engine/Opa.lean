import PolicyEditor.Engine.Tool
import PolicyEditor.Json.Decode
import PolicyEditor.Schema.Comments
import PolicyEditor.Settings
import PolicyEditor.Text.Split

/-!
The evaluator opa: it evaluates a policy against two documents, and formats policies. What an
evaluation writes is a list of results, of which the value of the first expression is taken; output
of another shape is taken as it is.
-/

namespace PolicyEditor.Engine.Opa

open PolicyEditor.Decimal (Binary64)

def ofSettings (s : Settings) : Tool :=
  { program := "opa", override := s.opaPath, limit := s.evalTimeout }

def firstElement : Json → Except Malformed Json
  | .arr (v :: _) => .ok v
  | .str s =>
    match s.toList with
    | c :: _ => .ok (.str (String.ofList [c]))
    | [] => .error .elementless
  | .obj _ => .error .keyed
  | _ => .error .elementless

/-- A member of an object that does not count as nothing. -/
def given? (key : String) (members : List (String × Json)) : Option Json :=
  (Json.find? key members).filter fun v => !v.isEmpty

def valueOf : Json → Except Malformed Json
  | .obj members => .ok ((Json.find? "value" members).getD .null)
  | _ => .error .memberless

def firstExpression? (output : Json) : Except Malformed (Option Json) :=
  match output with
  | .obj members =>
    match given? "result" members with
    | none => .ok none
    | some results => do
      match ← firstElement results with
      | .obj row =>
        match given? "expressions" row with
        | none => return none
        | some expressions => return some (← firstElement expressions)
      | _ => return none
  | _ => .ok none

def unwrap (output : Json) : Except Malformed Json := do
  match ← firstExpression? output with
  | some expression => valueOf expression
  | none => return output

variable [Json.Nesting]

/-- The value in an output, which is an empty object if nothing was written. -/
def readOutput (stdout : String) : Except Failure Json :=
  if stdout.isEmpty then .ok (.obj [])
  else
    match Json.load stdout.toList with
    | .error e =>
      if e.fault = .tooDeep then .error .tooDeep
      else .error (.evaluation ("Failed to parse evaluation results: " ++ e.message stdout.toList))
    | .ok output => (unwrap output).mapError .malformed

def outputOf (task : String) : Except Interruption Ended → Except Failure String
  | .error i => .error (.evaluation i.message)
  | .ok ended =>
    if ended.exitCode = 0 then .ok ended.stdout
    else
      let why := Text.stripString ended.stderr
      .error (.evaluation
        (if why.isEmpty then "opa " ++ task ++ " exited with code " ++ toString ended.exitCode
         else why))

def policyFile : String := "policy.rego"
def inputFile : String := "input.json"
def dataFile : String := "data.json"

def evaluate (t : Tool) (m : Machine) (policy input data : String) : Answer Json :=
  t.call m t.limit
    [.text "eval", .text "-d", .file policyFile, .text "-d", .file dataFile, .text "-i",
      .file inputFile, .text "--format", .text "json", .text "data"]
    [(policyFile, policy), (inputFile, Schema.stripToDocument input),
      (dataFile, Schema.stripToDocument data)]
    fun run => (outputOf "eval" run).bind readOutput

def formatLimit : Binary64 := .ofInt 10

def format (t : Tool) (m : Machine) (policy : String) : Answer String :=
  t.call m formatLimit [.text "fmt", .file policyFile] [(policyFile, policy)] (outputOf "fmt")

def firstWord? (s : List Char) : Option String :=
  match (Text.stripStart s).takeWhile fun c => !Text.isBlank c with
  | [] => none
  | word => some (String.ofList word)

def versionIn? : List Char → Option String
  | [] => none
  | c :: rest =>
    let here := (Text.afterWord? "Version:" (c :: rest)).bind firstWord?
    here.or (versionIn? rest)

def version (t : Tool) (m : Machine) : Answer String :=
  t.version m versionIn?

end PolicyEditor.Engine.Opa
