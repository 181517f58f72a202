import PolicyEditor.FrontEnd.Analysis
import PolicyEditor.FrontEnd.Basic
import PolicyEditor.Schema.Validation

/-!
The HTTP front end: requests, routes and responses. A request carries the whole policy, so none
depends on the requests before it.
-/

namespace PolicyEditor.FrontEnd.Http

open PolicyEditor.Engine (Failure Work)
open PolicyEditor.Validation

variable [Json.Nesting]

structure Request where
  method : String
  path : String
  body : Option Json

structure Response where
  status : Nat
  body : Json

inductive Route where
  | live | ready | lint | evaluate | format | highlight | complete | hover | schema
  deriving DecidableEq, Repr

def routes : List (String × String × Route) :=
  [("/healthz/live", "GET", .live), ("/healthz/ready", "GET", .ready), ("/lint", "POST", .lint),
   ("/evaluate", "POST", .evaluate), ("/format", "POST", .format),
   ("/analyze/highlight", "POST", .highlight), ("/analyze/complete", "POST", .complete),
   ("/analyze/hover", "POST", .hover), ("/analyze/schema", "POST", .schema)]

abbrev Answer := Work (Except Fault Response)

def reply (status : Nat) (body : Json) : Answer :=
  .done (.ok ⟨status, body⟩)

def refusal (status : Nat) (why : String) : Answer :=
  reply status (.obj [("detail", .str why)])

def fail (f : Fault) : Answer :=
  .done (.error f)

def invalidBody (problems : List Problem) : Answer :=
  reply 422 (.arr (((problems.map Problem.text).mergeSort fun a b => a ≤ b).map .str))

def readBody {α : Type} (check : List (String × Json) → Checked α) (body : Option Json) :
    Checked α :=
  Checked.under "body" <|
    match body with
    | none => flawed .missing
    | some (.obj fields) => check fields
    | some _ => flawed .modelAttributesType

def withBody {α : Type} (check : List (String × Json) → Checked α) (body : Option Json)
    (next : α → Answer) : Answer :=
  match readBody check body with
  | .valid a => next a
  | .invalid problems => invalidBody problems

def needing {α : Type} (part : Checked α) (next : α → Answer) : Answer :=
  match part with
  | .valid a => next a
  | .invalid problems => fail (.settings problems)

/-- The response to a failure of an engine: the service is not there, or it went wrong. -/
def engineFailure : Failure → Answer
  | failure@(.notFound _ _) => refusal 503 failure.message
  | failure => if failure.isReported then refusal 500 failure.message else fail (.engine failure)

def policyField (fields : List (String × Json)) : Checked String :=
  required "policy" string fields

structure Evaluation where
  policy : String
  input : String
  data : String
  deriving DecidableEq, Repr

def Evaluation.check (fields : List (String × Json)) : Checked Evaluation :=
  (((Checked.valid Evaluation.mk).and (policyField fields)).and
    (optional "input" Schema.emptyDocument string fields)).and
    (optional "data" Schema.emptyDocument string fields)

def checkCursor (fields : List (String × Json)) : Checked Cursor :=
  ((((Checked.valid Cursor.mk).and (policyField fields)).and
    (required "offset" (integerFrom 0) fields)).and
    (optionalText "input" fields)).and
    (optionalText "data" fields)

def checkDocument (fields : List (String × Json)) : Checked (String × Option String) :=
  ((Checked.valid Prod.mk).and (required "text" string fields)).and (optionalText "source" fields)

def engineStatus : Option (Except Failure String) → Except Failure (Bool × Json)
  | none => .ok (true, .obj [("available", .bool true), ("version", .null), ("error", .null)])
  | some (.ok version) =>
    .ok (true, .obj [("available", .bool true), ("version", .str version), ("error", .null)])
  | some (.error (.malformed fault)) => .error (.malformed fault)
  | some (.error .tooDeep) => .error .tooDeep
  | some (.error failure) =>
    .ok (false, .obj [("available", .bool false), ("version", .null),
      ("error", .str failure.message)])

def readiness (linter evaluator : Option (Except Failure String)) : Answer :=
  match engineStatus linter, engineStatus evaluator with
  | .ok (linterThere, regal), .ok (evaluatorThere, opa) =>
    let there := linterThere && evaluatorThere
    reply (if there then 200 else 503)
      (.obj [("status", .str (if there then "ok" else "degraded")), ("regal", regal),
        ("opa", opa)])
  | .error failure, _ => fail (.engine failure)
  | _, .error failure => fail (.engine failure)

def lintReply (s : Settings) (policy : String) : Answer :=
  if s.lintRules.lintable policy then
    .lint policy fun
      | .ok report =>
        reply 200 (.obj (lintMembers (diagnosticsOf s policy report) report.parseError))
      | .error failure => engineFailure failure
  else reply 200 (.obj (lintMembers [] none))

def evaluationReply (e : Evaluation) : Answer :=
  .evaluate e.policy e.input e.data fun
    | .ok result => reply 200 (.obj [("result", result)])
    | .error failure => engineFailure failure

def formatReply (policy : String) : Answer :=
  .format policy fun
    | .ok formatted => reply 200 (.obj [("policy", .str formatted)])
    | .error failure => engineFailure failure

def highlightReply (policy : String) : Answer :=
  reply 200 (.obj [("spans", .arr ((styledRanges policy).map StyledRange.toJson))])

def completionReply (c : Cursor) : Answer :=
  match completion c with
  | .ok found => reply 200 (completionJson found)
  | .error fault => fail fault

def hoverReply (c : Cursor) : Answer :=
  match hoverNote c with
  | .ok found => reply 200 (.obj [("hover", hoverJson found)])
  | .error fault => fail fault

def schemaReply (text : String) (source : Option String) : Answer :=
  match Schema.parse? source text with
  | some node => reply 200 (.obj [("node", node.toJson), ("type", .str node.describe)])
  | none => reply 200 (.obj [("node", .null), ("type", .null)])

/-- The work of a route. What it needs is looked at before the body. -/
def Route.answer (setup : Setup) (body : Option Json) : Route → Answer
  | .live => reply 200 (.obj [("status", .str "ok")])
  | .ready => needing setup.linter fun _ => needing setup.evaluator fun _ => .versions readiness
  | .lint =>
    needing setup.linter fun _ => needing setup.settings fun s =>
      withBody policyField body (lintReply s)
  | .evaluate => needing setup.evaluator fun _ => withBody Evaluation.check body evaluationReply
  | .format => needing setup.evaluator fun _ => withBody policyField body formatReply
  | .highlight => withBody policyField body highlightReply
  | .complete => withBody checkCursor body completionReply
  | .hover => withBody checkCursor body hoverReply
  | .schema => withBody checkDocument body fun (text, source) => schemaReply text source

def answer (setup : Setup) (r : Request) : Answer :=
  match Json.find? r.path routes with
  | none => refusal 404 "Not Found"
  | some (method, route) =>
    if r.method = method then route.answer setup r.body else refusal 405 "Method Not Allowed"

end PolicyEditor.FrontEnd.Http
