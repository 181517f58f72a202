import PolicyEditor.Engine.Work
import PolicyEditor.FrontEnd.Analysis
import PolicyEditor.Schema.Validation

/-!
The tool server: analyses as tools that are called by name with named arguments.
-/

namespace PolicyEditor.FrontEnd.Tools

open PolicyEditor.Engine (Work)

variable [Json.Nesting]

inductive Query where
  | highlight (policy : String)
  | complete (c : Cursor)
  | hover (c : Cursor)
  | schema (text : String) (source : Option String)
  | lint (policy : String)
  | evaluate (policy input data : String)
  deriving DecidableEq, Repr

def textArgument? (name : String) (arguments : List (String × Json)) : Option String :=
  match Json.find? name arguments with
  | some (.str s) => some s
  | _ => none

def integerArgument? (name : String) (arguments : List (String × Json)) : Option Int :=
  match Json.find? name arguments with
  | some (.int n) => some n
  | _ => none

def cursorOf? (arguments : List (String × Json)) : Option Cursor := do
  return ⟨← textArgument? "policy" arguments, ← integerArgument? "offset" arguments,
    textArgument? "input" arguments, textArgument? "data" arguments⟩

def parameters : String → List String
  | "highlight" | "lint" => ["policy"]
  | "complete" | "hover" => ["policy", "offset", "input", "data"]
  | "schema" => ["text", "source"]
  | "evaluate" => ["policy", "input", "data"]
  | _ => []

def queryOf? (tool : String) (arguments : List (String × Json)) : Option Query :=
  let text (name : String) := textArgument? name arguments
  match tool with
  | "highlight" => return .highlight (← text "policy")
  | "complete" => return .complete (← cursorOf? arguments)
  | "hover" => return .hover (← cursorOf? arguments)
  | "schema" => return .schema (← text "text") (text "source")
  | "lint" => return .lint (← text "policy")
  | "evaluate" =>
    return .evaluate (← text "policy") ((text "input").getD Schema.emptyDocument)
      ((text "data").getD Schema.emptyDocument)
  | _ => none

/-- The call of a tool by name. Nothing comes of arguments that the tool does not know. -/
def Query.ofCall? (tool : String) (arguments : List (String × Json)) : Option Query :=
  if arguments.all fun a => (parameters tool).contains a.1 then queryOf? tool arguments else none

mutual

def schemaJson : Schema → Json
  | .scalar type sample source => .obj (("type", .str type.name) :: lastMembers sample source)
  | .array none sample source => .obj (("type", .str "array") :: lastMembers sample source)
  | .array (some item) sample source =>
    .obj (("type", .str "array") :: ("array_item_type", schemaJson item) ::
      lastMembers sample source)
  | .object members sample source =>
    .obj (("type", .str "object") :: ("children", .obj (memberJsons members)) ::
      lastMembers sample source)

def memberJsons : List (String × Schema) → List (String × Json)
  | [] => []
  | (k, s) :: rest => (k, schemaJson s) :: memberJsons rest

def lastMembers (sample : Json) (source : Option String) : List (String × Json) :=
  let samples :=
    match sample with
    | .null => []
    | v => [("example", v)]
  match source with
  | some s => samples ++ [("source", .str s)]
  | none => samples

end

def lint (s : Settings) (policy : String) : Work (Except Fault Json) :=
  if s.lintRules.lintable policy then
    .lint policy fun
      | .ok report =>
        .done (.ok (.obj (lintMembers (diagnosticsOf s policy report) report.parseError)))
      | .error failure =>
        .done
          (if failure.isReported then
            .ok (.obj (lintMembers [] none ++ [("error", .str failure.message)]))
          else .error (.engine failure))
  else .done (.ok (.obj (lintMembers [] none)))

def answer (s : Settings) : Query → Work (Except Fault Json)
  | .highlight policy => .done (.ok (.arr ((styledRanges policy).map StyledRange.toJson)))
  | .complete c => .done ((completion c).map completionJson)
  | .hover c => .done ((hoverNote c).map hoverJson)
  | .schema text source =>
    .done (.ok
      (match Schema.parse? source text with
       | some node => schemaJson node
       | none => .null))
  | .lint policy => lint s policy
  | .evaluate policy input data =>
    .evaluate policy input data fun
      | .ok value => .done (.ok value)
      | .error failure => .done (.error (.engine failure))

end PolicyEditor.FrontEnd.Tools
