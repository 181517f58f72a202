import PolicyEditor.Validation.Basic

/-!
What a linter reports, and how its reports are read from documents.
-/

namespace PolicyEditor.Lint

open PolicyEditor.Validation

/-- Where a violation stands; rows and columns count from one. -/
structure Location where
  row : Int := 1
  col : Int := 1
  text : Option String := none
  file : Option String := none
  deriving DecidableEq, Repr

structure Resource where
  description : Option String
  ref : Option String
  deriving DecidableEq, Repr

structure Violation where
  rule : Option String := none
  category : Option String := none
  level : Option String := none
  description : Option String := none
  location : Location := {}
  resources : List Resource := []
  deriving DecidableEq, Repr

/-- All findings in a policy. If the policy cannot be read there are none, and `parseError` says
why. -/
structure Report where
  violations : List Violation := []
  summary : List (String × Json) := []
  aggregates : List Json := []
  parseError : Option String := none
  deriving Repr

def Report.unreadable (why : String) : Report :=
  { parseError := some why }

def nonempty? (s : Option String) : Option String :=
  s.filter fun t => !t.isEmpty

def Violation.documentationUrl (v : Violation) : Option String :=
  v.resources.findSome? fun r =>
    if r.description = some "documentation" then nonempty? r.ref else none

def Location.check : Json → Checked Location :=
  record fun fields =>
    ((((Checked.valid Location.mk).and
      (optional "row" 1 integer fields)).and
      (optional "col" 1 integer fields)).and
      (optionalText "text" fields)).and
      (optionalText "file" fields)

def Resource.check : Json → Checked Resource :=
  record fun fields =>
    ((Checked.valid Resource.mk).and
      (optionalText "description" fields)).and
      (optionalText "ref" fields)

/-- The rule of a violation; some linters call it the title. -/
def ruleField (fields : List (String × Json)) : Checked (Option String) :=
  if (Json.find? "rule" fields).isSome then optionalText "rule" fields
  else optionalText "title" fields

def Violation.check : Json → Checked Violation :=
  record fun fields =>
    ((((((Checked.valid Violation.mk).and
      (ruleField fields)).and
      (optionalText "category" fields)).and
      (optionalText "level" fields)).and
      (optionalText "description" fields)).and
      (optional "location" {} Location.check fields)).and
      (optional "related_resources" [] (list Resource.check) fields)

def Report.check : Json → Checked Report :=
  record fun fields =>
    ((((Checked.valid Report.mk).and
      (optional "violations" [] (list Violation.check) fields)).and
      (optional "summary" [] dictionary fields)).and
      (optional "aggregates" [] (list anything) fields)).and
      (optionalText "parse_error" fields)

def Location.toJson (l : Location) : Json :=
  .obj [("row", .int l.row), ("col", .int l.col), ("text", .ofOption l.text),
    ("file", .ofOption l.file)]

def Resource.toJson (r : Resource) : Json :=
  .obj [("description", .ofOption r.description), ("ref", .ofOption r.ref)]

def Violation.toJson (v : Violation) : Json :=
  .obj [("rule", .ofOption v.rule), ("category", .ofOption v.category),
    ("level", .ofOption v.level), ("description", .ofOption v.description),
    ("location", v.location.toJson), ("related_resources", .arr (v.resources.map Resource.toJson))]

end PolicyEditor.Lint
