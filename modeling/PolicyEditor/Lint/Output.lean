import PolicyEditor.Json.Decode
import PolicyEditor.Lint.Report

/-!
Reading what a linter prints. It writes its report to standard output; for a policy that it cannot
read it writes only to standard error. Output that cannot be read makes a report of its own, but for
output that nests too deep, which is a fault.
-/

namespace PolicyEditor.Lint

open PolicyEditor.Text (isBlank isDecimal)

/-- The first line of a text after its blanks; if it is all blank, its last blank that does not end
a line. -/
def firstLine? (s : List Char) : Option (List Char) :=
  match s.dropWhile isBlank with
  | [] => (s.reverse.find? (· ≠ '\n')).map fun c => [c]
  | rest => some (rest.takeWhile (· ≠ '\n'))

def afterNumber? (s : List Char) : Option (List Char) :=
  if s.head?.any isDecimal then
    match s.dropWhile isDecimal with
    | ':' :: rest => some rest
    | _ => none
  else none

def locatedMessage? (s : List Char) : Option (List Char) :=
  ((afterNumber? s).bind afterNumber?).bind firstLine?

def parseMessage? : List Char → Option (List Char)
  | [] => none
  | c :: rest =>
    match locatedMessage? (c :: rest) with
    | some message => some message
    | none => parseMessage? rest

/-- A member of the linter's output; where it counts as nothing, `default`. -/
def memberOr (default : Json) (field : String) (fields : List (String × Json)) : Json :=
  match Json.find? field fields with
  | some v => if v.isEmpty then default else v
  | none => default

def reportOf? : Json → Option Report
  | .obj fields =>
    (Report.check (.obj [("violations", memberOr (.arr []) "violations" fields),
      ("summary", memberOr (.obj []) "summary" fields),
      ("aggregates", memberOr (.arr []) "aggregates" fields)])).toOption
  | _ => none

/-- The report that a linter printed. Output that is no report tells that the policy is invalid. -/
def parseOutput [Json.Nesting] (stdout stderr : String) : Except Json.DecodeError Report :=
  if stdout.toList.all isBlank then
    if stderr.toList.all isBlank then .ok {}
    else
      .ok (.unreadable (((parseMessage? stderr.toList).map String.ofList).getD "Parse error"))
  else
    match Json.load stdout.toList with
    | .ok output => .ok ((reportOf? output).getD (.unreadable "Invalid policy syntax"))
    | .error e => if e.fault = .tooDeep then .error e else .ok (.unreadable "Invalid policy syntax")

end PolicyEditor.Lint
