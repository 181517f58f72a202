import PolicyEditor.Lint.Report
import PolicyEditor.Text.Position

/-!
Diagnostics: the findings of a linter as ranges of a text. A finding may come from an older or
shorter text; its place is brought into the text and never dropped.
-/

namespace PolicyEditor.Lint

open PolicyEditor.Text (LineIndex)
open PolicyEditor.Validation

inductive Severity where
  | error | warning
  deriving DecidableEq, Repr

def Severity.name : Severity → String
  | .error => "error"
  | .warning => "warning"

structure Diagnostic where
  fromOffset : Int
  toOffset : Int
  line : Int
  column : Int
  severity : Severity
  message : String
  source : String
  rule : Option String
  category : Option String
  documentationUrl : Option String
  deriving DecidableEq, Repr

/-- Rules that are left out unless the user says otherwise: documents stand alone, so the path of a
package is never that of a directory. -/
def defaultSuppressed : List String := ["directory-package-mismatch"]

/-- The diagnostic of a violation. It covers at least one character where the text has one. -/
def Violation.toDiagnostic (x : LineIndex) (v : Violation) : Diagnostic :=
  let line := x.clampLine v.location.row
  let start := x.offset line v.location.col
  let width := max 1 ((v.location.text.map String.length).getD 0)
  -- The end stays within the text, and at or behind the start.
  let stop := min (start + width) x.length
  { fromOffset := start
    toOffset := max stop start
    line := line
    column := start - x.lineStart line + 1
    severity := if v.level = some "error" then .error else .warning
    message := ((nonempty? v.description).or (nonempty? v.rule)).getD "Unknown violation"
    source := "regal/" ++ (nonempty? v.category).getD "unknown" ++ "/" ++
      (nonempty? v.rule).getD "unknown"
    rule := v.rule
    category := v.category
    documentationUrl := v.documentationUrl }

/-- The order of diagnostics: by where they begin, then by where they end. -/
def Diagnostic.before (a b : Diagnostic) : Bool :=
  a.fromOffset < b.fromOffset || (a.fromOffset == b.fromOffset && a.toOffset ≤ b.toOffset)

def Violation.suppressedBy (rules : List String) (v : Violation) : Bool :=
  v.rule.any rules.contains

/-- The diagnostics of violations in a text, in order; equal places keep the order of the linter. -/
def diagnostics (suppressed : List String) (text : List Char) (violations : List Violation) :
    List Diagnostic :=
  let x := LineIndex.ofChars text
  ((violations.filter fun v => !v.suppressedBy suppressed).map (Violation.toDiagnostic x)).mergeSort
    Diagnostic.before

def severities : List (String × Severity) :=
  [("error", .error), ("warning", .warning)]

def Diagnostic.check : Json → Checked Diagnostic :=
  record fun fields =>
    ((((((((((Checked.valid Diagnostic.mk).and
      (required "from_offset" integer fields)).and
      (required "to_offset" integer fields)).and
      (required "line" integer fields)).and
      (required "column" integer fields)).and
      (required "severity" (literal severities) fields)).and
      (required "message" string fields)).and
      (required "source" string fields)).and
      (optionalText "rule" fields)).and
      (optionalText "category" fields)).and
      (optionalText "documentation_url" fields)

def Diagnostic.toJson (d : Diagnostic) : Json :=
  .obj [("from_offset", .int d.fromOffset), ("to_offset", .int d.toOffset), ("line", .int d.line),
    ("column", .int d.column), ("severity", .str d.severity.name), ("message", .str d.message),
    ("source", .str d.source), ("rule", .ofOption d.rule), ("category", .ofOption d.category),
    ("documentation_url", .ofOption d.documentationUrl)]

end PolicyEditor.Lint
