import PolicyEditor.Highlight
import PolicyEditor.Hover
import PolicyEditor.Validation.Basic

/-!
The records in which editors and front ends exchange candidates, hover texts and styled ranges.
-/

namespace PolicyEditor.FrontEnd

open PolicyEditor.Validation

structure Candidate where
  label : String
  type : String
  detail : Option String
  info : Option String
  inArray : Bool
  deriving DecidableEq, Repr

/-- What is shown of a path; the range is missing where no text is covered. -/
structure HoverNote where
  path : String
  type : String
  sample : Option String
  source : Option String
  start : Option Int
  stop : Option Int
  deriving DecidableEq, Repr

structure StyledRange where
  start : Int
  stop : Int
  tag : String
  deriving DecidableEq, Repr

def Candidate.ofItem (i : Completion.Item) : Candidate :=
  ⟨i.label, i.category.name, i.detail, i.info, i.inArray⟩

def Candidate.check : Json → Checked Candidate :=
  record fun fields =>
    (((((Checked.valid Candidate.mk).and
      (required "label" string fields)).and
      (optional "type" Completion.Category.property.name string fields)).and
      (optionalText "detail" fields)).and
      (optionalText "info" fields)).and
      (optional "in_array" false boolean fields)

def Candidate.toJson (c : Candidate) : Json :=
  .obj [("label", .str c.label), ("type", .str c.type), ("detail", .ofOption c.detail),
    ("info", .ofOption c.info), ("in_array", .bool c.inArray)]

/-- What is shown of a path that is not read from a policy. -/
def HoverNote.ofInfo (i : Hover.Info) : HoverNote :=
  ⟨i.path, i.type, i.sample, i.source, none, none⟩

def HoverNote.ofResult (r : Hover.Result) : HoverNote :=
  { HoverNote.ofInfo r.info with start := some r.start, stop := some r.stop }

def HoverNote.check : Json → Checked HoverNote :=
  record fun fields =>
    ((((((Checked.valid HoverNote.mk).and
      (required "path" string fields)).and
      (required "type" string fields)).and
      (optionalText "example" fields)).and
      (optionalText "source" fields)).and
      (optional "start" none (nullable integer) fields)).and
      (optional "end" none (nullable integer) fields)

def ofInt? : Option Int → Json
  | some n => .int n
  | none => .null

def HoverNote.toJson (h : HoverNote) : Json :=
  .obj [("path", .str h.path), ("type", .str h.type), ("example", .ofOption h.sample),
    ("source", .ofOption h.source), ("start", ofInt? h.start), ("end", ofInt? h.stop)]

def StyledRange.ofSpan (s : Highlight.Span) : StyledRange :=
  ⟨s.start, s.stop, s.style.name⟩

def StyledRange.check : Json → Checked StyledRange :=
  record fun fields =>
    (((Checked.valid StyledRange.mk).and
      (required "start" integer fields)).and
      (required "end" integer fields)).and
      (required "tag" string fields)

def StyledRange.toJson (s : StyledRange) : Json :=
  .obj [("start", .int s.start), ("end", .int s.stop), ("tag", .str s.tag)]

end PolicyEditor.FrontEnd
