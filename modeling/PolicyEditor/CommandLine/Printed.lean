import PolicyEditor.CommandLine.Command
import PolicyEditor.Completion.Cursor
import PolicyEditor.Highlight
import PolicyEditor.Hover
import PolicyEditor.Lint.Diagnostic

/-!
What commands print: lines with markup, tables and trees. How they are laid out is left to the
terminal. For one without styles they are plain lines: markup is left out, cells stand apart by tabs,
and every level of a tree is indented.
-/

namespace PolicyEditor.CommandLine

inductive Branch where
  | mk (label : String) (below : List Branch)
  deriving Repr

inductive Printed where
  | line (text : String)
  | table (headers : List String) (rows : List (List String)) (title : Option String)
  | tree (root : Branch)
  /-- A document, written out to be laid out anew. -/
  | json (text : String)
  /-- A text as it is, with no line break after it. -/
  | raw (text : String)
  | serving (server : Server)
  deriving Repr

def marked (style text : String) : String :=
  "[" ++ style ++ "]" ++ text ++ "[/" ++ style ++ "]"

def shownPath (path : String) : String :=
  (File.Path.ofString path).text

def shownName (path : String) : String :=
  (File.Path.ofString path).name

def slice (source : List Char) (start stop : Nat) : String :=
  String.ofList ((source.drop start).take (stop - start))

def spansPrinted (source : List Char) (spans : List Highlight.Span) : List Printed :=
  [.table ["start", "end", "tag", "text"]
      (spans.map fun s =>
        [toString s.start, toString s.stop, s.style.name, slice source s.start s.stop]) none,
   .line ("(" ++ toString spans.length ++ " spans)")]

def schemaLabel (name type : String) (source : Option String) : String :=
  let labelled :=
    match Lint.nonempty? source with
    | some s => " " ++ marked "dim" ("(" ++ s ++ ")")
    | none => ""
  marked "bold" name ++ ": " ++ type ++ labelled

mutual

/-- The tree of a schema. Below an array of objects stand the members of its elements. -/
def schemaBranch (name : String) : Schema → Branch
  | .scalar type _ source => .mk (schemaLabel name type.name source) []
  | .array none _ source => .mk (schemaLabel name "array" source) []
  | .array (some (.object members sample itemSource)) _ source =>
    .mk (schemaLabel name ("array<" ++ (Schema.object members sample itemSource).describe ++ ">")
      source) (memberBranches Completion.arrayMarker members)
  | .array (some item) _ source =>
    .mk (schemaLabel name ("array<" ++ item.describe ++ ">") source) []
  | .object members _ source => .mk (schemaLabel name "object" source) (memberBranches "" members)

def memberBranches (front : String) : List (String × Schema) → List Branch
  | [] => []
  | (k, s) :: rest => schemaBranch (front ++ k) s :: memberBranches front rest

end

def completionPrinted : Option Completion.Result → List Printed
  | none | some ⟨_, []⟩ => [.line "No completions."]
  | some ⟨start, items⟩ =>
    [.table ["label", "type", "detail", "info"]
        (items.map fun i => [i.label, i.category.name, i.detail.getD "", i.info.getD ""]) none,
     .line ("(" ++ toString items.length ++ " items, replacing from offset " ++ toString start ++
       ")")]

def optionalLine (name : String) (value : Option String) : List Printed :=
  (value.map fun v => .line (name ++ ": " ++ v)).toList

def hoverPrinted : Option Hover.Result → List Printed
  | none => [.line "Nothing to show."]
  | some ⟨info, _, _⟩ =>
    .line (marked "bold" info.path ++ ": " ++ info.type) ::
      (optionalLine "Example" info.sample ++ optionalLine "Source" info.source)

def severityColour : Lint.Severity → String
  | .error => "red"
  | .warning => "yellow"

def diagnosticsPrinted (title : String) : List Lint.Diagnostic → List Printed
  | [] => [.line (marked "green" "No problems found.")]
  | found =>
    [.table ["line", "col", "severity", "rule", "message"]
        (found.map fun d =>
          [toString d.line, toString d.column, marked (severityColour d.severity) d.severity.name,
           d.source, d.message]) (some title),
     .line ("(" ++ toString found.length ++ " problems)")]

def announcement : Server → String
  | .http host port => marked "green" ("Starting API server on " ++ host ++ ":" ++ toString port)
  | .tools transport => marked "green" ("Starting MCP server (transport: " ++ transport ++ ")")

/-! ### Without styles -/

def styles : List String := ["bold", "dim", "red", "yellow", "green"]

def tags : List (List Char) :=
  styles.flatMap fun s => [("[" ++ s ++ "]").toList, ("[/" ++ s ++ "]").toList]

/-- The text after `skip` more characters of a tag, without its other tags. -/
def withoutTags (skip : Nat) : List Char → List Char
  | [] => []
  | c :: rest =>
    match skip with
    | skip + 1 => withoutTags skip rest
    | 0 =>
      match tags.find? fun tag => tag.isPrefixOf (c :: rest) with
      | some tag => withoutTags (tag.length - 1) rest
      | none => c :: withoutTags 0 rest

def plain (s : String) : String :=
  String.ofList (withoutTags 0 s.toList)

mutual

def branchLines (indent : String) : Branch → List String
  | .mk label below => (indent ++ plain label) :: branchesLines (indent ++ "  ") below

def branchesLines (indent : String) : List Branch → List String
  | [] => []
  | b :: rest => branchLines indent b ++ branchesLines indent rest

end

/-- One thing that is printed, as plain text. A server that is started prints nothing. -/
def Printed.plainText : Printed → String
  | .line s => plain s ++ "\n"
  | .table headers rows title =>
    let lines := (headers :: rows).map fun r => "\t".intercalate (r.map plain)
    "\n".intercalate (title.toList ++ lines) ++ "\n"
  | .tree root => "\n".intercalate (branchLines "" root) ++ "\n"
  | .json s => s ++ "\n"
  | .raw s => s
  | .serving _ => ""

end PolicyEditor.CommandLine
