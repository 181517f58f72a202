import PolicyEditor.Json.Decode
import PolicyEditor.Schema.Basic
import PolicyEditor.Schema.Comments
import PolicyEditor.Schema.Block

/-!
Schemas of whole documents. The members of the outermost object that stand in a marker block carry
the name of the block as their source; everything else carries the label of the document.
-/

namespace PolicyEditor.Schema

/-- The key that is written between these quotes, or what is wrong with it. -/
def readKey (raw : List Char) : Except Json.DecodeError String := do
  match ← Json.decode ('"' :: raw ++ ['"']) with
  | .str key => return key
  -- What begins with a quote is read as a string.
  | _ => return ""

def withKey (line : Nat) (raw : List Char)
    (others : Except Json.DecodeError (List (Nat × String))) :
    Except Json.DecodeError (List (Nat × String)) := do
  let key ← readKey raw
  let keys ← others
  return (line, key) :: keys

/-- Keys of the outermost object of a document without comments, each with its line. `depth` counts
the open brackets, below zero where more are closed than opened, `line` the lines so far, and
`inside` holds, reversed, what has been read of a string. A string is a key if it stands in one
bracket only and a colon follows. -/
def keysFrom : (depth : Int) → (line : Nat) → (inside : Option (List Char)) → List Char →
    Except Json.DecodeError (List (Nat × String))
  | _, _, _, [] => .ok []
  | depth, line, some raw, '\\' :: c :: rest => keysFrom depth line (some (c :: '\\' :: raw)) rest
  | depth, line, some raw, c :: rest =>
    if c = '"' then
      if depth = 1 ∧ (Json.skipSpace rest).head? = some ':' then
        withKey line raw.reverse (keysFrom depth line none rest)
      else keysFrom depth line none rest
    else keysFrom depth line (some (c :: raw)) rest
  | depth, line, none, c :: rest =>
    if c = '"' then keysFrom depth line (some []) rest
    else if c = '{' ∨ c = '[' then keysFrom (depth + 1) line none rest
    else if c = '}' ∨ c = ']' then keysFrom (depth - 1) line none rest
    else if c = '\n' then keysFrom depth (line + 1) none rest
    else keysFrom depth line none rest

/-- The keys of the outermost object of a document without comments, in order and with repetitions,
each with its line, or what is wrong with the first key that cannot be read. -/
def readKeys (stripped : List Char) : Except Json.DecodeError (List (Nat × String)) :=
  keysFrom 0 1 none stripped

def topLevelKeys (stripped : List Char) : List (Nat × String) :=
  (readKeys stripped).toOption.getD []

def blockAt? (found : List Block) (line : Nat) : Option Block :=
  found.find? fun b => b.startLine < line && line < b.endLine

/-- The sources that blocks give to keys. Of a key that stands in several blocks the last one
counts. -/
def keySources (found : List Block) (keys : List (Nat × String)) : List (String × String) :=
  keys.foldl (fun sources (line, key) =>
    match blockAt? found line with
    | some b => Json.put key b.name sources
    | none => sources) []

def ofDocument (source : Option String) (sources : List (String × String)) : Json → Schema
  | .obj members =>
    .object (members.map fun (k, v) =>
        (k, ofJson (((Json.find? k sources).map some).getD source) v))
      (.arr ((members.take objectSampleSize).map fun m => .str m.1)) source
  | v => ofJson source v

variable [Json.Nesting]

def parse? (source : Option String) (text : String) : Option Schema :=
  let stripped := strip text.toList
  match Json.load? stripped with
  | none => none
  | some v =>
    match blocks text.toList with
    | [] => some (ofJson source v)
    | found => some (ofDocument source (keySources found (topLevelKeys stripped)) v)

structure Context where
  input : Option Schema := none
  data : Option Schema := none

inductive Root where
  | input | data
  deriving DecidableEq, Repr

def Root.name : Root → String
  | .input => "input"
  | .data => "data"

def Root.label : Root → String
  | .input => "Input"
  | .data => "Data"

def Context.root (c : Context) : Root → Option Schema
  | .input => c.input
  | .data => c.data

def Root.schema? (root : Root) (text : Option String) : Option Schema :=
  text.bind (parse? (some root.label))

def Context.ofTexts (input data : Option String) : Context :=
  ⟨Root.input.schema? input, Root.data.schema? data⟩

end PolicyEditor.Schema
