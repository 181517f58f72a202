import PolicyEditor.Json.Decode
import PolicyEditor.Schema.Document
import PolicyEditor.Text.Split
import PolicyEditor.Text.Word

/-!
Paths into the documents of a policy, such as `input.users[0]["first name"]`: a root and segments.

`parse` tells three things apart: a path, a text that is no path, and a quoted key that no document
could hold.
-/

namespace PolicyEditor

open PolicyEditor.Schema (Root)
open PolicyEditor.Text (isBlank isDecimal isNameStart isNameChar isWord)

/-- A step of a path: a member by its name, or an element by its index. Every index leads to the
first element, so its text is kept only to be shown. -/
inductive Path.Segment where
  | name (key : String)
  | index (text : String)
  deriving DecidableEq, Repr

structure Path where
  root : Root
  segments : List Path.Segment
  deriving DecidableEq, Repr

namespace Path

/-- A quoted key that cannot be read: the text with its quotes, and what is wrong with it. -/
structure KeyError where
  quoted : List Char
  error : Json.DecodeError
  deriving DecidableEq, Repr

def KeyError.message (e : KeyError) : String :=
  e.error.message e.quoted

def decodeKey (quoted : List Char) : Except KeyError String :=
  match Json.decode quoted with
  | .ok (.str s) => .ok s
  | .ok _ => .ok ""
  | .error e => .error ⟨quoted, e⟩

/-- The text between quotes, given what follows the opening one, and the rest. A backslash takes the
next character with it, but no newline. -/
def quotedRun : List Char → Option (List Char × List Char)
  | [] => none
  | '"' :: rest => some ([], rest)
  | ['\\'] => none
  | '\\' :: c :: rest =>
    if c = '\n' then none
    else (quotedRun rest).map fun (raw, after) => ('\\' :: c :: raw, after)
  | c :: rest => (quotedRun rest).map fun (raw, after) => (c :: raw, after)

def afterBracket? (s : List Char) : Option (List Char) :=
  match Text.stripStart s with
  | ']' :: rest => some rest
  | _ => none

inductive Written where
  | name (key : List Char)
  | index (text : List Char)
  | quoted (raw : List Char)
  deriving DecidableEq, Repr

def bracketed? (s : List Char) : Option (Written × List Char) :=
  match Text.stripStart s with
  | '_' :: rest => (afterBracket? rest).map fun after => (.index ['_'], after)
  | '"' :: rest =>
    match quotedRun rest with
    | some (raw, after) => (afterBracket? after).map fun last => (.quoted raw, last)
    | none => none
  | s =>
    match s.takeWhile isDecimal with
    | [] => none
    | ds => (afterBracket? (s.drop ds.length)).map fun after => (.index ds, after)

/-- The segment that a text begins with, and the rest: a name or number after a dot, or an index or
quoted key in brackets. -/
def segment? : List Char → Option (Written × List Char)
  | '.' :: c :: rest =>
    if isNameStart c then
      some (.name (c :: rest.takeWhile isNameChar), rest.dropWhile isNameChar)
    else if isDecimal c then
      some (.index (c :: rest.takeWhile isDecimal), rest.dropWhile isDecimal)
    else none
  | '[' :: rest => bracketed? rest
  | _ => none

def Written.read : Written → Except KeyError Segment
  | .name key => .ok (.name (String.ofList key))
  | .index text => .ok (.index (String.ofList text))
  | .quoted raw => (decodeKey ('"' :: raw ++ ['"'])).map .name

/-- The segments of a text up to the blanks that end it. The first argument bounds their number. -/
def readSegments : (rounds : Nat) → List Char → Except KeyError (Option (List Segment))
  | 0, _ => .ok (some [])
  | rounds + 1, s =>
    if s.all isBlank then .ok (some [])
    else
      match segment? s with
      | none => .ok none
      | some (written, rest) => do
        let first ← written.read
        let more ← readSegments rounds rest
        return more.map (first :: ·)

def root? (s : List Char) : Option (Root × List Char) :=
  match Text.afterWord? Root.input.name s with
  | some rest => some (.input, rest)
  | none => (Text.afterWord? Root.data.name s).map fun rest => (.data, rest)

def parse (s : List Char) : Except KeyError (Option Path) :=
  match root? (Text.stripStart s) with
  | none => .ok none
  | some (root, rest) =>
    if rest.head?.any isWord then .ok none
    else do
      let found ← readSegments (rest.length + 1) rest
      return found.map (⟨root, ·⟩)

/-- One step into a schema. An index leads to the element of an array, a name to a member of an
object or, in an array, of its element. -/
def step : Segment → Schema → Option Schema
  | .index _, .array item _ _ => item
  | .name key, .array (some (.object members _ _)) _ _ => Json.find? key members
  | .name key, .object members _ _ => Json.find? key members
  | _, _ => none

def follow (node : Option Schema) (segments : List Segment) : Option Schema :=
  segments.foldl (fun at? s => at?.bind (step s)) node

def lookup (context : Schema.Context) (p : Path) : Option Schema :=
  follow (context.root p.root) p.segments

def resolve (context : Schema.Context) (s : List Char) : Except KeyError (Option Schema) := do
  let found ← parse s
  return found.bind (lookup context)

end Path

end PolicyEditor
