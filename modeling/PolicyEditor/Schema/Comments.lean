import PolicyEditor.Text.Classes

/-!
Documents with comments. `strip` removes line and block comments and leaves strings alone; of a
block comment the newlines remain, so that every line keeps its number.
-/

namespace PolicyEditor.Schema

inductive Region where
  | code | string | lineComment | blockComment
  deriving DecidableEq, Repr

def stripFrom : Region → List Char → List Char
  | _, [] => []
  | .code, '/' :: '/' :: rest => stripFrom .lineComment rest
  | .code, '/' :: '*' :: rest => stripFrom .blockComment rest
  | .code, c :: rest => c :: stripFrom (if c = '"' then .string else .code) rest
  | .string, '\\' :: c :: rest => '\\' :: c :: stripFrom .string rest
  | .string, c :: rest => c :: stripFrom (if c = '"' then .code else .string) rest
  | .lineComment, c :: rest =>
    if c = '\n' then '\n' :: stripFrom .code rest else stripFrom .lineComment rest
  | .blockComment, '*' :: '/' :: rest => stripFrom .code rest
  | .blockComment, c :: rest =>
    if c = '\n' then '\n' :: stripFrom .blockComment rest else stripFrom .blockComment rest

def strip (s : List Char) : List Char :=
  stripFrom .code s

def emptyDocument : String := "\x7b\x7d"

/-- The document without its comments and outer blanks; an empty object if nothing is left. -/
def stripToDocument (s : String) : String :=
  match Text.strip (strip s.toList) with
  | [] => emptyDocument
  | document => String.ofList document

end PolicyEditor.Schema
