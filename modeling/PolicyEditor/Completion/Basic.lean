import PolicyEditor.Path.Basic
import PolicyEditor.Schema.Example

/-!
Completion of paths: the members that a half-typed path can go on with, and the roots that a
half-typed word can become.
-/

namespace PolicyEditor.Completion

open PolicyEditor.Schema (Context Root)

inductive Category where
  | property | variable | keyword | constant | function
  deriving DecidableEq, Repr

def Category.name : Category → String
  | .property => "property"
  | .variable => "variable"
  | .keyword => "keyword"
  | .constant => "constant"
  | .function => "function"

/-- A candidate. `inArray` tells that the label leads through the elements of an array. -/
structure Item where
  label : String
  category : Category
  detail : Option String
  info : Option String
  inArray : Bool
  deriving DecidableEq, Repr

def arrayMarker : String := "[_]."

def minRootLength : Nat := 3

def roots : List Root := [.input, .data]

def rootDetail : Root → String × String
  | .input => ("Input document", "The input document for policy evaluation")
  | .data => ("Data document", "The data document for policy evaluation")

def rootItem (root : Root) : Item :=
  ⟨root.name, .variable, some (rootDetail root).1, some (rootDetail root).2, false⟩

/-- The candidates for a word: every root that has a document, once the word begins one of the two.
-/
def rootItems (context : Context) (word : List Char) : List Item :=
  if word.length < minRootLength || !roots.any (fun r => word.isPrefixOf r.name.toList) then []
  else (roots.filter fun r => (context.root r).isSome).map rootItem

def memberItem (inArray : Bool) (key : String) (member : Schema) : Item :=
  ⟨(if inArray then arrayMarker else "") ++ key, .property, some member.describe,
    member.exampleText, inArray⟩

def memberItems (inArray : Bool) (partialName : List Char) (members : List (String × Schema)) :
    List Item :=
  (members.filter fun m => partialName.isPrefixOf m.1.toList).map fun m =>
    memberItem inArray m.1 m.2

def itemsBelow (partialName : List Char) : Schema → List Item
  | .object members _ _ => memberItems false partialName members
  | .array (some (.object members _ _)) _ _ => memberItems true partialName members
  | _ => []

def splitLastDot? (s : List Char) : Option (List Char × List Char) :=
  let tail := (s.reverse.takeWhile (· ≠ '.')).reverse
  if tail.length < s.length then some (s.take (s.length - tail.length - 1), tail) else none

def isName : List Char → Bool
  | [] => false
  | c :: rest => Text.isNameStart c && rest.all Text.isNameChar

/-- The candidates for the path typed up to the cursor. A path that ends with a dot goes on with any
member, one that ends with a name with those that begin so. -/
def pathItems (context : Context) (typed : List Char) : Except Path.KeyError (List Item) :=
  let text := Text.strip typed
  if !text.contains '.' && !text.contains '[' then .ok (rootItems context text)
  else
    match splitLastDot? text with
    | none => .ok []
    | some (parent, tail) =>
      -- A tail that is no name, such as an index, goes on with nothing.
      if tail.isEmpty || isName tail then do
        let node ← Path.resolve context parent
        return (node.map (itemsBelow tail)).getD []
      else .ok []

end PolicyEditor.Completion
