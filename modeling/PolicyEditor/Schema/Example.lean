import PolicyEditor.Json.Encode
import PolicyEditor.Schema.Basic

/-!
Examples as text: the value itself, or the keys of an object, cut short where they get long.
-/

namespace PolicyEditor.Schema

def maxExampleWidth : Nat := 80

def shorten (s : String) : String :=
  if maxExampleWidth < s.length then
    String.ofList (s.toList.take (maxExampleWidth - 3)) ++ "..."
  else s

def texts? (values : List Json) : Option (List String) :=
  values.mapM fun
    | .str s => some s
    | _ => none

/-- The keys that the example of an object lists: strings in a list, the keys of an object or the
characters of a text. Nothing else lists keys. -/
def sampleKeys? (sample : Json) : Option (List String) :=
  if sample.isEmpty then some []
  else
    match sample with
    | .arr values => texts? values
    | .obj members => some (members.map (·.1))
    | .str s => some (s.toList.map fun c => String.ofList [c])
    | _ => none

/-- Whether the example can be shown: that of an object has to list keys. -/
def showable : Schema → Bool
  | .object _ sample _ => (sampleKeys? sample).isSome
  | _ => true

/-- The example as text. Dots follow the keys of an object that has more members. -/
def exampleText : Schema → Option String
  | .object members sample _ =>
    let keys := (sampleKeys? sample).getD []
    let more := if keys.length < members.length then ", ..." else ""
    some (shorten ("\x7b" ++ ", ".intercalate keys ++ more ++ "\x7d"))
  | .scalar .null sample _ => some (shorten (Json.encode false sample))
  | .scalar _ .null _ => none
  | .array _ .null _ => none
  | .scalar _ sample _ => some (shorten (Json.encode false sample))
  | .array _ sample _ => some (shorten (Json.encode false sample))

end PolicyEditor.Schema
