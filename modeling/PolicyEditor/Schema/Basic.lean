import PolicyEditor.Json.Basic

/-!
Schemas inferred from documents. An object knows its members, an array the schema of its first
element; every node keeps an example and may carry the label of the source it came from.

Only objects have members and only arrays have an item, so the type alone fixes the shape.
-/

namespace PolicyEditor

inductive Schema.Scalar where
  | string | number | boolean | null
  deriving DecidableEq, Repr

inductive Schema where
  | scalar (type : Schema.Scalar) (sample : Json) (source : Option String)
  | array (item : Option Schema) (sample : Json) (source : Option String)
  | object (members : List (String × Schema)) (sample : Json) (source : Option String)

namespace Schema

def Scalar.name : Scalar → String
  | .string => "string"
  | .number => "number"
  | .boolean => "boolean"
  | .null => "null"

def typeName : Schema → String
  | .scalar type _ _ => type.name
  | .array _ _ _ => "array"
  | .object _ _ _ => "object"

/-- An example of a value; of an object it lists keys. -/
def sample : Schema → Json
  | .scalar _ s _ | .array _ s _ | .object _ s _ => s

def source : Schema → Option String
  | .scalar _ _ s | .array _ _ s | .object _ _ s => s

def item? : Schema → Option Schema
  | .array item _ _ => item
  | _ => none

def members? : Schema → Option (List (String × Schema))
  | .object members _ _ => some members
  | _ => none

def describe : Schema → String
  | .array (some item) _ _ => "array<" ++ describe item ++ ">"
  | .array none _ _ => "array"
  | .scalar type _ _ => type.name
  | .object _ _ _ => "object"

def arraySampleSize : Nat := 3

def objectSampleSize : Nat := 5

mutual

def ofJson (source : Option String) : Json → Schema
  | .null => .scalar .null .null source
  | .bool b => .scalar .boolean (.bool b) source
  | .int n => .scalar .number (.int n) source
  | .float x => .scalar .number (.float x) source
  | .str s => .scalar .string (.str s) source
  | .arr elements =>
    .array (firstItem source elements) (.arr (elements.take arraySampleSize)) source
  | .obj members =>
    .object (membersOf source members)
      (.arr ((members.take objectSampleSize).map fun m => .str m.1)) source

def firstItem (source : Option String) : List Json → Option Schema
  | [] => none
  | v :: _ => some (ofJson source v)

def membersOf (source : Option String) : List (String × Json) → List (String × Schema)
  | [] => []
  | (k, v) :: rest => (k, ofJson source v) :: membersOf source rest

end

end Schema

end PolicyEditor
