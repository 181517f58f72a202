import PolicyEditor.Schema.Document
import PolicyEditor.Validation.Basic

/-!
Schemas as documents. A schema is written as an object with its type, its parts, its example and its
source; a document is read back only if its parts fit its type.
-/

namespace PolicyEditor.Schema

open PolicyEditor.Validation

inductive TypeName where
  | scalar (type : Scalar)
  | array
  | object
  deriving DecidableEq, Repr

def typeNames : List (String × TypeName) :=
  [("object", .object), ("array", .array), ("string", .scalar .string),
   ("number", .scalar .number), ("boolean", .scalar .boolean), ("null", .scalar .null)]

/-- The fields of a schema before they are known to fit together. -/
structure Fields where
  type : TypeName
  members : Option (List (String × Schema))
  item : Option Schema
  sample : Json
  source : Option String

/-- The schema of some fields: members exactly for an object, an item only for an array. -/
def ofFields (f : Fields) : Checked Schema :=
  match f.type, f.members, f.item with
  | .object, some members, none => .valid (.object members f.sample f.source)
  | .array, none, item => .valid (.array item f.sample f.source)
  | .scalar type, none, none => .valid (.scalar type f.sample f.source)
  | _, _, _ => flawed .shape

def eachMember (check : Json → Checked Schema) :
    List (String × Json) → Checked (List (String × Schema))
  | [] => .valid []
  | (k, v) :: rest =>
    (((check v).under k).map fun s t => (k, s) :: t).and (eachMember check rest)

def membersField (check : Json → Checked Schema) : Json → Checked (List (String × Schema))
  | .obj members => eachMember check members
  | _ => flawed .dictType

def checkStep (check : Json → Checked Schema) : Json → Checked Schema :=
  record fun fields =>
    (((((Checked.valid Fields.mk).and
      (required "type" (literal typeNames) fields)).and
      (optional "children" none (nullable (membersField check)) fields)).and
      (optional "array_item_type" none (nullable check) fields)).and
      (optional "example" .null anything fields)).and
      (optional "source" none (nullable string) fields) |>.andThen ofFields

mutual

def depth : Json → Nat
  | .arr vs => depthOfList vs + 1
  | .obj ms => depthOfMembers ms + 1
  | _ => 0

def depthOfList : List Json → Nat
  | [] => 0
  | v :: rest => max (depth v) (depthOfList rest)

def depthOfMembers : List (String × Json) → Nat
  | [] => 0
  | (_, v) :: rest => max (depth v) (depthOfMembers rest)

end

/-- Reads a schema that nests less deep than `n`. -/
def checkUpTo : (n : Nat) → Json → Checked Schema
  | 0, _ => flawed .modelType
  | n + 1, v => checkStep (checkUpTo n) v

def check (v : Json) : Checked Schema :=
  checkUpTo (depth v + 1) v

mutual

def toJson : Schema → Json
  | .scalar type sample source =>
    .obj [("type", .str type.name), ("children", .null), ("array_item_type", .null),
      ("example", sample), ("source", .ofOption source)]
  | .array item sample source =>
    .obj [("type", .str "array"), ("children", .null), ("array_item_type", itemJson item),
      ("example", sample), ("source", .ofOption source)]
  | .object members sample source =>
    .obj [("type", .str "object"), ("children", .obj (membersJson members)),
      ("array_item_type", .null), ("example", sample), ("source", .ofOption source)]

def itemJson : Option Schema → Json
  | none => .null
  | some item => toJson item

def membersJson : List (String × Schema) → List (String × Json)
  | [] => []
  | (k, s) :: rest => (k, toJson s) :: membersJson rest

end

def checkContext : Json → Checked Context :=
  record fun fields =>
    ((Checked.valid Context.mk).and
      (optional "input" none (nullable check) fields)).and
      (optional "data" none (nullable check) fields)

end PolicyEditor.Schema
