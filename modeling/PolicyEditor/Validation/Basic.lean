import PolicyEditor.Decimal.Binary64
import PolicyEditor.Json.Basic
import PolicyEditor.Validation.Numeral

/-!
Checking decoded documents against the records that they stand for. A check gives a value or all
problems of the document at once, each with the path of fields that leads to it.
-/

namespace PolicyEditor.Validation

open PolicyEditor.Decimal (Binary64)

inductive Flaw where
  | missing | stringType | literal | modelType | modelAttributesType | dictType | listType
  | frozenSetType | atLeast | above | shape | intParsing | intFromFloat
  | finiteNumber | intType | floatParsing | floatType | boolParsing | boolType
  deriving DecidableEq, Repr

def Flaw.name : Flaw → String
  | .missing => "missing"
  | .stringType => "string_type"
  | .literal => "literal_error"
  | .modelType => "model_type"
  | .modelAttributesType => "model_attributes_type"
  | .dictType => "dict_type"
  | .listType => "list_type"
  | .frozenSetType => "frozen_set_type"
  | .atLeast => "greater_than_equal"
  | .above => "greater_than"
  | .shape => "value_error"
  | .intParsing => "int_parsing"
  | .intFromFloat => "int_from_float"
  | .finiteNumber => "finite_number"
  | .intType => "int_type"
  | .floatParsing => "float_parsing"
  | .floatType => "float_type"
  | .boolParsing => "bool_parsing"
  | .boolType => "bool_type"

structure Problem where
  path : List String
  flaw : Flaw
  deriving DecidableEq, Repr

def Problem.text (p : Problem) : String :=
  ".".intercalate p.path ++ ": " ++ p.flaw.name

inductive Checked (α : Type) where
  | valid (value : α)
  | invalid (problems : List Problem)

namespace Checked

variable {α β : Type}

def map (f : α → β) : Checked α → Checked β
  | .valid a => .valid (f a)
  | .invalid ps => .invalid ps

/-- Applies what one check gives to what the next one gives. The problems of both come together. -/
def and (f : Checked (α → β)) (x : Checked α) : Checked β :=
  match f, x with
  | .valid f, .valid a => .valid (f a)
  | .valid _, .invalid ps => .invalid ps
  | .invalid ps, .valid _ => .invalid ps
  | .invalid ps, .invalid qs => .invalid (ps ++ qs)

def andThen (x : Checked α) (f : α → Checked β) : Checked β :=
  match x with
  | .valid a => f a
  | .invalid ps => .invalid ps

def under (field : String) : Checked α → Checked α
  | .valid a => .valid a
  | .invalid ps => .invalid (ps.map fun p => { p with path := field :: p.path })

def toOption : Checked α → Option α
  | .valid a => some a
  | .invalid _ => none

def problems : Checked α → List Problem
  | .valid _ => []
  | .invalid ps => ps

end Checked

def flawed {α : Type} (flaw : Flaw) : Checked α :=
  .invalid [⟨[], flaw⟩]

def describe (problems : List Problem) : String :=
  "; ".intercalate (problems.map Problem.text)

def record {α : Type} (check : List (String × Json) → Checked α) : Json → Checked α
  | .obj members => check members
  | _ => flawed .modelType

def required {α : Type} (field : String) (check : Json → Checked α)
    (members : List (String × Json)) : Checked α :=
  match Json.find? field members with
  | some v => (check v).under field
  | none => (flawed .missing).under field

def optional {α : Type} (field : String) (default : α) (check : Json → Checked α)
    (members : List (String × Json)) : Checked α :=
  match Json.find? field members with
  | some v => (check v).under field
  | none => .valid default

def nullable {α : Type} (check : Json → Checked α) : Json → Checked (Option α)
  | .null => .valid none
  | v => (check v).map some

def anything (v : Json) : Checked Json :=
  .valid v

def string : Json → Checked String
  | .str s => .valid s
  | _ => flawed .stringType

def optionalText (field : String) (members : List (String × Json)) : Checked (Option String) :=
  optional field none (nullable string) members

def literal {α : Type} (values : List (String × α)) : Json → Checked α
  | .str s =>
    match Json.find? s values with
    | some a => .valid a
    | none => flawed .literal
  | _ => flawed .literal

def each {α : Type} (check : Json → Checked α) (number : Nat) : List Json → Checked (List α)
  | [] => .valid []
  | v :: rest =>
    (((check v).under (toString number)).map List.cons).and (each check (number + 1) rest)

def list {α : Type} (check : Json → Checked α) : Json → Checked (List α)
  | .arr vs => each check 0 vs
  | _ => flawed .listType

def setOf {α : Type} (check : Json → Checked α) : Json → Checked (List α)
  | .arr vs => each check 0 vs
  | _ => flawed .frozenSetType

def dictionary : Json → Checked (List (String × Json))
  | .obj members => .valid members
  | _ => flawed .dictType

/-- An integer, or a value that stands for one: a floating-point number without a fraction, a truth
value or a text. -/
def integer : Json → Checked Int
  | .int n => .valid n
  | .bool b => .valid (if b then 1 else 0)
  | .float x =>
    if !x.isFinite then flawed .finiteNumber
    else
      match x.toInt? with
      | some n => .valid n
      | none => flawed .intFromFloat
  | .str s =>
    match intOfText? s with
    | some n => .valid n
    | none => flawed .intParsing
  | _ => flawed .intType

def integerFrom (least : Int) (v : Json) : Checked Int :=
  (integer v).andThen fun n => if least ≤ n then .valid n else flawed .atLeast

def float : Json → Checked Binary64
  | .float x => .valid x
  | .int n =>
    let x := Binary64.ofInt n
    if x.isFinite then .valid x else flawed .floatType
  | .bool b => .valid (.ofInt (if b then 1 else 0))
  | .str s =>
    match floatOfText? s with
    | some x => .valid x
    | none => flawed .floatParsing
  | _ => flawed .floatType

def positiveFloat (v : Json) : Checked Binary64 :=
  (float v).andThen fun x => if x.isPositive then .valid x else flawed .above

def boolWords : List (String × Bool) :=
  [("0", false), ("off", false), ("f", false), ("false", false), ("n", false), ("no", false),
   ("1", true), ("on", true), ("t", true), ("true", true), ("y", true), ("yes", true)]

def boolOfInt (n : Int) : Checked Bool :=
  if n = 0 then .valid false else if n = 1 then .valid true else flawed .boolParsing

def boolean : Json → Checked Bool
  | .bool b => .valid b
  | .int n => boolOfInt n
  | .float x =>
    match x.toInt? with
    | some n => boolOfInt n
    | none => flawed .boolType
  | .str s =>
    match Json.find? (s.map Char.toLower) boolWords with
    | some b => .valid b
    | none => flawed .boolParsing
  | _ => flawed .boolType

end PolicyEditor.Validation
