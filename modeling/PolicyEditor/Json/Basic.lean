import PolicyEditor.Decimal.Binary64

/-!
Decoded documents. Integers and floating-point numbers are told apart, and the members of an object
keep their order.
-/

namespace PolicyEditor

inductive Json where
  | null
  | bool (b : Bool)
  | int (n : Int)
  | float (x : Decimal.Binary64)
  | str (s : String)
  | arr (elements : List Json)
  | obj (members : List (String × Json))
  deriving Repr

namespace Json

/-- Puts a member: a key that is there keeps its place and takes the new value, a new key comes
last. -/
def put {α : Type} (key : String) (value : α) : List (String × α) → List (String × α)
  | [] => [(key, value)]
  | (k, v) :: rest => if k = key then (k, value) :: rest else (k, v) :: put key value rest

def find? {α : Type} (key : String) : List (String × α) → Option α
  | [] => none
  | (k, v) :: rest => if k = key then some v else find? key rest

theorem find?_put_self {α : Type} (key : String) (value : α) (members : List (String × α)) :
    find? key (put key value members) = some value := by
  induction members with
  | nil => simp [put, find?]
  | cons m rest ih =>
    obtain ⟨k, v⟩ := m
    by_cases h : k = key <;> simp [put, find?, h, ih]

theorem find?_put_of_ne {α : Type} {key other : String} (value : α)
    (members : List (String × α)) (h : other ≠ key) :
    find? other (put key value members) = find? other members := by
  induction members with
  | nil => simp [put, find?, h.symm]
  | cons m rest ih =>
    obtain ⟨k, v⟩ := m
    by_cases hk : k = key
    · simp [put, find?, hk, h.symm]
    · simp [put, find?, hk, ih]

/-- The object of these members in order, later ones winning over earlier ones of the same key. -/
def ofMembers (members : List (String × Json)) : Json :=
  .obj (members.foldl (fun acc m => put m.1 m.2 acc) [])

def member? (key : String) : Json → Option Json
  | .obj members => find? key members
  | _ => none

/-- Values that count as nothing: null, false, zero, and empty texts and collections. -/
def isEmpty : Json → Bool
  | .null => true
  | .bool b => !b
  | .int n => n == 0
  | .float (.finite _ m _) => m == 0
  | .float _ => false
  | .str s => s.isEmpty
  | .arr elements => elements.isEmpty
  | .obj members => members.isEmpty

def ofOption : Option String → Json
  | none => .null
  | some s => .str s

end Json

end PolicyEditor
