import PolicyEditor.Path.Basic
import PolicyEditor.Proofs.Json.Keys
import PolicyEditor.Proofs.Schema.Labels

/-!
Paths lead through a schema as they lead through the value it was inferred from. A schema keeps only
the first element of an array, so the walk over values goes to first elements too.
-/

namespace PolicyEditor.Path

open PolicyEditor.Schema (Context Root ofJson unlabelled unlabelledMembers unlabelled_ofJson
  unlabelled_of_parse? unlabelledMembers_eq_map unlabelledItem_eq_map membersOf_eq_map
  firstItem_eq_map)

/-- One step into a value. An index leads to the first element of an array, a name to a member of an
object or, in an array, of its first element. -/
def enter? : Segment → Json → Option Json
  | .index _, .arr elements => elements.head?
  | .name key, .arr elements => elements.head?.bind (Json.member? key)
  | .name key, .obj members => Json.find? key members
  | _, _ => none

def descend : List Segment → Json → Option Json
  | [], v => some v
  | s :: rest, v => (enter? s v).bind (descend rest)

theorem find?_membersOf (label : Option String) (key : String) (members : List (String × Json)) :
    Json.find? key (Schema.membersOf label members) =
      (Json.find? key members).map (ofJson label) := by
  rw [membersOf_eq_map, Json.find?_map]

/-- A step into the schema of a value leads to the schema of what a step into the value leads to. -/
theorem step_ofJson (label : Option String) (s : Segment) (v : Json) :
    step s (ofJson label v) = (enter? s v).map (ofJson label) := by
  cases s with
  | index text =>
    cases v with
    | arr elements => exact firstItem_eq_map label elements
    | _ => rfl
  | name key =>
    cases v with
    | obj members => exact find?_membersOf label key members
    | arr elements =>
      cases elements with
      | nil => rfl
      | cons first rest =>
        cases first with
        | obj members => exact find?_membersOf label key members
        | _ => rfl
    | _ => rfl

theorem find?_unlabelledMembers (key : String) (members : List (String × Schema)) :
    Json.find? key (unlabelledMembers members) = (Json.find? key members).map unlabelled := by
  rw [unlabelledMembers_eq_map, Json.find?_map]

/-- A step does not look at labels. -/
theorem step_unlabelled (s : Segment) (node : Schema) :
    step s node.unlabelled = (step s node).map unlabelled := by
  cases node with
  | scalar type sample source => cases s <;> rfl
  | object members sample source =>
    cases s with
    | index text => rfl
    | name key => exact find?_unlabelledMembers key members
  | array item sample source =>
    cases s with
    | index text => exact unlabelledItem_eq_map item
    | name key =>
      cases item with
      | none => rfl
      | some element =>
        cases element with
        | object members sample source => exact find?_unlabelledMembers key members
        | _ => rfl

/-! ### Whole paths -/

theorem follow_none (segments : List Segment) : follow none segments = none := by
  induction segments with
  | nil => rfl
  | cons s rest ih => exact ih

theorem follow_cons (node : Schema) (s : Segment) (rest : List Segment) :
    follow (some node) (s :: rest) = follow (step s node) rest := rfl

theorem follow_ofJson (label : Option String) (segments : List Segment) (v : Json) :
    follow (some (ofJson label v)) segments = (descend segments v).map (ofJson label) := by
  induction segments generalizing v with
  | nil => rfl
  | cons s rest ih =>
    rw [follow_cons, step_ofJson, descend]
    cases enter? s v with
    | none => exact follow_none rest
    | some w => exact ih w

theorem follow_unlabelled (segments : List Segment) (node : Schema) :
    follow (some node.unlabelled) segments = (follow (some node) segments).map unlabelled := by
  induction segments generalizing node with
  | nil => rfl
  | cons s rest ih =>
    rw [follow_cons, follow_cons, step_unlabelled]
    cases step s node with
    | none => simp only [Option.map_none, follow_none]
    | some next => exact ih next

/-- What a path leads to is the schema of a value inside the root's, labels aside. -/
theorem follow_value {root node : Schema} {v : Json} {segments : List Segment}
    (hroot : root.unlabelled = ofJson none v) (hnode : follow (some root) segments = some node) :
    ∃ w, descend segments v = some w ∧ node.unlabelled = ofJson none w := by
  have hfound := congrArg (Option.map unlabelled) hnode
  rw [← follow_unlabelled, hroot, follow_ofJson, Option.map_some, Option.map_eq_some_iff] at hfound
  obtain ⟨w, hw, heq⟩ := hfound
  exact ⟨w, hw, heq.symm⟩

theorem resolve_of_parse {context : Context} {text : List Char} {p : Path}
    (h : parse text = .ok (some p)) : resolve context text = .ok (lookup context p) := by
  simp only [resolve, h]
  rfl

/-- A path that can be read leads to the schema of the value that its segments lead to, labels
aside, and to nothing exactly if they lead to no value. The root may be the schema of the value
itself, where the labels agree too, or come from a document in which blocks label some members. -/
theorem resolve_descends [Json.Nesting] {context : Context} {root : Root} {label : Option String} {v : Json}
    {node : Schema} {text : List Char} {segments : List Segment}
    (hroot : context.root root = some node)
    (hnode : node = ofJson label v ∨ ∃ document : String,
      Json.load? (Schema.strip document.toList) = some v ∧
        Schema.parse? label document = some node)
    (hparse : parse text = .ok (some ⟨root, segments⟩)) :
    ∃ found, resolve context text = .ok found ∧
      found.map unlabelled = (descend segments v).map (fun w => (ofJson label w).unlabelled) ∧
      (found = none ↔ descend segments v = none) ∧
      (node = ofJson label v → found = (descend segments v).map (ofJson label)) := by
  have hbare : node.unlabelled = ofJson none v := by
    rcases hnode with rfl | ⟨document, hload, hdocument⟩
    · exact unlabelled_ofJson label v
    · exact unlabelled_of_parse? hload hdocument
  have hfound : (follow (some node) segments).map unlabelled =
      (descend segments v).map (ofJson none) := by
    rw [← follow_unlabelled, hbare, follow_ofJson]
  refine ⟨follow (some node) segments, ?_, ?_, ?_, ?_⟩
  · rw [resolve_of_parse hparse, lookup, hroot]
  · simp only [hfound, unlabelled_ofJson]
  · rw [← Option.map_eq_none_iff (f := unlabelled), hfound, Option.map_eq_none_iff]
  · rintro rfl
    exact follow_ofJson label segments v

section

open scoped Json.UsualNesting

def usersDocument : String :=
  "\x7b\n// ---- u ----\n\"users\": [\x7b\"name\": \"bob\"\x7d]\n// ----------\n\x7d"

/-- A name leads through an array to a member of its element, whatever block labels it. -/
theorem resolve_descends_through_array :
    ∃ found, resolve (.ofTexts none (some usersDocument)) "data.users.name".toList = .ok found ∧
      found.map unlabelled = some (.scalar .string (.str "bob") none) ∧ found ≠ none := by
  have hload : Json.load? (Schema.strip usersDocument.toList) =
      some (.obj [("users", .arr [.obj [("name", .str "bob")]])]) := by rfl
  have hparse : parse "data.users.name".toList =
      .ok (some ⟨.data, [.name "users", .name "name"]⟩) := by rfl
  obtain ⟨node, hnode⟩ : ∃ node, Schema.parse? (some Root.data.label) usersDocument = some node :=
    ⟨_, by rfl⟩
  have hroot : (Context.ofTexts none (some usersDocument)).root .data = some node := hnode
  obtain ⟨found, hfound, hbare, hnone, -⟩ :=
    resolve_descends hroot (.inr ⟨_, hload, hnode⟩) hparse
  exact ⟨found, hfound, hbare, fun h => nomatch hnone.mp h⟩

end

end PolicyEditor.Path
