import PolicyEditor.Schema.Document

/-!
Labels of a schema, apart from everything else it says: schemas without their labels, and schemas in
which every node carries the same one.
-/

namespace PolicyEditor.Schema

mutual

def unlabelled : Schema → Schema
  | .scalar type sample _ => .scalar type sample none
  | .array item sample _ => .array (unlabelledItem item) sample none
  | .object members sample _ => .object (unlabelledMembers members) sample none

def unlabelledItem : Option Schema → Option Schema
  | none => none
  | some item => some (unlabelled item)

def unlabelledMembers : List (String × Schema) → List (String × Schema)
  | [] => []
  | (k, s) :: rest => (k, unlabelled s) :: unlabelledMembers rest

end

mutual

/-- Every node of a schema carries a label. -/
def Labelled (label : Option String) : Schema → Prop
  | .scalar _ _ source => source = label
  | .array item _ source => source = label ∧ ItemLabelled label item
  | .object members _ source => source = label ∧ MembersLabelled label members

def ItemLabelled (label : Option String) : Option Schema → Prop
  | none => True
  | some item => Labelled label item

def MembersLabelled (label : Option String) : List (String × Schema) → Prop
  | [] => True
  | (_, s) :: rest => Labelled label s ∧ MembersLabelled label rest

end

theorem Labelled.source_eq {label : Option String} {s : Schema} (h : Labelled label s) :
    s.source = label := by
  cases s with
  | scalar => exact h
  | array | object => exact h.1

/-! ### Schemas of values -/

mutual

theorem unlabelled_ofJson (label : Option String) : (v : Json) →
    (ofJson label v).unlabelled = ofJson none v
  | .null | .bool _ | .int _ | .float _ | .str _ => rfl
  | .arr elements => by
    simp only [ofJson, unlabelled, unlabelledItem_firstItem label elements]
  | .obj members => by
    simp only [ofJson, unlabelled, unlabelledMembers_membersOf label members]

theorem unlabelledItem_firstItem (label : Option String) : (elements : List Json) →
    unlabelledItem (firstItem label elements) = firstItem none elements
  | [] => rfl
  | v :: _ => by simp only [firstItem, unlabelledItem, unlabelled_ofJson label v]

theorem unlabelledMembers_membersOf (label : Option String) : (members : List (String × Json)) →
    unlabelledMembers (membersOf label members) = membersOf none members
  | [] => rfl
  | (_, v) :: rest => by
    simp only [membersOf, unlabelledMembers, unlabelled_ofJson label v,
      unlabelledMembers_membersOf label rest]

end

mutual

theorem labelled_ofJson (label : Option String) : (v : Json) → Labelled label (ofJson label v)
  | .null | .bool _ | .int _ | .float _ | .str _ => rfl
  | .arr elements => ⟨rfl, itemLabelled_firstItem label elements⟩
  | .obj members => ⟨rfl, membersLabelled_membersOf label members⟩

theorem itemLabelled_firstItem (label : Option String) : (elements : List Json) →
    ItemLabelled label (firstItem label elements)
  | [] => trivial
  | v :: _ => labelled_ofJson label v

theorem membersLabelled_membersOf (label : Option String) : (members : List (String × Json)) →
    MembersLabelled label (membersOf label members)
  | [] => trivial
  | (_, v) :: rest => ⟨labelled_ofJson label v, membersLabelled_membersOf label rest⟩

end

theorem membersOf_eq_map (label : Option String) (members : List (String × Json)) :
    membersOf label members = members.map fun m => (m.1, ofJson label m.2) := by
  induction members with
  | nil => rfl
  | cons m rest ih => simp only [membersOf, List.map_cons, ih]

theorem unlabelledMembers_eq_map (members : List (String × Schema)) :
    unlabelledMembers members = members.map fun m => (m.1, m.2.unlabelled) := by
  induction members with
  | nil => rfl
  | cons m rest ih => simp only [unlabelledMembers, List.map_cons, ih]

theorem unlabelledItem_eq_map (item : Option Schema) :
    unlabelledItem item = item.map unlabelled := by
  cases item <;> rfl

theorem firstItem_eq_map (label : Option String) (elements : List Json) :
    firstItem label elements = elements.head?.map (ofJson label) := by
  cases elements <;> rfl

/-! ### Schemas of documents -/

/-- Members with a source of their own change labels only. -/
theorem unlabelled_ofDocument (label : Option String) (sources : List (String × String))
    (v : Json) : (ofDocument label sources v).unlabelled = ofJson none v := by
  cases v with
  | obj members =>
    simp only [ofDocument, unlabelled, ofJson, unlabelledMembers_eq_map, membersOf_eq_map,
      List.map_map, Function.comp_def, unlabelled_ofJson]
  | _ => exact unlabelled_ofJson label _

/-! ### Documents -/

variable [Json.Nesting]

theorem unlabelled_of_parse? {label : Option String} {text : String} {v : Json} {node : Schema}
    (hload : Json.load? (strip text.toList) = some v) (hnode : parse? label text = some node) :
    node.unlabelled = ofJson none v := by
  simp only [parse?, hload] at hnode
  split at hnode <;> cases hnode
  · exact unlabelled_ofJson label v
  · exact unlabelled_ofDocument label _ v

/-- A document that has a schema was read as the value that the schema describes. -/
theorem value_of_parse? {label : Option String} {text : String} {node : Schema}
    (h : parse? label text = some node) :
    ∃ v, Json.load? (strip text.toList) = some v ∧ node.unlabelled = ofJson none v := by
  cases hload : Json.load? (strip text.toList) with
  | none =>
    simp only [parse?, hload] at h
    cases h
  | some v => exact ⟨v, rfl, unlabelled_of_parse? hload h⟩

theorem Context.parse?_of_root {input data : Option String} {root : Root} {node : Schema}
    (h : (Context.ofTexts input data).root root = some node) :
    ∃ text, parse? (some root.label) text = some node := by
  cases root with
  | input =>
    obtain ⟨text, -, hparse⟩ := Option.bind_eq_some_iff.mp h
    exact ⟨text, hparse⟩
  | data =>
    obtain ⟨text, -, hparse⟩ := Option.bind_eq_some_iff.mp h
    exact ⟨text, hparse⟩

end PolicyEditor.Schema
