import PolicyEditor.Proofs.Schema.Checking

/-!
Schemas and the documents that they are written as. Every schema is read back from its document. A
document is read as a schema exactly if the fields of each node in it, at every depth, fit together:
members for an object and for nothing else, an item for nothing but an array.
-/

namespace PolicyEditor.Schema

open PolicyEditor.Validation

/-! ### From schemas to documents and back -/

theorem toJson_ne_null (s : Schema) : s.toJson ≠ .null := by
  cases s <;> exact nofun

mutual

/-- A schema is read back from its document, every node with all its fields. -/
theorem check_toJson : (s : Schema) → check s.toJson = .valid s
  | .scalar _ _ _ => check_eq_valid_iff.mpr ⟨_, rfl, rfl, rfl, rfl, rfl, rfl⟩
  | .array item _ _ =>
    check_eq_valid_iff.mpr ⟨_, rfl, rfl, rfl, nullable_itemJson item, rfl, rfl⟩
  | .object members _ _ =>
    check_eq_valid_iff.mpr ⟨_, rfl, rfl,
      nullable_eq_some_iff.mpr ⟨nofun, eachMember_membersJson members⟩, rfl, rfl, rfl⟩

theorem nullable_itemJson : (item : Option Schema) → nullable check (itemJson item) = .valid item
  | none => rfl
  | some item => nullable_eq_some_iff.mpr ⟨toJson_ne_null item, check_toJson item⟩

theorem eachMember_membersJson : (members : List (String × Schema)) →
    eachMember check (membersJson members) = .valid members
  | [] => rfl
  | (_, s) :: rest => by
    rw [membersJson, eachMember, check_toJson s, eachMember_membersJson rest]
    rfl

end

/-! ### Nodes -/

/-- The nodes of a schema: itself, and those of its members and of its item. -/
inductive NodeOf (n : Schema) : Schema → Prop where
  | self : NodeOf n n
  | member {s : Schema} {members : List (String × Schema)} {m : String × Schema} :
      s.members? = some members → m ∈ members → NodeOf n m.2 → NodeOf n s
  | item {s item : Schema} : s.item? = some item → NodeOf n item → NodeOf n s

/-- The documents that a document holds in the places of nodes: itself, and those that its members
and its item hold. -/
inductive WrittenIn (d : Json) : Json → Prop where
  | self : WrittenIn d d
  | member {fields listed : List (String × Json)} {m : String × Json} :
      given "children" fields = .obj listed → m ∈ listed → WrittenIn d m.2 →
      WrittenIn d (.obj fields)
  | item {fields : List (String × Json)} : given "array_item_type" fields ≠ .null →
      WrittenIn d (given "array_item_type" fields) → WrittenIn d (.obj fields)

theorem members?_ne_none_iff (s : Schema) : s.members? ≠ none ↔ s.typeName = "object" := by
  cases s with
  | scalar type => cases type <;> simp [members?, typeName, Scalar.name]
  | array | object => simp [members?, typeName]

theorem array_of_item? {s : Schema} (h : s.item? ≠ none) : s.typeName = "array" := by
  cases s with
  | array => rfl
  | scalar | object => exact absurd rfl h

/-! ### Documents that are read -/

theorem exists_of_mem_forall₂ {α β : Type} {R : α → β → Prop} {as : List α} {bs : List β} {a : α}
    (h : List.Forall₂ R as bs) (ha : a ∈ as) : ∃ b ∈ bs, R a b := by
  induction h with
  | nil => cases ha
  | cons hab _ ih =>
    rcases List.mem_cons.mp ha with rfl | ha
    · exact ⟨_, List.mem_cons_self, hab⟩
    · obtain ⟨b, hb, hab⟩ := ih ha
      exact ⟨b, List.mem_cons_of_mem _ hb, hab⟩

/-- The members that a document gives are read as those that its schema has. -/
theorem Tells.members_read {check : Json → Checked Schema} {fields : List (String × Json)}
    {s : Schema} {members : List (String × Schema)} (h : Tells check fields s)
    (hmembers : s.members? = some members) :
    ∃ listed, given "children" fields = .obj listed ∧
      List.Forall₂ (fun d m => d.1 = m.1 ∧ check d.2 = .valid m.2) listed members :=
  membersField_eq_valid_iff.mp (nullable_eq_some_iff.mp (hmembers ▸ h.members)).2

theorem Tells.item_read {check : Json → Checked Schema} {fields : List (String × Json)}
    {s item : Schema} (h : Tells check fields s) (hitem : s.item? = some item) :
    given "array_item_type" fields ≠ .null ∧
      check (given "array_item_type" fields) = .valid item :=
  nullable_eq_some_iff.mp (hitem ▸ h.item)

/-- Every node of a schema is read from a document in the schema's own. -/
theorem NodeOf.exists_written {n s : Schema} {v : Json} (hn : NodeOf n s)
    (h : check v = .valid s) : ∃ d, WrittenIn d v ∧ check d = .valid n := by
  induction hn generalizing v with
  | self => exact ⟨v, .self, h⟩
  | member hmembers hm _ ih =>
    obtain ⟨fields, rfl, htells⟩ := check_eq_valid_iff.mp h
    obtain ⟨listed, hlisted, hread⟩ := htells.members_read hmembers
    obtain ⟨m, hm, -, hcheck⟩ := exists_of_mem_forall₂ hread.flip hm
    obtain ⟨d, hd, hcheck⟩ := ih hcheck
    exact ⟨d, .member hlisted hm hd, hcheck⟩
  | item hitem _ ih =>
    obtain ⟨fields, rfl, htells⟩ := check_eq_valid_iff.mp h
    obtain ⟨hne, hcheck⟩ := htells.item_read hitem
    obtain ⟨d, hd, hcheck⟩ := ih hcheck
    exact ⟨d, .item hne hd, hcheck⟩

/-- Every document in the place of a node is read as a node. -/
theorem WrittenIn.exists_node {d v : Json} {s : Schema} (hd : WrittenIn d v)
    (h : check v = .valid s) : ∃ n, NodeOf n s ∧ check d = .valid n := by
  induction hd generalizing s with
  | self => exact ⟨s, .self, h⟩
  | @member fields listed m hlisted hm _ ih =>
    obtain ⟨_, ⟨⟩, htells⟩ := check_eq_valid_iff.mp h
    cases hmembers : s.members? with
    | none =>
      -- A schema without members is read from a document that gives none.
      have hnull := (null_iff_of_nullable htells.members).mpr hmembers
      rw [hlisted] at hnull
      cases hnull
    | some members =>
      obtain ⟨_, hlisted', hread⟩ := htells.members_read hmembers
      obtain rfl := Json.obj.inj (hlisted.symm.trans hlisted')
      obtain ⟨m, hm, -, hcheck⟩ := exists_of_mem_forall₂ hread hm
      obtain ⟨n, hn, hcheck⟩ := ih hcheck
      exact ⟨n, .member hmembers hm hn, hcheck⟩
  | item hne _ ih =>
    obtain ⟨_, ⟨⟩, htells⟩ := check_eq_valid_iff.mp h
    cases hitem : s.item? with
    | none => exact absurd ((null_iff_of_nullable htells.item).mpr hitem) hne
    | some item =>
      obtain ⟨n, hn, hcheck⟩ := ih (htells.item_read hitem).2
      exact ⟨n, .item hitem hn, hcheck⟩

/-! ### Documents that can be read -/

/-- The fields of a node fit together: there are members exactly for an object, and an item for
nothing but an array. -/
structure Fits (fields : List (String × Json)) : Prop where
  type : ∃ type : TypeName, given "type" fields = .str type.name
  members : given "children" fields = .null ∨ ∃ listed, given "children" fields = .obj listed
  source : ∃ label, given "source" fields = .ofOption label
  members_iff : given "children" fields ≠ .null ↔ given "type" fields = .str "object"
  array_of_item : given "array_item_type" fields ≠ .null → given "type" fields = .str "array"

theorem Tells.fits {check : Json → Checked Schema} {fields : List (String × Json)} {s : Schema}
    (h : Tells check fields s) : Fits fields where
  type := ⟨s.typeField, by rw [h.type, name_typeField]⟩
  members := by
    cases hmembers : s.members? with
    | none => exact .inl ((null_iff_of_nullable h.members).mpr hmembers)
    | some members =>
      obtain ⟨listed, hlisted, -⟩ := h.members_read hmembers
      exact .inr ⟨listed, hlisted⟩
  source := ⟨s.source, h.source⟩
  members_iff := by
    rw [h.type, Json.str.injEq, ← members?_ne_none_iff]
    exact not_congr (null_iff_of_nullable h.members)
  array_of_item hne := by
    rw [h.type, array_of_item? (mt (null_iff_of_nullable h.item).mpr hne)]

/-- Fields that fit, and whose parts can be read, tell of a schema. -/
theorem Fits.exists_tells {check : Json → Checked Schema} {fields : List (String × Json)}
    (h : Fits fields) {members : Option (List (String × Schema))} {item : Option Schema}
    (hmembers : nullable (membersField check) (given "children" fields) = .valid members)
    (hitem : nullable check (given "array_item_type" fields) = .valid item) :
    ∃ s, Tells check fields s := by
  obtain ⟨type, htype⟩ := h.type
  obtain ⟨label, hsource⟩ := h.source
  have hnamed : ∀ other : TypeName, given "type" fields = .str other.name ↔ type = other := by
    intro other
    rw [htype, Json.str.injEq, TypeName.name_injective.eq_iff]
  have hobject : members ≠ none ↔ type = .object :=
    (not_congr (null_iff_of_nullable hmembers)).symm.trans
      (h.members_iff.trans (hnamed .object))
  have harray : item ≠ none → type = .array := fun hne =>
    (hnamed .array).mp (h.array_of_item (mt (null_iff_of_nullable hitem).mp hne))
  obtain ⟨s, hs⟩ := exists_fields_eq (f := ⟨type, members, item, given "example" fields, label⟩)
    hobject harray
  obtain ⟨rfl, rfl, rfl, hsample, rfl⟩ := Fields.mk.inj hs
  exact ⟨s, htype.trans (congrArg Json.str (name_typeField s)), hmembers, hitem, hsample.symm,
    hsource⟩

/-- A document in which the fields of every node fit is read as a schema. -/
theorem exists_check_of_fits {v : Json}
    (h : ∀ d, WrittenIn d v → ∃ fields, d = .obj fields ∧ Fits fields) :
    ∃ s, check v = .valid s := by
  -- What stands in the place of a node nests less deep, and all in it stands in the document too.
  induction hdepth : depth v using Nat.strongRecOn generalizing v with
  | ind n ih =>
    obtain ⟨fields, rfl, hfits⟩ := h v .self
    subst hdepth
    have hitem : ∃ item, nullable check (given "array_item_type" fields) = .valid item :=
      exists_nullable fun hne =>
        ih _ (depth_given_lt _ _) (fun d hd => h d (.item hne hd)) rfl
    have hmembers : ∃ members,
        nullable (membersField check) (given "children" fields) = .valid members := by
      refine exists_nullable fun hne => ?_
      obtain ⟨listed, hlisted⟩ := hfits.members.resolve_left hne
      have hinside : depth (.obj listed) < depth (.obj fields) :=
        hlisted ▸ depth_given_lt "children" fields
      rw [hlisted]
      exact exists_eachMember fun m hm =>
        ih _ (Nat.lt_trans (depth_lt_of_mem hm) hinside) (fun d hd => h d (.member hlisted hm hd)) rfl
    obtain ⟨item, hitem⟩ := hitem
    obtain ⟨members, hmembers⟩ := hmembers
    obtain ⟨s, hs⟩ := hfits.exists_tells hmembers hitem
    exact ⟨s, check_eq_valid_iff.mpr ⟨fields, rfl, hs⟩⟩

/-- A document is read as a schema exactly if the fields of every node in it fit together. -/
theorem exists_check_iff {v : Json} :
    (∃ s, check v = .valid s) ↔
      ∀ d, WrittenIn d v → ∃ fields, d = .obj fields ∧ Fits fields := by
  refine ⟨?_, exists_check_of_fits⟩
  rintro ⟨s, hs⟩ d hd
  obtain ⟨n, -, hcheck⟩ := hd.exists_node hs
  obtain ⟨fields, rfl, htells⟩ := check_eq_valid_iff.mp hcheck
  exact ⟨fields, rfl, htells.fits⟩

def misfitDocument : Json :=
  .obj [("type", .str "array"),
    ("array_item_type", .obj [("type", .str "string"), ("children", .obj [])])]

example : check misfitDocument = .invalid [⟨["array_item_type"], .shape⟩] := rfl

/-! ### Schemas and documents -/

/-- The schema of a value is read back from its document. A document is read exactly if the fields
of every node in it fit together, and every node of the schema that is read has members exactly if
it is an object, an item only if it is an array, and all that a document inside tells. -/
theorem schemas_survive_documents :
    (∀ (label : Option String) (value : Json),
      check (ofJson label value).toJson = .valid (ofJson label value)) ∧
    (∀ v, (∃ s, check v = .valid s) ↔
      ∀ d, WrittenIn d v → ∃ fields, d = .obj fields ∧ Fits fields) ∧
    ∀ v s, check v = .valid s → ∀ n, NodeOf n s →
      (n.members? ≠ none ↔ n.typeName = "object") ∧ (n.item? ≠ none → n.typeName = "array") ∧
      ∃ fields, WrittenIn (.obj fields) v ∧ Tells check fields n := by
  refine ⟨fun label value => check_toJson (ofJson label value), fun v => exists_check_iff, ?_⟩
  intro v s hs n hn
  obtain ⟨d, hd, hcheck⟩ := hn.exists_written hs
  obtain ⟨fields, rfl, htells⟩ := check_eq_valid_iff.mp hcheck
  exact ⟨members?_ne_none_iff n, array_of_item?, fields, hd, htells⟩

def taggedValue : Json :=
  .obj [("tags", .arr [.str "a", .int 1]), ("none", .obj [])]

/-- The document of a schema tells of the node two levels down, and a document that does not fit two
levels down is not read. -/
theorem schemas_survive_documents_tagged :
    check (ofJson (some "Data") taggedValue).toJson = .valid (ofJson (some "Data") taggedValue) ∧
    (∃ fields, WrittenIn (.obj fields) (ofJson (some "Data") taggedValue).toJson ∧
      Tells check fields (ofJson (some "Data") (.str "a"))) ∧
    ¬ ∃ s, check misfitDocument = .valid s := by
  obtain ⟨hrestored, hread, hnodes⟩ := schemas_survive_documents
  have hnode : NodeOf (ofJson (some "Data") (.str "a")) (ofJson (some "Data") taggedValue) :=
    .member rfl List.mem_cons_self (.item rfl .self)
  obtain ⟨-, -, htold⟩ := hnodes _ _ (hrestored (some "Data") taggedValue) _ hnode
  -- The string inside would have to be an object.
  refine ⟨hrestored _ _, htold, fun hmisfit => ?_⟩
  obtain ⟨_, ⟨⟩, hfits⟩ := (hread misfitDocument).mp hmisfit _ (.item nofun .self)
  have hobject := hfits.members_iff.mp nofun
  exact absurd (Json.str.inj hobject) (by decide)

end PolicyEditor.Schema
