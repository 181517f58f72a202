import PolicyEditor.Proofs.Json.Keys
import PolicyEditor.Proofs.Validation.Checked
import PolicyEditor.Schema.Validation

/-!
The check that reads schemas from documents. It is one step over the checks of the documents inside,
however deep these nest, and it gives a schema exactly if every field says what the schema has there.
-/

namespace PolicyEditor.Schema

open PolicyEditor.Validation

/-! ### Documents inside nest less deep -/

theorem depth_le_of_mem {members : List (String × Json)} {m : String × Json} (h : m ∈ members) :
    depth m.2 ≤ depthOfMembers members := by
  induction members with
  | nil => cases h
  | cons first rest ih =>
    rw [depthOfMembers.eq_def]
    rcases List.mem_cons.mp h with rfl | hrest
    · exact Nat.le_max_left _ _
    · exact Nat.le_trans (ih hrest) (Nat.le_max_right _ _)

theorem depth_lt_of_mem {members : List (String × Json)} {m : String × Json} (h : m ∈ members) :
    depth m.2 < depth (.obj members) := by
  rw [depth]
  exact Nat.lt_succ_of_le (depth_le_of_mem h)

theorem depth_given_lt (field : String) (fields : List (String × Json)) :
    depth (given field fields) < depth (.obj fields) := by
  unfold given
  cases hfind : Json.find? field fields with
  | none => exact Nat.succ_pos _
  | some v => exact depth_lt_of_mem (Json.mem_of_find? hfind)

/-! ### The check does not run out of rounds -/

section

variable {check check' : Json → Checked Schema}

theorem eachMember_congr {members : List (String × Json)}
    (h : ∀ m ∈ members, check m.2 = check' m.2) :
    eachMember check members = eachMember check' members := by
  induction members with
  | nil => rfl
  | cons m rest ih =>
    simp only [eachMember, h m List.mem_cons_self,
      ih fun m hm => h m (List.mem_cons_of_mem _ hm)]

theorem membersField_congr {v : Json} (h : ∀ d, depth d < depth v → check d = check' d) :
    membersField check v = membersField check' v := by
  cases v with
  | obj members => exact eachMember_congr fun m hm => h m.2 (depth_lt_of_mem hm)
  | _ => rfl

/-- A step looks only at documents that nest less deep than its own. -/
theorem checkStep_congr {v : Json} (h : ∀ d, depth d < depth v → check d = check' d) :
    checkStep check v = checkStep check' v := by
  cases v with
  | obj fields =>
    have hmembers : nullable (membersField check) (given "children" fields) =
        nullable (membersField check') (given "children" fields) :=
      nullable_congr (membersField_congr fun d hd =>
        h d (Nat.lt_trans hd (depth_given_lt "children" fields)))
    have hitem : nullable check (given "array_item_type" fields) =
        nullable check' (given "array_item_type" fields) :=
      nullable_congr (h _ (depth_given_lt "array_item_type" fields))
    simp only [checkStep, record, optional_nullable_eq_under, hmembers, hitem]
  | _ => rfl

end

theorem checkUpTo_eq {n m : Nat} {v : Json} (hn : depth v < n) (hm : depth v < m) :
    checkUpTo n v = checkUpTo m v := by
  induction n generalizing m v with
  | zero => cases hn
  | succ n ih =>
    -- Both have a round for this document, and enough of them left for what is inside.
    obtain ⟨m, rfl⟩ := Nat.exists_eq_succ_of_ne_zero (Nat.ne_zero_of_lt hm)
    apply checkStep_congr
    intro d hd
    exact ih (by omega) (by omega)

/-- A document is checked by one step over the check itself. -/
theorem check_eq_checkStep (v : Json) : check v = checkStep check v :=
  checkStep_congr fun _ hd => checkUpTo_eq hd (Nat.lt_succ_self _)

/-! ### What a document says -/

def TypeName.name : TypeName → String
  | .scalar type => type.name
  | .array => "array"
  | .object => "object"

def typeField : Schema → TypeName
  | .scalar type _ _ => .scalar type
  | .array _ _ _ => .array
  | .object _ _ _ => .object

def fields (s : Schema) : Fields :=
  ⟨s.typeField, s.members?, s.item?, s.sample, s.source⟩

theorem name_typeField (s : Schema) : s.typeField.name = s.typeName := by
  cases s <;> rfl

theorem typeNames_eq_valid_iff {v : Json} {type : TypeName} :
    literal typeNames v = .valid type ↔ v = .str type.name := by
  rw [literal_eq_valid_iff]
  constructor
  · rintro ⟨name, rfl, hfind⟩
    have hmem := Json.mem_of_find? hfind
    simp only [typeNames, List.mem_cons, Prod.mk.injEq, List.not_mem_nil, or_false] at hmem
    rcases hmem with ⟨rfl, rfl⟩ | ⟨rfl, rfl⟩ | ⟨rfl, rfl⟩ | ⟨rfl, rfl⟩ | ⟨rfl, rfl⟩ | ⟨rfl, rfl⟩ <;>
      rfl
  · rintro rfl
    refine ⟨type.name, rfl, ?_⟩
    cases type with
    | scalar type => cases type <;> rfl
    | array | object => rfl

theorem TypeName.name_injective : Function.Injective TypeName.name := by
  intro type other h
  have htype : literal typeNames (.str type.name) = .valid type := typeNames_eq_valid_iff.mpr rfl
  have hother := typeNames_eq_valid_iff.mpr (congrArg Json.str h)
  exact Checked.valid.inj (htype.symm.trans hother)

/-- Fields make a schema exactly if they are its own. -/
theorem ofFields_eq_valid_iff {f : Fields} {s : Schema} :
    ofFields f = .valid s ↔ f = s.fields := by
  constructor
  · obtain ⟨type, members, item, sample, source⟩ := f
    -- Of the ways to give members and an item one suits each type.
    cases type <;> cases members <;> cases item <;> intro h <;> cases h <;> rfl
  · rintro rfl
    cases s <;> rfl

/-- Fields are those of a schema if they have members exactly for an object, and an item for nothing
but an array. -/
theorem exists_fields_eq {f : Fields} (hmembers : f.members ≠ none ↔ f.type = .object)
    (hitem : f.item ≠ none → f.type = .array) : ∃ s : Schema, s.fields = f := by
  obtain ⟨type, members, item, sample, source⟩ := f
  cases type with
  | scalar type =>
    obtain rfl : members = none := by simpa using hmembers
    obtain rfl : item = none := by simpa using hitem
    exact ⟨.scalar type sample source, rfl⟩
  | array =>
    obtain rfl : members = none := by simpa using hmembers
    exact ⟨.array item sample source, rfl⟩
  | object =>
    obtain ⟨members, rfl⟩ := Option.ne_none_iff_exists'.mp (hmembers.mpr rfl)
    obtain rfl : item = none := by simpa using hitem
    exact ⟨.object members sample source, rfl⟩

/-- The fields of a document say what a schema has, its parts as they are read by a check. -/
structure Tells (check : Json → Checked Schema) (fields : List (String × Json)) (s : Schema) :
    Prop where
  type : given "type" fields = .str s.typeName
  members : nullable (membersField check) (given "children" fields) = .valid s.members?
  item : nullable check (given "array_item_type" fields) = .valid s.item?
  sample : given "example" fields = s.sample
  source : given "source" fields = .ofOption s.source

theorem checkStep_obj_eq_valid_iff {check : Json → Checked Schema}
    {fields : List (String × Json)} {s : Schema} :
    checkStep check (.obj fields) = .valid s ↔ Tells check fields s := by
  have hrequired : ∀ type, required "type" (literal typeNames) fields = .valid type ↔
      given "type" fields = .str type.name := fun type =>
    (required_eq_valid_iff (flawed_ne_valid _ _)).trans typeNames_eq_valid_iff
  simp only [checkStep, record, Checked.andThen_eq_valid_iff, Checked.and_eq_valid_iff,
    ofFields_eq_valid_iff, hrequired, optional_nullable_eq_valid_iff,
    optional_anything_eq_valid_iff, nullable_string_eq_valid_iff]
  constructor
  · rintro ⟨_, ⟨_, source, ⟨_, sample, ⟨_, item, ⟨_, members, ⟨_, type, ⟨⟩, htype, rfl⟩, hmembers,
      rfl⟩, hitem, rfl⟩, hsample, rfl⟩, hsource, rfl⟩, hfields⟩
    obtain ⟨rfl, rfl, rfl, rfl, rfl⟩ := Fields.mk.inj hfields
    exact ⟨htype.trans (congrArg Json.str (name_typeField s)), hmembers, hitem, hsample, hsource⟩
  · rintro ⟨htype, hmembers, hitem, hsample, hsource⟩
    refine ⟨s.fields, ⟨_, _, ⟨_, _, ⟨_, _, ⟨_, _, ⟨_, s.typeField, rfl, ?_, rfl⟩, hmembers, rfl⟩,
      hitem, rfl⟩, hsample, rfl⟩, hsource, rfl⟩, rfl⟩
    rw [htype, name_typeField]

/-- A document is read as a schema exactly if its fields tell of this schema. -/
theorem check_eq_valid_iff {v : Json} {s : Schema} :
    check v = .valid s ↔ ∃ fields, v = .obj fields ∧ Tells check fields s := by
  rw [check_eq_checkStep]
  cases v with
  | obj fields => simp only [checkStep_obj_eq_valid_iff, Json.obj.injEq, exists_eq_left']
  | _ => simp [checkStep, record, flawed_ne_valid]

/-- Members are read one by one, each under its key. -/
theorem eachMember_eq_valid_iff {check : Json → Checked Schema} {listed : List (String × Json)}
    {members : List (String × Schema)} :
    eachMember check listed = .valid members ↔
      List.Forall₂ (fun d m => d.1 = m.1 ∧ check d.2 = .valid m.2) listed members := by
  induction listed generalizing members with
  | nil => cases members <;> simp [eachMember]
  | cons d rest ih =>
    simp only [eachMember, Checked.and_eq_valid_iff, Checked.map_eq_valid_iff,
      Checked.under_eq_valid_iff, ih, List.forall₂_cons_left_iff]
    constructor
    · rintro ⟨_, members, ⟨s, hs, rfl⟩, hrest, rfl⟩
      exact ⟨(d.1, s), members, ⟨rfl, hs⟩, hrest, rfl⟩
    · rintro ⟨m, members, ⟨hkey, hs⟩, hrest, rfl⟩
      exact ⟨_, members, ⟨m.2, hs, rfl⟩, hrest, by rw [hkey]⟩

theorem exists_eachMember {check : Json → Checked Schema} {listed : List (String × Json)}
    (h : ∀ d ∈ listed, ∃ s, check d.2 = .valid s) :
    ∃ members, eachMember check listed = .valid members := by
  induction listed with
  | nil => exact ⟨[], rfl⟩
  | cons d rest ih =>
    obtain ⟨s, hs⟩ := h d List.mem_cons_self
    obtain ⟨members, hrest⟩ := ih fun d hd => h d (List.mem_cons_of_mem _ hd)
    refine ⟨(d.1, s) :: members, ?_⟩
    rw [eachMember, hs, hrest]
    rfl

theorem membersField_eq_valid_iff {check : Json → Checked Schema} {v : Json}
    {members : List (String × Schema)} :
    membersField check v = .valid members ↔
      ∃ listed, v = .obj listed ∧
        List.Forall₂ (fun d m => d.1 = m.1 ∧ check d.2 = .valid m.2) listed members := by
  cases v <;> simp [membersField, flawed_ne_valid, eachMember_eq_valid_iff]

end PolicyEditor.Schema
