import Mathlib.Data.List.DropRight
import PolicyEditor.Proofs.Completion.Members
import PolicyEditor.Proofs.Path.Faults
import PolicyEditor.Proofs.Path.Trimmed

/-!
Which members completion offers behind a path: those of the value that the path leads to, in their
order in the document, or of the first element if that value is an array.
-/

namespace PolicyEditor.Schema

/-! ### What labels do not show -/

theorem describe_unlabelled : (s : Schema) → s.unlabelled.describe = s.describe
  | .scalar _ _ _ => rfl
  | .object _ _ _ => rfl
  | .array none _ _ => rfl
  | .array (some item) _ _ => by
    simp only [unlabelled, unlabelledItem, describe, describe_unlabelled item]

theorem exampleText_unlabelled (s : Schema) : s.unlabelled.exampleText = s.exampleText := by
  cases s with
  | scalar type sample source => cases type <;> cases sample <;> rfl
  | array item sample source => cases sample <;> rfl
  | object members sample source =>
    simp only [unlabelled, exampleText, unlabelledMembers_eq_map, List.length_map]

def value? [Json.Nesting] (text : Option String) : Option Json :=
  text.bind fun text => Json.load? (strip text.toList)

def Root.text? (input data : Option String) : Root → Option String
  | .input => input
  | .data => data

theorem root_ofTexts [Json.Nesting] (input data : Option String) (root : Root) :
    (Context.ofTexts input data).root root = root.schema? (root.text? input data) := by
  cases root <;> rfl

/-- The schema of a document is that of its value, labels aside. -/
theorem map_unlabelled_schema? [Json.Nesting] (root : Root) (text : Option String) :
    (root.schema? text).map unlabelled = (value? text).map (ofJson none) := by
  cases text with
  | none => rfl
  | some text =>
    simp only [Root.schema?, value?, Option.bind_some]
    cases hload : Json.load? (strip text.toList) with
    | none => simp only [parse?, hload, Option.map_none]
    | some v =>
      obtain ⟨node, hnode⟩ : ∃ node, parse? (some root.label) text = some node := by
        simp only [parse?, hload]
        split <;> exact ⟨_, rfl⟩
      simp only [hnode, Option.map_some, unlabelled_of_parse? hload hnode]

end PolicyEditor.Schema

namespace PolicyEditor.Completion

open PolicyEditor.Path (descend splitLastDot?_append)
open PolicyEditor.Schema (Context Root ofJson unlabelled)
open PolicyEditor.Text (isNameChar stripStart stripEnd strip)

def valueAt? [Json.Nesting] (input data : Option String) (p : Path) : Option Json :=
  (Schema.value? (p.root.text? input data)).bind (descend p.segments)

/-- A candidate for every member whose key begins with what has been typed, in the order of the
members. It tells the type and the example of the member's value. -/
def candidates (inArray : Bool) (typed : List Char) (members : List (String × Json)) : List Item :=
  (members.filter fun m => typed <+: m.1.toList).map fun m =>
    { label := (if inArray then "[_]." else "") ++ m.1
      category := .property
      detail := some (ofJson none m.2).describe
      info := (ofJson none m.2).exampleText
      inArray }

/-- The candidates behind a value: the members of an object, or those of the first element of an
array. -/
def offered (typed : List Char) : Json → List Item
  | .obj members => candidates false typed members
  | .arr (.obj members :: _) => candidates true typed members
  | _ => []

/-! ### Values and schemas -/

theorem memberItem_unlabelled (inArray : Bool) (key : String) (member : Schema) :
    memberItem inArray key member.unlabelled = memberItem inArray key member := by
  simp only [memberItem, Schema.describe_unlabelled, Schema.exampleText_unlabelled]

theorem memberItems_unlabelled (inArray : Bool) (typed : List Char)
    (members : List (String × Schema)) :
    memberItems inArray typed (Schema.unlabelledMembers members) =
      memberItems inArray typed members := by
  simp only [memberItems, Schema.unlabelledMembers_eq_map, List.filter_map, List.map_map,
    Function.comp_def, memberItem_unlabelled]

theorem itemsBelow_unlabelled (typed : List Char) (node : Schema) :
    itemsBelow typed node.unlabelled = itemsBelow typed node := by
  cases node with
  | scalar => rfl
  | object members sample source => exact memberItems_unlabelled false typed members
  | array item sample source =>
    cases item with
    | none => rfl
    | some element =>
      cases element with
      | object members sample source => exact memberItems_unlabelled true typed members
      | _ => rfl

theorem memberItems_membersOf (inArray : Bool) (typed : List Char)
    (members : List (String × Json)) :
    memberItems inArray typed (Schema.membersOf none members) =
      candidates inArray typed members := by
  have hprefix : ∀ key : String, typed.isPrefixOf key.toList = decide (typed <+: key.toList) :=
    fun key => Bool.eq_iff_iff.mpr (List.isPrefixOf_iff_prefix.trans decide_eq_true_iff.symm)
  simp only [memberItems, candidates, Schema.membersOf_eq_map, List.filter_map, List.map_map,
    Function.comp_def, hprefix]
  rfl

theorem itemsBelow_ofJson (typed : List Char) (v : Json) :
    itemsBelow typed (ofJson none v) = offered typed v := by
  cases v with
  | obj members => exact memberItems_membersOf false typed members
  | arr elements =>
    cases elements with
    | nil => rfl
    | cons first rest =>
      cases first with
      | obj members => exact memberItems_membersOf true typed members
      | _ => rfl
  | _ => rfl

theorem map_unlabelled_lookup [Json.Nesting] (input data : Option String) (p : Path) :
    (Path.lookup (.ofTexts input data) p).map unlabelled =
      (valueAt? input data p).map (ofJson none) := by
  have hroot := Schema.map_unlabelled_schema? p.root (p.root.text? input data)
  rw [Path.lookup, Schema.root_ofTexts, valueAt?]
  cases hnode : p.root.schema? (p.root.text? input data) with
  | none =>
    rw [hnode, Option.map_none, eq_comm, Option.map_eq_none_iff] at hroot
    rw [hroot, Path.follow_none]
    rfl
  | some node =>
    rw [hnode, Option.map_some, eq_comm, Option.map_eq_some_iff] at hroot
    obtain ⟨v, hv, heq⟩ := hroot
    rw [hv, ← Path.follow_unlabelled, ← heq, Path.follow_ofJson]
    rfl

theorem items_of_lookup [Json.Nesting] (input data : Option String) (p : Path) (typed : List Char) :
    ((Path.lookup (.ofTexts input data) p).map (itemsBelow typed)).getD [] =
      (valueAt? input data p).elim [] (offered typed) := by
  have hnode := map_unlabelled_lookup input data p
  cases hlookup : Path.lookup (.ofTexts input data) p with
  | none =>
    rw [hlookup, Option.map_none, eq_comm, Option.map_eq_none_iff] at hnode
    rw [hnode]
    rfl
  | some node =>
    rw [hlookup, Option.map_some, eq_comm, Option.map_eq_some_iff] at hnode
    obtain ⟨v, hv, heq⟩ := hnode
    rw [hv]
    simp only [Option.map_some, Option.getD_some, Option.elim_some]
    rw [← itemsBelow_unlabelled, ← heq, itemsBelow_ofJson]

/-! ### No member twice -/

theorem nodup_candidates {members : List (String × Json)} (h : (members.map Prod.fst).Nodup)
    (inArray : Bool) (typed : List Char) :
    ((candidates inArray typed members).map Item.label).Nodup := by
  have hsublist := (List.filter_sublist (l := members)
    (p := fun m => decide (typed <+: m.1.toList))).map Prod.fst
  have hkeys := h.sublist hsublist
  -- All labels carry the same marker, so that they differ as the keys do.
  have hinjective : Function.Injective fun key : String =>
      (if inArray then "[_]." else "") ++ key := by
    intro a b hab
    have hlists := congrArg String.toList hab
    rw [String.toList_append, String.toList_append] at hlists
    exact String.toList_inj.mp (List.append_cancel_left hlists)
  have hlabels := hkeys.map hinjective
  rw [List.map_map] at hlabels
  rw [candidates, List.map_map]
  exact hlabels

theorem nodup_offered {v : Json} (h : v.KeysApart) (typed : List Char) :
    ((offered typed v).map Item.label).Nodup := by
  unfold offered
  split
  · exact nodup_candidates h.1 false typed
  · exact nodup_candidates h.1.1 true typed
  · exact List.nodup_nil

theorem keysApart_valueAt? [Json.Nesting] {input data : Option String} {p : Path} {v : Json}
    (h : valueAt? input data p = some v) : v.KeysApart := by
  obtain ⟨document, hdocument, hv⟩ := Option.bind_eq_some_iff.mp h
  obtain ⟨text, -, hload⟩ := Option.bind_eq_some_iff.mp hdocument
  obtain ⟨hdecode, -⟩ := Json.load?_eq_some_iff.mp hload
  exact keysApart_descend (Json.keysApart_of_decode? hdecode) hv

/-! ### Behind a path -/

/-- A path and a name or nothing after its last dot. -/
theorem pathItems_dot {context : Context} {s typed : List Char} {p : Path}
    (hparse : Path.parse s = .ok (some p)) (htyped : typed = [] ∨ isName typed = true) :
    pathItems context (s ++ '.' :: typed) =
      .ok (((Path.lookup context p).map (itemsBelow typed)).getD []) := by
  have hname : ∀ c ∈ typed, isNameChar c = true := by
    rcases htyped with rfl | h
    · nofun
    · exact isNameChar_of_isName h
  have hne : stripStart s ≠ [] := by
    obtain ⟨rest, hroot, -⟩ := Path.parse_cases hparse
    intro hnil
    rw [hnil] at hroot
    cases hroot
  have hstrip : strip (s ++ '.' :: typed) = stripStart s ++ '.' :: typed := by
    rw [strip, Path.stripStart_append _ hne, Path.stripEnd_eq_self_iff]
    exact fun h => Path.not_endsBlank_dot hname (h.of_cut (List.cons_ne_nil _ _))
  have hdot : '.' ∉ typed := fun hmem => absurd (hname _ hmem) (by decide)
  -- The blanks that are dropped before the path do not count when it is read.
  have hparent : Path.parse (stripStart s) = .ok (some p) := by
    rw [← hparse, Path.parse, Path.parse, stripStart, stripStart, List.dropWhile_idempotent]
  have hcontains : (stripStart s ++ '.' :: typed).contains '.' = true :=
    List.contains_iff_mem.mpr (List.mem_append_right _ List.mem_cons_self)
  have htail : (typed.isEmpty || isName typed) = true := by
    rw [Bool.or_eq_true, List.isEmpty_iff]
    exact htyped
  simp only [pathItems, hstrip, hcontains, splitLastDot?_append hdot, htail,
    Path.resolve_of_parse hparent, Bool.not_true, Bool.false_and, Bool.false_eq_true, if_false,
    if_true]
  rfl

/-- Behind a path that can be read, and a dot and the beginning of a name or nothing, completion
offers the members of what the path leads to in the documents, no one twice. -/
theorem pathItems_offered [Json.Nesting] {input data : Option String} {s typed : List Char}
    {p : Path} (hparse : Path.parse s = .ok (some p)) (htyped : typed = [] ∨ isName typed = true) :
    ∃ items, pathItems (.ofTexts input data) (s ++ '.' :: typed) = .ok items ∧
      items = (valueAt? input data p).elim [] (offered typed) ∧
      (items.map Item.label).Nodup := by
  refine ⟨_, pathItems_dot hparse htyped, items_of_lookup input data p typed, ?_⟩
  rw [items_of_lookup]
  cases hv : valueAt? input data p with
  | none => exact List.nodup_nil
  | some v => exact nodup_offered (keysApart_valueAt? hv) typed

section

open scoped Json.UsualNesting

def dottedKeyDocument : String := "\x7b\"a.b\": [\x7b\"x]\": 1, \"y\": 2, \"xy\": null\x7d]\x7d"

/-- Behind the quoted key the members of the first element are offered that go on from a letter. -/
theorem pathItems_offered_dotted_key :
    ∃ items, pathItems (.ofTexts (some dottedKeyDocument) none)
        ("input[\"a.b\"]".toList ++ '.' :: ['x']) = .ok items ∧
      items = [⟨"[_].x]", .property, some "number", some "1", true⟩,
        ⟨"[_].xy", .property, some "null", some "null", true⟩] ∧
      (items.map Item.label).Nodup := by
  have hparse : Path.parse "input[\"a.b\"]".toList =
      .ok (some ⟨.input, [.name "a.b"]⟩) := by decide +kernel
  have hname : isName ['x'] = true := by decide
  obtain ⟨items, hitems, heq, hnodup⟩ := pathItems_offered hparse (.inr hname)
  exact ⟨items, hitems, heq.trans (by decide +kernel), hnodup⟩

end

end PolicyEditor.Completion
