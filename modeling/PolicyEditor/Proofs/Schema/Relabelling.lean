import PolicyEditor.Proofs.Schema.Sources

/-!
What the marker blocks of a document change in its schema. They change labels and nothing else; the
root keeps the label of the document, and below it each member carries a single label throughout.
-/

namespace PolicyEditor.Schema

/-! ### Names that keys are marked with -/

theorem exists_block_of_mem_mark {found : List Block} {sources : List (String × String)}
    {k : Nat × String} {s : String × String} (h : s ∈ mark found sources k) :
    s ∈ sources ∨ ∃ b ∈ found, s.2 = b.name := by
  unfold mark at h
  split at h
  · rename_i b hb
    rcases Json.mem_put h with rfl | hs
    · exact .inr ⟨b, List.mem_of_find?_eq_some hb, rfl⟩
    · exact .inl hs
  · exact .inl h

/-- Whatever marks a key is the name of a block. -/
theorem exists_block_of_mem_keySources {found : List Block} {keys : List (Nat × String)}
    {s : String × String} (h : s ∈ keySources found keys) : ∃ b ∈ found, s.2 = b.name := by
  rw [keySources_eq_foldl] at h
  -- No key is marked before the first one.
  suffices hall : ∀ sources, s ∈ keys.foldl (mark found) sources →
      s ∈ sources ∨ ∃ b ∈ found, s.2 = b.name from (hall [] h).resolve_left List.not_mem_nil
  clear h
  intro sources h
  induction keys generalizing sources with
  | nil => exact .inl h
  | cons k keys ih => exact (ih _ h).elim exists_block_of_mem_mark .inr

theorem memberLabel_cases (label : Option String) (found : List Block)
    (keys : List (Nat × String)) (key : String) :
    memberLabel label (keySources found keys) key = label ∨
      ∃ b ∈ found, memberLabel label (keySources found keys) key = some b.name := by
  cases hfound : Json.find? key (keySources found keys) with
  | none =>
    rw [memberLabel, hfound]
    exact .inl rfl
  | some name =>
    obtain ⟨b, hb, hname⟩ := exists_block_of_mem_keySources (Json.mem_of_find? hfound)
    rw [memberLabel, hfound]
    exact .inr ⟨b, hb, congrArg some hname⟩

/-! ### Documents -/

/-- The schema of a document that is no object, whether it has blocks or not. -/
theorem parse?_of_load?_of_ne [Json.Nesting] {label : Option String} {text : String} {v : Json}
    (hload : Json.load? (strip text.toList) = some v) (hv : ∀ members, v ≠ .obj members) :
    parse? label text = some (ofJson label v) := by
  have hplain : ∀ sources, ofDocument label sources v = ofJson label v := by
    intro sources
    cases v with
    | obj members => exact absurd rfl (hv members)
    | _ => rfl
  simp only [parse?, hload, hplain]
  split <;> rfl

/-- Every document that can be read has a schema, and apart from its labels it is the schema of the
document's value. The root carries the label of the document, as does all of a document that is no
object; of an object the nodes of each member carry one label, which is that of the document or the
name of one of its blocks. -/
theorem parse?_changes_labels_only [Json.Nesting] {label : Option String} {text : String} {v : Json}
    (hload : Json.load? (strip text.toList) = some v) :
    ∃ node, parse? label text = some node ∧
      node.unlabelled = (ofJson label v).unlabelled ∧ node.source = label ∧
      (node.members? = none → Labelled label node) ∧
      ∀ children, node.members? = some children → ∀ m ∈ children, ∃ own, Labelled own m.2 ∧
        (own = label ∨ ∃ b ∈ blocks text.toList, own = some b.name) := by
  cases v with
  | obj members =>
    have hparse := @parse?_of_load? _ label _ _ hload
    refine ⟨_, hparse, ?_, rfl, nofun, ?_⟩
    · rw [unlabelled_of_parse? hload hparse, unlabelled_ofJson]
    · -- A member is built anew with its own label, whatever blocks its value had inside.
      rintro _ ⟨⟩ m hm
      obtain ⟨m, -, rfl⟩ := List.mem_map.mp hm
      exact ⟨_, labelled_ofJson _ _, memberLabel_cases _ _ _ _⟩
  | _ =>
    exact ⟨_, parse?_of_load?_of_ne hload nofun, rfl, (labelled_ofJson label _).source_eq,
      fun _ => labelled_ofJson label _, nofun⟩

section

open scoped Json.UsualNesting

def groupedDocument : String :=
  "\x7b\"a\": 1,\n// ---- b ----\n\"c\": [\x7b\"d\": 2\x7d, 3],\n// ----------\n\"a\": [[]]\x7d"

theorem parse?_changes_labels_only_grouped :
    Json.load? (strip groupedDocument.toList) =
      some (.obj [("a", .arr [.arr []]), ("c", .arr [.obj [("d", .int 2)], .int 3])]) ∧
    ∃ node, parse? (some "Data") groupedDocument = some node ∧
      node.unlabelled = (ofJson (some "Data") (.obj [("a", .arr [.arr []]),
        ("c", .arr [.obj [("d", .int 2)], .int 3])])).unlabelled ∧
      node.source = some "Data" ∧
      ∀ children, node.members? = some children → ∀ m ∈ children, ∃ own, Labelled own m.2 ∧
        (own = some "Data" ∨ own = some "b") := by
  have hload : Json.load? (strip groupedDocument.toList) =
      some (.obj [("a", .arr [.arr []]), ("c", .arr [.obj [("d", .int 2)], .int 3])]) := by rfl
  have hblocks : blocks groupedDocument.toList = [⟨"b", 2, 4⟩] := by decide +kernel
  obtain ⟨node, hparse, hsame, hroot, -, hmembers⟩ :=
    parse?_changes_labels_only hload
  refine ⟨hload, node, hparse, hsame, hroot, fun children hchildren m hm => ?_⟩
  obtain ⟨own, hown, hlabel⟩ := hmembers children hchildren m hm
  rw [hblocks] at hlabel
  simp only [List.mem_singleton, exists_eq_left] at hlabel
  exact ⟨own, hown, hlabel⟩

end

end PolicyEditor.Schema
