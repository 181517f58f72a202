import PolicyEditor.Proofs.Json.Keys
import PolicyEditor.Proofs.Json.Nesting
import PolicyEditor.Proofs.Schema.Blocks
import PolicyEditor.Proofs.Schema.Declarations
import PolicyEditor.Proofs.Schema.Labels

/-!
Sources of the members of a document, key by key. Blocks mark keys one declaration after another, so
that of a key the last mark counts; what marks no key leaves its member with the label of the
document.
-/

namespace PolicyEditor.Schema

/-! ### Sources of keys -/

def mark (found : List Block) (sources : List (String × String)) (k : Nat × String) :
    List (String × String) :=
  match blockAt? found k.1 with
  | some b => Json.put k.2 b.name sources
  | none => sources

theorem keySources_eq_foldl (found : List Block) (keys : List (Nat × String)) :
    keySources found keys = keys.foldl (mark found) [] := rfl

/-- Keys that stand in no block mark nothing. -/
theorem find?_foldl_mark {found : List Block} {key : String} {keys : List (Nat × String)}
    (h : ∀ k ∈ keys, k.2 = key → blockAt? found k.1 = none) (sources : List (String × String)) :
    Json.find? key (keys.foldl (mark found) sources) = Json.find? key sources := by
  induction keys generalizing sources with
  | nil => rfl
  | cons k keys ih =>
    -- What a key in a block marks is another key.
    obtain ⟨hk, hkeys⟩ := List.forall_mem_cons.mp h
    rw [List.foldl_cons, ih hkeys, mark]
    split
    · rename_i b hb
      refine Json.find?_put_of_ne _ _ fun heq => ?_
      rw [hk heq.symm] at hb
      cases hb
    · rfl

theorem find?_keySources_last {found : List Block} {b : Block} {line : Nat} {key : String}
    {first later : List (Nat × String)} (hb : blockAt? found line = some b)
    (hlater : ∀ k ∈ later, k.2 = key → blockAt? found k.1 = none) :
    Json.find? key (keySources found (first ++ (line, key) :: later)) = some b.name := by
  rw [keySources_eq_foldl, List.foldl_append, List.foldl_cons, find?_foldl_mark hlater, mark, hb]
  exact Json.find?_put_self key b.name _

theorem find?_keySources_none {found : List Block} {key : String} {keys : List (Nat × String)}
    (h : ∀ k ∈ keys, k.2 = key → blockAt? found k.1 = none) :
    Json.find? key (keySources found keys) = none :=
  find?_foldl_mark h []

theorem keySources_nil (keys : List (Nat × String)) : keySources [] keys = [] := by
  rw [keySources_eq_foldl]
  induction keys with
  | nil => rfl
  | cons k keys ih => exact ih

/-! ### Members of documents -/

/-- The label of a member: its source, or else the label of the document. -/
def memberLabel (label : Option String) (sources : List (String × String)) (key : String) :
    Option String :=
  ((Json.find? key sources).map some).getD label

def labelledMembers (label : Option String) (sources : List (String × String))
    (members : List (String × Json)) : List (String × Schema) :=
  members.map fun m => (m.1, ofJson (memberLabel label sources m.1) m.2)

/-- The schema of a document that is an object, whether it has blocks or not. -/
theorem parse?_of_load? [Json.Nesting] {label : Option String} {text : String}
    {members : List (String × Json)} (h : Json.load? (strip text.toList) = some (.obj members)) :
    parse? label text = some (.object (labelledMembers label
      (keySources (blocks text.toList) (topLevelKeys (strip text.toList))) members)
      (.arr ((members.take objectSampleSize).map fun m => .str m.1)) label) := by
  simp only [parse?, h]
  split
  · rename_i hnone
    rw [hnone, keySources_nil]
    simp only [ofJson, membersOf_eq_map]
    rfl
  · rfl

theorem find?_labelledMembers (label : Option String) (sources : List (String × String))
    (key : String) (members : List (String × Json)) :
    Json.find? key (labelledMembers label sources members) =
      (Json.find? key members).map (ofJson (memberLabel label sources key)) :=
  Json.find?_map_keyed (fun k => ofJson (memberLabel label sources k)) key members

theorem map_fst_labelledMembers (label : Option String) (sources : List (String × String))
    (members : List (String × Json)) :
    (labelledMembers label sources members).map Prod.fst = members.map Prod.fst := by
  rw [labelledMembers, List.map_map]
  rfl

/-! ### Declarations -/

def declaredSources (text : List Char) (declared : List Declaration) : List (String × String) :=
  keySources (blocks text) (declared.map fun d => (d.line, d.key))

def declaredMembers (declared : List Declaration) : List (String × Json) :=
  (declared.map fun d => (d.key, d.value)).foldl (fun acc m => Json.put m.1 m.2 acc) []

theorem objectOf_declared (declared : List Declaration) :
    Json.objectOf (declared.map (·.toMember)) = .obj (declaredMembers declared) := by
  rw [Json.objectOf, Json.ofMembers, List.map_map]
  rfl

theorem Declares.parse?_eq [Json.Nesting] {text : String} {declared : List Declaration}
    (h : Declares text.toList declared) (hdeep : ¬ Json.TooDeep (strip text.toList))
    (label : Option String) :
    ∃ sample, parse? label text = some (.object (labelledMembers label
      (declaredSources text.toList declared) (declaredMembers declared)) sample label) := by
  have hdecodes := h.decodes
  rw [objectOf_declared] at hdecodes
  rw [parse?_of_load? (Json.load?_eq_some_iff.mpr ⟨hdecodes, hdeep⟩), h.topLevelKeys_eq]
  exact ⟨_, rfl⟩

/-- The value of a key is that of its last declaration. -/
theorem find?_declaredMembers {front back : List Declaration} {d : Declaration}
    (hlast : d.key ∉ back.map (·.key)) :
    Json.find? d.key (declaredMembers (front ++ d :: back)) = some d.value := by
  have hback : d.key ∉ (back.map fun d => (d.key, d.value)).map Prod.fst := by
    rw [List.map_map]
    exact hlast
  rw [declaredMembers, List.map_append, List.map_cons]
  exact Json.find?_foldl_put_append _ [] hback

/-- The schema of a member is that of the last value of its key, under one label. -/
theorem find?_labelled_declared {declared front back : List Declaration} {d : Declaration}
    (hsplit : declared = front ++ d :: back) (hlast : d.key ∉ back.map (·.key))
    (label : Option String) (sources : List (String × String)) :
    Json.find? d.key (labelledMembers label sources (declaredMembers declared)) =
      some (ofJson (memberLabel label sources d.key) d.value) := by
  rw [find?_labelledMembers, hsplit, find?_declaredMembers hlast]
  rfl

theorem exists_declaration_of_mem {declared : List Declaration} {m : String × Json}
    (h : m ∈ declaredMembers declared) : ∃ d ∈ declared, d.key = m.1 := by
  rcases Json.mem_foldl_put h with hm | hm
  · obtain ⟨d, hd, rfl⟩ := List.mem_map.mp hm
    exact ⟨d, hd, rfl⟩
  · cases hm

/-- Different keys make up as many members, in the same order. -/
theorem map_fst_declaredMembers {declared : List Declaration}
    (h : (declared.map (·.key)).Nodup) :
    (declaredMembers declared).map Prod.fst = declared.map (·.key) := by
  have hkeys : (declared.map fun d => (d.key, d.value)).map Prod.fst = declared.map (·.key) := by
    rw [List.map_map]
    rfl
  rw [declaredMembers, Json.foldl_put_of_nodup (by rw [List.nil_append, hkeys]; exact h),
    List.nil_append, hkeys]

section

variable {text : List Char} {declared : List Declaration}

/-- The last declaration in a block decides the label of its key. -/
theorem memberLabel_of_holds {first later : List Declaration} {e : Declaration} {b : Block}
    (label : Option String) (hsplit : declared = first ++ e :: later) (hb : b ∈ blocks text)
    (hholds : b.Holds e.line)
    (hlater : ∀ f ∈ later, f.key = e.key → ∀ c ∈ blocks text, ¬ c.Holds f.line) :
    memberLabel label (declaredSources text declared) e.key = some b.name := by
  have hunmarked : ∀ k ∈ later.map fun d => (d.line, d.key), k.2 = e.key →
      blockAt? (blocks text) k.1 = none := by
    intro k hk hkey
    obtain ⟨f, hf, rfl⟩ := List.mem_map.mp hk
    exact blockAt?_eq_none_iff.mpr (hlater f hf hkey)
  rw [memberLabel, declaredSources, hsplit, List.map_append, List.map_cons,
    find?_keySources_last (blockAt?_eq_some_iff.mpr ⟨hb, hholds⟩) hunmarked]
  rfl

/-- The last declaration of a key decides its label if it stands in a block. -/
theorem memberLabel_of_last {front back : List Declaration} {d : Declaration} {b : Block}
    (label : Option String) (hsplit : declared = front ++ d :: back)
    (hlast : d.key ∉ back.map (·.key)) (hb : b ∈ blocks text) (hholds : b.Holds d.line) :
    memberLabel label (declaredSources text declared) d.key = some b.name :=
  memberLabel_of_holds label hsplit hb hholds fun _ hf hkey =>
    absurd (hkey ▸ List.mem_map_of_mem hf) hlast

/-- A key that no block holds carries the label of the document. -/
theorem memberLabel_of_not_holds {key : String} (label : Option String)
    (h : ∀ e ∈ declared, e.key = key → ∀ b ∈ blocks text, ¬ b.Holds e.line) :
    memberLabel label (declaredSources text declared) key = label := by
  have hunmarked : ∀ k ∈ declared.map fun d => (d.line, d.key), k.2 = key →
      blockAt? (blocks text) k.1 = none := by
    intro k hk hkey
    obtain ⟨e, he, rfl⟩ := List.mem_map.mp hk
    exact blockAt?_eq_none_iff.mpr (h e he hkey)
  rw [memberLabel, declaredSources, find?_keySources_none hunmarked]
  rfl

/-- Where every line break before a key is a newline, the lines of its declaration and of the blocks
are counted alike. -/
theorem Declaration.StandsIn.encloses_iff {d : Declaration} (h : d.StandsIn text)
    (hplain : Text.plainBreaks d.before = true) (b : Block) :
    b.Encloses text d.before.length ↔ b.Holds d.line := by
  obtain ⟨-, after, rfl, -⟩ := h
  exact Block.encloses_iff (by decide) hplain b after

end

end PolicyEditor.Schema
