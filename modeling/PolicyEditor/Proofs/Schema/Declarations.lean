import PolicyEditor.Proofs.Schema.Comments
import PolicyEditor.Proofs.Schema.TopLevelKeys

/-!
Declarations: the members of the outermost object of a document with comments, each with its place
in the text. Every document that is an object has its declarations, and they are the keys that the
scanner of keys finds.
-/

namespace PolicyEditor.Schema

/-- A member of the outermost object and the text with comments that stands before its key. -/
structure Declaration extends Json.Member where
  before : List Char

def Declaration.line (d : Declaration) : Nat :=
  1 + d.before.count '\n'

/-- A declaration stands in a text: the quote that opens its key stands outside comments, and what
follows is without its comments what the decoder reads. -/
def Declaration.StandsIn (text : List Char) (d : Declaration) : Prop :=
  OpensString d.before ∧
    ∃ after, text = d.before ++ '"' :: after ∧ d.place = '"' :: stripFrom .string after

/-- The members of the object that a text is read as, in order and with repetitions. -/
structure Declares (text : List Char) (declared : List Declaration) : Prop where
  decodes : Json.decode? (strip text) = some (Json.objectOf (declared.map (·.toMember)))
  reads : ∃ rest, Json.ReadsObject (Json.ReadsValue (strip text).length)
    (Json.skipSpace (strip text)) (declared.map (·.toMember)) rest ∧ Json.skipSpace rest = []
  places : ∀ d ∈ declared, d.StandsIn text

/-- Members that stand in a text are the members of declarations. -/
theorem exists_declarations {text : List Char} {ms : List Json.Member}
    (h : ∀ m ∈ ms, ∃ before, Declaration.StandsIn text ⟨m, before⟩) :
    ∃ declared : List Declaration, declared.map (·.toMember) = ms ∧
      ∀ d ∈ declared, d.StandsIn text := by
  induction ms with
  | nil => exact ⟨[], rfl, fun _ hd => nomatch hd⟩
  | cons m ms ih =>
    obtain ⟨⟨before, hbefore⟩, hrest⟩ := List.forall_mem_cons.mp h
    obtain ⟨declared, rfl, hdeclared⟩ := ih hrest
    exact ⟨⟨m, before⟩ :: declared, rfl, List.forall_mem_cons.mpr ⟨hbefore, hdeclared⟩⟩

/-- A document that is an object declares its members. -/
theorem exists_declares {text : List Char} {members : List (String × Json)}
    (h : Json.decode? (strip text) = some (.obj members)) :
    ∃ declared, Declares text declared := by
  obtain ⟨ms, rest, hreads, hend, hobject⟩ := Json.readsObject_of_decode? h
  have hplaces : ∀ m ∈ ms, ∃ before, Declaration.StandsIn text ⟨m, before⟩ := by
    intro m hm
    -- Lexemes lead up to the key in the text without comments, and so its quote is found again.
    obtain ⟨kept, inside, hkept, hsplit, hplace⟩ :=
      (hreads.mono (Json.valueUpTo_reads Json.takesValue_closed)).lexemes hm
    obtain ⟨space, hspace, hstripped⟩ := Json.skipSpace_split (strip text)
    rw [hsplit, ← List.append_assoc] at hstripped
    obtain ⟨before, after, htext, rfl, hopens⟩ :=
      opensString_of_lexemes ((Json.lexemes_of_all hspace 0).append hkept) hstripped
    exact ⟨before, hopens, after, htext, hplace⟩
  obtain ⟨declared, rfl, hdeclared⟩ := exists_declarations hplaces
  exact ⟨declared, by rw [h, hobject], ⟨rest, hreads, hend⟩, hdeclared⟩

/-- The line of a key in the text without comments is that of its declaration. -/
theorem Declaration.StandsIn.line_eq {text : List Char} {d : Declaration} (h : d.StandsIn text) :
    1 + (strip text).count '\n' - d.place.count '\n' = d.line := by
  obtain ⟨-, after, rfl, hplace⟩ := h
  have hafter : d.place.count '\n' = after.count '\n' := by
    rw [hplace, List.count_cons_of_ne (by decide), count_newline_stripFrom]
  rw [strip, count_newline_stripFrom, hafter, List.count_append, List.count_cons_of_ne (by decide),
    ← Nat.add_assoc, Nat.add_sub_cancel, Declaration.line]

/-- The scanner of keys finds the declarations. -/
theorem Declares.topLevelKeys_eq {text : List Char} {declared : List Declaration}
    (h : Declares text declared) :
    topLevelKeys (strip text) = declared.map fun d => (d.line, d.key) := by
  obtain ⟨rest, hreads, hend⟩ := h.reads
  rw [topLevelKeys_of_readsObject (hreads.mono (Json.valueUpTo_reads Json.takesValue_closed)) hend,
    List.map_map]
  refine List.map_congr_left fun d hd => ?_
  rw [Function.comp_apply, (h.places d hd).line_eq]

end PolicyEditor.Schema
