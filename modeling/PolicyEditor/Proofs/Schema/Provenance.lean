import PolicyEditor.Proofs.Schema.Sources

/-!
Where the members of a document come from. A member carries the name of the block that its key
stands in, on every node, or the label of the document. Of a key that is declared more than once the
value is that of the last declaration, and the source that of the last declaration in a block.
-/

namespace PolicyEditor.Schema

/-- A document that is an object without repeated keys has a member for each of its declarations.
Its nodes all carry the name of the block that holds the line of the key, as newlines count lines,
or the label of the document if there is none; and that is the block whose two lines the quote of
the key stands between, if every line break before it is a newline. -/
theorem sources_follow_blocks [Json.Nesting] {label : Option String} {text : String}
    {members : List (String × Json)}
    (hload : Json.load? (strip text.toList) = some (.obj members)) :
    (∃ declared, Declares text.toList declared) ∧
    ∀ declared, Declares text.toList declared → (declared.map (·.key)).Nodup →
      ∃ children sample, parse? label text = some (.object children sample label) ∧
        children.map Prod.fst = declared.map (·.key) ∧
        ∀ d ∈ declared, ∃ node, Json.find? d.key children = some node ∧
          node.unlabelled = ofJson none d.value ∧
          (∀ b ∈ blocks text.toList, b.Holds d.line → Labelled (some b.name) node) ∧
          ((∀ b ∈ blocks text.toList, ¬ b.Holds d.line) → Labelled label node) ∧
          (Text.plainBreaks d.before = true →
            (∀ b ∈ blocks text.toList, b.Encloses text.toList d.before.length →
              Labelled (some b.name) node) ∧
            ((∀ b ∈ blocks text.toList, ¬ b.Encloses text.toList d.before.length) →
              Labelled label node)) := by
  obtain ⟨hdecode, hdeep⟩ := Json.load?_eq_some_iff.mp hload
  refine ⟨exists_declares hdecode, fun declared hdeclares hnodup => ?_⟩
  obtain ⟨sample, hparse⟩ := hdeclares.parse?_eq hdeep label
  refine ⟨_, sample, hparse,
    (map_fst_labelledMembers _ _ _).trans (map_fst_declaredMembers hnodup), fun d hd => ?_⟩
  obtain ⟨front, back, hsplit⟩ := List.append_of_mem hd
  have hlast : d.key ∉ back.map (·.key) := by
    rw [hsplit, List.map_append, List.map_cons, List.nodup_append, List.nodup_cons] at hnodup
    exact hnodup.2.1.1
  refine ⟨_, find?_labelled_declared hsplit hlast _ _, unlabelled_ofJson _ _, ?_⟩
  have hholds : ∀ b ∈ blocks text.toList, b.Holds d.line → Labelled (some b.name)
      (ofJson (memberLabel label (declaredSources text.toList declared) d.key) d.value) := by
    intro b hb hline
    rw [memberLabel_of_last label hsplit hlast hb hline]
    exact labelled_ofJson _ _
  have hnone : (∀ b ∈ blocks text.toList, ¬ b.Holds d.line) → Labelled label
      (ofJson (memberLabel label (declaredSources text.toList declared) d.key) d.value) := by
    intro h
    -- No other declaration has the key, so that none of the key stands in a block.
    have hother : ∀ e ∈ declared, e.key = d.key → ∀ b ∈ blocks text.toList, ¬ b.Holds e.line := by
      intro e he hkey
      rw [List.inj_on_of_nodup_map hnodup he hd hkey]
      exact h
    rw [memberLabel_of_not_holds label hother]
    exact labelled_ofJson _ _
  refine ⟨hholds, hnone, fun hplain => ?_⟩
  have hencloses := (hdeclares.places d hd).encloses_iff hplain
  exact ⟨fun b hb henc => hholds b hb ((hencloses b).mp henc),
    fun h => hnone fun b hb hline => h b hb ((hencloses b).mpr hline)⟩

def markedDocument : String :=
  "\x7b\n// ---- b ----\n\"c\": 2\n// ----------\n\x7d"

def returnedDocument : String :=
  "\r\x7b\n// ---- b ----\n\"c\": 2\n// ----------\n\x7d"

def markedMember : Json.Member :=
  ⟨"\"c\": 2\n\n\x7d".toList, "c", .int 2⟩

def markedDeclaration : Declaration :=
  ⟨markedMember, "\x7b\n// ---- b ----\n".toList⟩

def returnedDeclaration : Declaration :=
  ⟨markedMember, "\r\x7b\n// ---- b ----\n".toList⟩

theorem markedMember_read (n : Nat) :
    Json.ReadsObject (Json.ReadsValue (n + 1)) "\x7b\n\n\"c\": 2\n\n\x7d".toList
      [markedMember] [] := by
  have hkey : Json.StandsFor ['c'] ['c'] := by
    intro _ _ rounds hrounds
    obtain ⟨rounds, rfl⟩ : ∃ n, rounds = n + 2 := ⟨rounds - 2, (Nat.sub_add_cancel hrounds).symm⟩
    rfl
  have hraw : Json.StringText ['c'] := .plain (by decide) (by decide) (by decide) .nil
  have hmember : Json.ReadsMember (Json.ReadsValue (n + 1)) "\"c\": 2\n\n\x7d".toList
      markedMember "\n\n\x7d".toList :=
    ⟨['c'], ['c'], ": 2\n\n\x7d".toList, " 2\n\n\x7d".toList, hraw, hkey, rfl, rfl, rfl, rfl, rfl⟩
  exact ⟨"\n\n\"c\": 2\n\n\x7d".toList, rfl, .inr (.last hmember rfl)⟩

section

open scoped Json.UsualNesting

theorem markedDocument_loads :
    Json.load? (strip markedDocument.toList) = some (.obj [("c", .int 2)]) := by
  rfl

theorem markedDocument_declares : Declares markedDocument.toList
    [markedDeclaration] where
  decodes := rfl
  reads := ⟨[], markedMember_read _, rfl⟩
  places := List.forall_mem_singleton.mpr ⟨fun _ => rfl, _, rfl, rfl⟩

/-- The quote of the key stands between the two lines of the block, which labels the member. -/
theorem sources_follow_blocks_around_member :
    ∃ children sample node,
      parse? (some "Data") markedDocument = some (.object children sample (some "Data")) ∧
      Json.find? "c" children = some node ∧ node.unlabelled = .scalar .number (.int 2) none ∧
      Labelled (some "b") node := by
  obtain ⟨children, sample, hparse, -, hmembers⟩ := (sources_follow_blocks
    markedDocument_loads).2 _ markedDocument_declares (List.nodup_singleton _)
  obtain ⟨node, hnode, hvalue, -, -, hplaces⟩ := hmembers _ List.mem_cons_self
  have hblock : (⟨"b", 2, 4⟩ : Block) ∈ blocks markedDocument.toList := by decide +kernel
  have hencloses : (⟨"b", 2, 4⟩ : Block).Encloses markedDocument.toList
      markedDeclaration.before.length := by
    unfold Block.Encloses
    decide +kernel
  exact ⟨children, sample, node, hparse, hnode, hvalue,
    (hplaces (by decide +kernel)).1 _ hblock hencloses⟩

theorem returnedDocument_loads :
    Json.load? (strip returnedDocument.toList) = some (.obj [("c", .int 2)]) := by
  rfl

theorem returnedDocument_declares : Declares returnedDocument.toList
    [returnedDeclaration] where
  decodes := rfl
  reads := ⟨[], markedMember_read _, rfl⟩
  places := List.forall_mem_singleton.mpr ⟨fun _ => rfl, _, rfl, rfl⟩

/-- A carriage return alone ends a line for blocks and none for keys: a member between the lines of
a block is left with the label of the document. -/
theorem member_after_carriage_return_unmarked :
    ∃ d b children sample node, Declares returnedDocument.toList [d] ∧
      b ∈ blocks returnedDocument.toList ∧
      b.Encloses returnedDocument.toList d.before.length ∧
      parse? (some "Data") returnedDocument = some (.object children sample (some "Data")) ∧
      Json.find? d.key children = some node ∧ Labelled (some "Data") node ∧
      ¬ Labelled (some b.name) node := by
  have hblocks : blocks returnedDocument.toList = [⟨"b", 3, 5⟩] := by decide +kernel
  obtain ⟨-, hdeep⟩ := Json.load?_eq_some_iff.mp returnedDocument_loads
  obtain ⟨sample, hparse⟩ := returnedDocument_declares.parse?_eq hdeep (some "Data")
  have hline : returnedDeclaration.line = 3 := by decide +kernel
  have hnone : ∀ e ∈ [returnedDeclaration], e.key = returnedDeclaration.key →
      ∀ b ∈ blocks returnedDocument.toList, ¬ b.Holds e.line := by
    rw [hblocks]
    simp only [List.forall_mem_singleton, hline, Block.Holds]
    decide
  have hlabel := memberLabel_of_not_holds (some "Data") hnone
  refine ⟨returnedDeclaration, ⟨"b", 3, 5⟩, _, sample, ofJson (some "Data") (.int 2),
    returnedDocument_declares, hblocks ▸ List.mem_cons_self, ?_, hparse, ?_, labelled_ofJson _ _,
    ?_⟩
  · unfold Block.Encloses
    decide +kernel
  · exact (find?_labelled_declared (List.nil_append _).symm List.not_mem_nil _ _).trans
      (hlabel ▸ rfl)
  · exact fun h => absurd h.source_eq (by decide)

end

/-- Of a key that is declared more than once a document shows the value of the last declaration. Its
nodes all carry the name of the block that holds the last one of these declarations that a block
holds, or the label of the document if no block holds any of them. -/
theorem last_held_declaration_labels [Json.Nesting] {label : Option String} {text : String}
    {members : List (String × Json)}
    (hload : Json.load? (strip text.toList) = some (.obj members)) :
    (∃ declared, Declares text.toList declared) ∧
    ∀ declared, Declares text.toList declared →
      ∃ children sample, parse? label text = some (.object children sample label) ∧
        (∀ key ∈ children.map Prod.fst, key ∈ declared.map (·.key)) ∧
        ∀ front d back, declared = front ++ d :: back → d.key ∉ back.map (·.key) →
          ∃ node, Json.find? d.key children = some node ∧ node.unlabelled = ofJson none d.value ∧
            (∀ b ∈ blocks text.toList, b.Holds d.line → Labelled (some b.name) node) ∧
            (∀ first e later, declared = first ++ e :: later → e.key = d.key →
              (∀ f ∈ later, f.key = d.key → ∀ c ∈ blocks text.toList, ¬ c.Holds f.line) →
              ∀ b ∈ blocks text.toList, b.Holds e.line → Labelled (some b.name) node) ∧
            ((∀ e ∈ declared, e.key = d.key → ∀ b ∈ blocks text.toList, ¬ b.Holds e.line) →
              Labelled label node) := by
  obtain ⟨hdecode, hdeep⟩ := Json.load?_eq_some_iff.mp hload
  refine ⟨exists_declares hdecode, fun declared hdeclares => ?_⟩
  obtain ⟨sample, hparse⟩ := hdeclares.parse?_eq hdeep label
  refine ⟨_, sample, hparse, fun key hkey => ?_, fun front d back hsplit hlast => ?_⟩
  · rw [map_fst_labelledMembers] at hkey
    obtain ⟨m, hm, rfl⟩ := List.mem_map.mp hkey
    obtain ⟨d, hd, hdkey⟩ := exists_declaration_of_mem hm
    exact List.mem_map.mpr ⟨d, hd, hdkey⟩
  refine ⟨_, find?_labelled_declared hsplit hlast _ _, unlabelled_ofJson _ _, ?_, ?_, ?_⟩
  · intro b hb hline
    rw [memberLabel_of_last label hsplit hlast hb hline]
    exact labelled_ofJson _ _
  · intro first e later hsplit' hkey hlater b hb hline
    rw [← hkey, memberLabel_of_holds label hsplit' hb hline fun f hf hfkey =>
      hlater f hf (hfkey.trans hkey)]
    exact labelled_ofJson _ _
  · intro h
    rw [memberLabel_of_not_holds label h]
    exact labelled_ofJson _ _

def repeatedDocument : String :=
  "\x7b\n// ---- b ----\n\"a\": 1,\n// ----------\n\"a\": 2\n\x7d"

theorem repeatedDocument_blocks : blocks repeatedDocument.toList = [⟨"b", 2, 4⟩] := by
  decide +kernel

section

open scoped Json.UsualNesting

theorem repeatedDocument_loads :
    Json.load? (strip repeatedDocument.toList) = some (.obj [("a", .int 2)]) := by
  rfl

theorem repeatedDocument_declared {declared : List Declaration}
    (h : Declares repeatedDocument.toList declared) :
    ∃ first last, declared = [first, last] ∧ first.line = 3 ∧ first.key = "a" ∧ last.line = 5 ∧
      last.key = "a" ∧ last.value = .int 2 := by
  have hkeys : declared.map (fun d => (d.line, d.key)) = [(3, "a"), (5, "a")] :=
    h.topLevelKeys_eq.symm.trans (by decide +kernel)
  obtain ⟨first, _, rfl, hfirst, hrest⟩ := List.map_eq_cons_iff.mp hkeys
  obtain ⟨last, _, rfl, hlast, hnil⟩ := List.map_eq_cons_iff.mp hrest
  obtain rfl := List.map_eq_nil_iff.mp hnil
  obtain ⟨hline, hkey⟩ := Prod.mk.inj hfirst
  obtain ⟨hline', hkey'⟩ := Prod.mk.inj hlast
  refine ⟨first, last, rfl, hline, hkey, hline', hkey', ?_⟩
  have hmembers := h.decodes
  obtain ⟨hdecode, -⟩ := Json.load?_eq_some_iff.mp repeatedDocument_loads
  rw [objectOf_declared, hdecode, Option.some.injEq, Json.obj.injEq] at hmembers
  have hfound : Json.find? last.key (declaredMembers ([first] ++ [last])) = some last.value :=
    find?_declaredMembers List.not_mem_nil
  rw [List.singleton_append, ← hmembers, hkey'] at hfound
  exact (Option.some.inj hfound).symm

/-- The member of a key that is declared twice shows its last value, under the block that holds the
declaration before. -/
theorem last_held_declaration_labels_repeated :
    ∃ children sample node,
      parse? (some "Data") repeatedDocument = some (.object children sample (some "Data")) ∧
      Json.find? "a" children = some node ∧ node.unlabelled = .scalar .number (.int 2) none ∧
      Labelled (some "b") node := by
  obtain ⟨⟨declared, hdeclares⟩, hall⟩ := last_held_declaration_labels repeatedDocument_loads
  obtain ⟨children, sample, hparse, -, hmembers⟩ := hall declared hdeclares
  obtain ⟨first, last, rfl, hfirst, hkey, hlast, hkey', hvalue⟩ :=
    repeatedDocument_declared hdeclares
  obtain ⟨node, hnode, hshown, -, hheld, -⟩ := hmembers [first] last [] rfl List.not_mem_nil
  rw [hkey'] at hnode
  rw [hvalue] at hshown
  have hlater : ∀ f ∈ [last], f.key = last.key →
      ∀ c ∈ blocks repeatedDocument.toList, ¬ c.Holds f.line := by
    rw [repeatedDocument_blocks]
    simp only [List.forall_mem_singleton, hlast, Block.Holds]
    decide
  refine ⟨children, sample, node, hparse, hnode, hshown,
    hheld [] first [last] rfl (hkey.trans hkey'.symm) hlater ⟨"b", 2, 4⟩ ?_ ?_⟩
  · rw [repeatedDocument_blocks]
    exact List.mem_cons_self
  · rw [hfirst]
    exact ⟨by decide, by decide⟩

/-- The last declaration of a key stands in no block, and its value carries the name of one. -/
theorem overwritten_member_keeps_block :
    ∃ front last children sample node, Declares repeatedDocument.toList (front ++ [last]) ∧
      (∀ b ∈ blocks repeatedDocument.toList, ¬ b.Holds last.line) ∧
      parse? (some "Data") repeatedDocument = some (.object children sample (some "Data")) ∧
      Json.find? last.key children = some node ∧ node.unlabelled = ofJson none last.value ∧
      Labelled (some "b") node ∧ ¬ Labelled (some "Data") node := by
  obtain ⟨hdecode, hdeep⟩ := Json.load?_eq_some_iff.mp repeatedDocument_loads
  obtain ⟨declared, hdeclares⟩ := exists_declares hdecode
  obtain ⟨first, last, rfl, hfirst, hkey, hlast, hkey', -⟩ := repeatedDocument_declared hdeclares
  obtain ⟨sample, hparse⟩ := hdeclares.parse?_eq hdeep (some "Data")
  have hnone : ∀ b ∈ blocks repeatedDocument.toList, ¬ b.Holds last.line := by
    rw [repeatedDocument_blocks]
    simp only [List.forall_mem_singleton, hlast, Block.Holds]
    decide
  have hlabel : memberLabel (some "Data") (declaredSources repeatedDocument.toList [first, last])
      last.key = some "b" := by
    rw [hkey', ← hkey]
    refine memberLabel_of_holds (b := ⟨"b", 2, 4⟩) (some "Data") (List.nil_append _).symm ?_ ?_
      (List.forall_mem_singleton.mpr fun _ => hnone)
    · rw [repeatedDocument_blocks]
      exact List.mem_cons_self
    · rw [hfirst]
      exact ⟨by decide, by decide⟩
  refine ⟨[first], last, _, sample, ofJson (some "b") last.value, hdeclares, hnone, hparse, ?_,
    unlabelled_ofJson _ _, labelled_ofJson _ _, fun h => ?_⟩
  · rw [find?_labelled_declared List.singleton_append.symm List.not_mem_nil, hlabel]
  · have hsource := (labelled_ofJson (some "b") last.value).source_eq
    rw [h.source_eq] at hsource
    exact absurd hsource (by decide)

end

end PolicyEditor.Schema
