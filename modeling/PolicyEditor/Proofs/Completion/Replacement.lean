import PolicyEditor.Proofs.Completion.Members
import PolicyEditor.Proofs.Completion.Opaque
import PolicyEditor.Proofs.Path.Faults
import PolicyEditor.Proofs.Path.Trimmed

/-!
What completion replaces. Whether a path, a root or a word is completed, the candidates replace the
name characters right before the cursor, and every candidate goes on from them.
-/

namespace PolicyEditor.Completion

open PolicyEditor.Hover (length_lineBefore_le lineBefore_suffix)
open PolicyEditor.Path (splitLastDot?_eq_some_iff splitLastDot?_of_notMem endingWith?_split
  strip_of_isTypedPath)
open PolicyEditor.Schema (Context Root)
open PolicyEditor.Text (isNameStart isNameChar)

/-- A candidate goes on from what has been typed: it is a root that has a document, and at least three
letters of one of the roots have been typed, or its label, without the marker that leads through an
array, begins with what has been typed. -/
def GoesOn (context : Context) (typed : List Char) (item : Item) : Prop :=
  (∃ root : Root, item.label = root.name ∧ (context.root root).isSome = true ∧
    3 ≤ typed.length ∧ ∃ begun : Root, typed <+: begun.name.toList) ∨
  ∃ name : String, item.label = (if item.inArray then "[_]." else "") ++ name ∧
    typed <+: name.toList

def Continues (context : Context) (typed : List Char) (items : List Item) : Prop :=
  (∀ c ∈ typed, isNameChar c = true) ∧ ∀ item ∈ items, GoesOn context typed item

/-! ### Roots and members -/

theorem isNameChar_of_prefix_root {s : List Char} {root : Root} (h : s <+: root.name.toList) :
    ∀ c ∈ s, isNameChar c = true := by
  have hall : root.name.toList.all isNameChar = true := by
    cases root <;> decide
  exact fun c hc => List.all_eq_true.mp hall c (h.subset hc)

theorem rootItems_continues {context : Context} {word : List Char}
    (hne : rootItems context word ≠ []) : Continues context word (rootItems context word) := by
  unfold rootItems at hne ⊢
  split at hne
  · exact absurd rfl hne
  · rename_i hword
    rw [if_neg hword]
    rw [Bool.or_eq_true, not_or, decide_eq_true_eq, Nat.not_lt, Bool.not_eq_true',
      Bool.not_eq_false, List.any_eq_true] at hword
    obtain ⟨hlong, begun, -, hbegun⟩ := hword
    rw [List.isPrefixOf_iff_prefix] at hbegun
    refine ⟨isNameChar_of_prefix_root hbegun, fun item hitem => ?_⟩
    obtain ⟨root, hroot, rfl⟩ := List.mem_map.mp hitem
    exact .inl ⟨root, rfl, (List.mem_filter.mp hroot).2, hlong, begun, hbegun⟩

theorem itemsBelow_goesOn {typed : List Char} {node : Schema} {item : Item}
    (h : item ∈ itemsBelow typed node) (context : Context) : GoesOn context typed item := by
  unfold itemsBelow at h
  split at h
  · obtain ⟨m, -, hstart, rfl⟩ := mem_memberItems h
    exact .inr ⟨m.1, rfl, hstart⟩
  · obtain ⟨m, -, hstart, rfl⟩ := mem_memberItems h
    exact .inr ⟨m.1, rfl, hstart⟩
  · cases h

/-! ### The part of a path that is replaced -/

theorem replacedPart_of_notMem {typed : List Char} (h : '.' ∉ typed) :
    replacedPart typed = typed := by
  rw [replacedPart, splitLastDot?_of_notMem h]

theorem replacedPart_of_split {typed parent tail : List Char}
    (h : splitLastDot? typed = some (parent, tail)) : replacedPart typed = tail := by
  rw [replacedPart, h]

theorem replacedPart_suffix (typed : List Char) : replacedPart typed <:+ typed := by
  unfold replacedPart
  split
  · rename_i parent tail hsplit
    obtain ⟨rfl, -⟩ := splitLastDot?_eq_some_iff.mp hsplit
    exact ⟨parent ++ ['.'], by rw [List.append_assoc, List.singleton_append]⟩
  · exact List.suffix_refl _

/-- A path is completed from what it is split into, and that is what is replaced. -/
theorem pathItems_continues {context : Context} {typed : List Char} {items : List Item}
    (htyped : isTypedPath typed = true) (hitems : pathItems context typed = .ok items)
    (hne : items ≠ []) : Continues context (replacedPart typed) items := by
  simp only [pathItems, strip_of_isTypedPath htyped] at hitems
  split at hitems
  · rename_i hplain
    rw [Bool.and_eq_true, Bool.not_eq_true', List.contains_eq_mem, decide_eq_false_iff_not] at hplain
    cases hitems
    rw [replacedPart_of_notMem hplain.1]
    exact rootItems_continues hne
  · split at hitems
    · cases hitems
      exact absurd rfl hne
    · rename_i parent tail hsplit
      rw [replacedPart_of_split hsplit]
      split at hitems
      · rename_i htail
        obtain ⟨found, -, hitems⟩ := Json.ok_of_bind_ok hitems
        cases hitems
        refine ⟨?_, fun item hitem => ?_⟩
        · rcases Bool.or_eq_true_iff.mp htail with hnil | hname
          · rw [List.isEmpty_iff.mp hnil]
            exact List.forall_mem_nil _
          · exact isNameChar_of_isName hname
        · cases found with
          | none => cases hitem
          | some node => exact itemsBelow_goesOn hitem context
      · cases hitems
        exact absurd rfl hne

/-! ### At the cursor -/

def ReplacesEnd (context : Context) (before : List Char) (offset : Nat) (found : Result) : Prop :=
  ∃ typed, typed <:+ before ∧ Continues context typed found.items ∧
    found.start + typed.length = offset

theorem replacesEnd_replacing {context : Context} {before typed : List Char} {offset : Nat}
    {items : List Item} (hoffset : before.length ≤ offset) (hend : typed <:+ before)
    (hitems : Continues context typed items) :
    ReplacesEnd context before offset (replacing offset typed items) := by
  have hlength := hend.length_le
  exact ⟨typed, hend, hitems, Nat.sub_add_cancel (by omega)⟩

section

variable {context : Context} {before : List Char} {offset : Nat} {found : Result}

theorem completePath?_replaces (hoffset : before.length ≤ offset)
    (h : completePath? context before offset = .ok (some found)) :
    ReplacesEnd context before offset found := by
  unfold completePath? at h
  split at h
  · cases h
  · rename_i typed htyped
    obtain ⟨items, hitems, h⟩ := Json.ok_of_bind_ok h
    split at h
    · cases h
    · rename_i hne
      cases h
      obtain ⟨hend, hpath⟩ := endingWith?_split htyped
      exact replacesEnd_replacing hoffset ((replacedPart_suffix typed).trans hend)
        (pathItems_continues hpath hitems hne)

theorem completeRoot?_replaces (hoffset : before.length ≤ offset)
    (h : completeRoot? context before offset = some found) :
    ReplacesEnd context before offset found := by
  obtain ⟨typed, htyped, h⟩ := Option.bind_eq_some_iff.mp h
  split at h
  · cases h
  · rename_i hne
    cases h
    exact replacesEnd_replacing hoffset (endingWith?_split htyped).1 (rootItems_continues hne)

theorem typedWord_suffix (before : List Char) : typedWord before <:+ before := by
  have hname : (before.reverse.takeWhile isNameChar).reverse <:+ before := by
    rw [← List.reverse_prefix, List.reverse_reverse]
    exact List.takeWhile_prefix _
  exact (List.dropWhile_suffix _).trans hname

theorem isNameChar_of_mem_typedWord {c : Char} (h : c ∈ typedWord before) :
    isNameChar c = true := by
  have hmem := List.mem_reverse.mp ((List.dropWhile_suffix _).subset h)
  exact List.all_eq_true.mp List.all_takeWhile c hmem

theorem completeWord?_replaces (hoffset : before.length ≤ offset)
    (h : completeWord? before offset = some found) :
    ReplacesEnd context before offset found := by
  have hbare : ∀ item ∈ wordItems, item.inArray = false := by decide
  unfold completeWord? at h
  split at h
  · cases h
  · cases h
    refine replacesEnd_replacing hoffset (typedWord_suffix before)
      ⟨fun c => isNameChar_of_mem_typedWord, fun item hitem => ?_⟩
    obtain ⟨hitem, hstart⟩ := List.mem_filter.mp hitem
    refine .inr ⟨item.label, ?_, List.isPrefixOf_iff_prefix.mp hstart⟩
    rw [hbare item hitem, if_neg Bool.false_ne_true, String.empty_append]

theorem completeLine_replaces (hoffset : before.length ≤ offset)
    (h : completeLine context before offset = .ok (some found)) :
    ReplacesEnd context before offset found := by
  obtain ⟨path, hpath, h⟩ := Json.ok_of_bind_ok h
  split at h
  · cases h
    exact completePath?_replaces hoffset hpath
  · split at h
    · rename_i hroot
      cases h
      exact completeRoot?_replaces hoffset hroot
    · exact completeWord?_replaces hoffset (Except.ok.inj h)

end

/-- Whatever completion offers replaces a text of letters, digits and underscores that ends at the
cursor, and every candidate goes on from this text. -/
theorem complete_replaces_typed {tree : Tree} {source : List Char} {offset : Int}
    {context : Context} {found : Result}
    (h : complete tree source offset context = .ok (some found)) :
    ∃ front typed back, source = front ++ typed ++ back ∧ found.start = front.length ∧
      clamp source.length offset = front.length + typed.length ∧
      (∀ c ∈ typed, isNameChar c = true) ∧ ∀ item ∈ found.items, GoesOn context typed item := by
  rw [complete_eq] at h
  generalize hcursor : clamp source.length offset = cursor at h ⊢
  have hle : cursor ≤ source.length := hcursor ▸ Nat.min_le_right _ _
  have hlength := List.length_take_of_le hle
  split at h
  · cases h
  · obtain ⟨typed, hend, ⟨hname, hitems⟩, hstart⟩ :=
      completeLine_replaces (length_lineBefore_le source cursor) h
    obtain ⟨front, hfront⟩ := hend.trans (lineBefore_suffix source cursor)
    rw [← hfront, List.length_append] at hlength
    refine ⟨front, typed, source.drop cursor, ?_, by omega, hlength.symm, hname, hitems⟩
    rw [hfront, List.take_append_drop]

section

open scoped Json.UsualNesting

/-- Behind an array, what is offered for half a name goes on from these letters behind the marker. -/
theorem complete_replaces_typed_in_array :
    ∃ item, complete (Grammar.parse "input.users.na") "input.users.na".toList 14
        (.ofTexts (some guestsDocument) none) = .ok (some ⟨12, [item]⟩) ∧ item.inArray = true ∧
      ∃ front typed back, "input.users.na".toList = front ++ typed ++ back ∧ front.length = 12 ∧
        typed.length = 2 ∧ GoesOn (.ofTexts (some guestsDocument) none) typed item := by
  have hfound : complete (Grammar.parse "input.users.na") "input.users.na".toList 14
      (.ofTexts (some guestsDocument) none) =
        .ok (some ⟨12, [⟨"[_].name", .property, some "string", some "\"bob\"", true⟩]⟩) := by
    decide +kernel
  obtain ⟨front, typed, back, hsource, hstart, hcursor, -, hitems⟩ :=
    complete_replaces_typed hfound
  have hfront : front.length = 12 := hstart.symm
  have htyped : 14 = front.length + typed.length := hcursor
  exact ⟨_, hfound, rfl, front, typed, back, hsource, hfront, by omega,
    hitems _ List.mem_cons_self⟩

end

end PolicyEditor.Completion
