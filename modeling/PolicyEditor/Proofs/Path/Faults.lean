import Mathlib.Data.List.TakeWhile
import PolicyEditor.Grammar.Script
import PolicyEditor.Proofs.Path.LinePaths

/-!
Where a path in a policy makes completion or hovering fail: at a quoted key that no document could
hold, and nowhere else.
-/

namespace PolicyEditor.Path

open PolicyEditor.Schema (Context)
open PolicyEditor.Completion (splitLastDot? isName pathItems endingWith? typedPath? lineBefore
  completePath?)
open PolicyEditor.Hover (lineBefore_suffix mem_paths_lineAround)

theorem lookup_raises_iff (context : Context) (s : List Char) :
    (∃ e, Hover.lookup context s = .error e) ↔ MeetsUnreadable s := by
  rw [← resolve_raises_iff context]
  exact raises_map_iff fun (node : Option Schema) => node.map fun node =>
    (⟨String.ofList (Text.strip s), node.describe, node.exampleText, node.source⟩ : Hover.Info)

/-! ### Completion -/

theorem splitLastDot?_append {tail : List Char} (h : '.' ∉ tail) (parent : List Char) :
    splitLastDot? (parent ++ '.' :: tail) = some (parent, tail) := by
  have hpass : ∀ c ∈ tail.reverse, decide (c ≠ '.') = true := fun c hc =>
    decide_eq_true fun heq => h (heq ▸ List.mem_reverse.mp hc)
  have hdot : ('.' :: parent.reverse).takeWhile (· ≠ '.') = [] :=
    List.takeWhile_cons_of_neg (by decide)
  have htake : (parent ++ '.' :: tail).reverse.takeWhile (· ≠ '.') = tail.reverse := by
    rw [List.reverse_append, List.reverse_cons, List.append_assoc, List.singleton_append,
      List.takeWhile_append_of_pos hpass, hdot, List.append_nil]
  have hlength : (parent ++ '.' :: tail).length - tail.length - 1 = parent.length := by
    simp only [List.length_append, List.length_cons]
    omega
  simp only [splitLastDot?, htake, List.reverse_reverse, hlength, List.take_left]
  exact if_pos (by simp only [List.length_append, List.length_cons]; omega)

theorem splitLastDot?_of_notMem {s : List Char} (h : '.' ∉ s) : splitLastDot? s = none := by
  have hall : s.reverse.takeWhile (· ≠ '.') = s.reverse :=
    List.takeWhile_eq_self_iff.mpr fun c hc => decide_eq_true fun heq =>
      h (heq ▸ List.mem_reverse.mp hc)
  simp only [splitLastDot?, hall, List.reverse_reverse, Nat.lt_irrefl, if_false]

/-- A text is split at its last dot. -/
theorem splitLastDot?_eq_some_iff {s parent tail : List Char} :
    splitLastDot? s = some (parent, tail) ↔ s = parent ++ '.' :: tail ∧ '.' ∉ tail := by
  constructor
  · intro h
    by_cases hdot : '.' ∈ s
    · obtain ⟨last, front, hs, hlast⟩ := List.eq_append_cons_of_mem (List.mem_reverse.mpr hdot)
      have hsplit : s = front.reverse ++ '.' :: last.reverse := by
        rw [← List.reverse_inj, hs]
        simp
      have htail : '.' ∉ last.reverse := mt List.mem_reverse.mp hlast
      rw [hsplit, splitLastDot?_append htail] at h
      cases h
      exact ⟨hsplit, htail⟩
    · rw [splitLastDot?_of_notMem hdot] at h
      cases h
  · rintro ⟨rfl, htail⟩
    exact splitLastDot?_append htail parent

theorem contains_of_splitLastDot? {s parent tail : List Char}
    (h : splitLastDot? s = some (parent, tail)) : s.contains '.' = true := by
  obtain ⟨rfl, -⟩ := splitLastDot?_eq_some_iff.mp h
  exact List.contains_iff_mem.mpr (List.mem_append_right _ List.mem_cons_self)

theorem parent_of_splitLastDot? {s parent tail : List Char}
    (h : splitLastDot? s = some (parent, tail)) : parent <+: s := by
  obtain ⟨rfl, -⟩ := splitLastDot?_eq_some_iff.mp h
  exact List.prefix_append _ _

/-- Completion fails on the part before the last dot, and only if a name or nothing follows it. -/
theorem pathItems_raises_iff (context : Context) (typed : List Char) :
    (∃ e, pathItems context typed = .error e) ↔
      ∃ parent tail, splitLastDot? (Text.strip typed) = some (parent, tail) ∧
        (tail = [] ∨ isName tail = true) ∧ MeetsUnreadable parent := by
  unfold pathItems
  cases hsplit : splitLastDot? (Text.strip typed) with
  | none =>
    simp only [reduceCtorEq, false_and, exists_false, iff_false]
    rintro ⟨e, h⟩
    split at h
    · cases h
    · rw [hsplit] at h
      cases h
  | some found =>
    obtain ⟨parent, tail⟩ := found
    have hdot := contains_of_splitLastDot? hsplit
    simp only [hdot, hsplit, Bool.not_true, Bool.false_and, Bool.false_eq_true, if_false,
      Option.some.injEq, Prod.mk.injEq, Bool.or_eq_true, List.isEmpty_iff]
    by_cases htail : tail = [] ∨ isName tail = true
    · rw [if_pos htail, raises_map_iff, resolve_raises_iff]
      constructor
      · exact fun h => ⟨parent, tail, ⟨rfl, rfl⟩, htail, h⟩
      · rintro ⟨_, _, ⟨rfl, rfl⟩, -, h⟩
        exact h
    · rw [if_neg htail]
      simp only [reduceCtorEq, exists_false, false_iff]
      rintro ⟨_, _, ⟨rfl, rfl⟩, htail', -⟩
      exact htail htail'

theorem strip_isInfix (s : List Char) : Text.strip s <:+: s := by
  have hend : Text.stripEnd (Text.stripStart s) <+: Text.stripStart s := by
    rw [← List.reverse_suffix, Text.stripEnd, List.reverse_reverse]
    exact List.dropWhile_suffix _
  exact hend.isInfix.trans (stripStart_suffix s).isInfix

theorem ReadableKeys.pathItems_ok {s : List Char} (h : ReadableKeys s) (context : Context) :
    ∃ items, pathItems context s = .ok items := by
  refine ok_of_not_raises fun hraises => ?_
  obtain ⟨parent, tail, hsplit, -, hmeets⟩ := (pathItems_raises_iff context s).mp hraises
  have hparent := (parent_of_splitLastDot? hsplit).isInfix.trans (strip_isInfix s)
  exact (h.of_infix hparent).not_meetsUnreadable hmeets

/-- What is found is an ending that has the property. -/
theorem endingWith?_split {mayFollow : Option Char → Bool} {p : List Char → Bool}
    {last : Option Char} {s found : List Char} (h : endingWith? mayFollow p last s = some found) :
    found <:+ s ∧ p found = true := by
  induction s generalizing last with
  | nil =>
    simp only [endingWith?, Option.ite_none_right_eq_some, Option.some.injEq] at h
    obtain ⟨hhere, rfl⟩ := h
    exact ⟨List.suffix_refl _, (Bool.and_eq_true_iff.mp hhere).2⟩
  | cons c rest ih =>
    simp only [endingWith?] at h
    split at h
    · rename_i hhere
      cases h
      exact ⟨List.suffix_refl _, (Bool.and_eq_true_iff.mp hhere).2⟩
    · obtain ⟨hsuffix, hfound⟩ := ih h
      exact ⟨hsuffix.trans (List.suffix_cons _ _), hfound⟩

theorem ReadableKeys.completePath?_ok {before : List Char} (h : ReadableKeys before)
    (context : Context) (offset : Nat) :
    ∃ found, completePath? context before offset = .ok found := by
  unfold completePath?
  cases htyped : typedPath? before with
  | none => exact ⟨none, rfl⟩
  | some typed =>
    obtain ⟨items, hitems⟩ :=
      (h.of_infix (endingWith?_split htyped).1.isInfix).pathItems_ok context
    simp only [hitems, bind, Except.bind]
    split <;> exact ⟨_, rfl⟩

theorem ReadableKeys.complete_ok {source : List Char} (h : ReadableKeys source) (tree : Tree)
    (offset : Int) (context : Context) :
    ∃ found, Completion.complete tree source offset context = .ok found := by
  let at? := Completion.clamp source.length offset
  have hbefore : lineBefore source at? <:+: source :=
    (lineBefore_suffix source at?).isInfix.trans (List.take_prefix _ _).isInfix
  obtain ⟨found, hfound⟩ := (h.of_infix hbefore).completePath?_ok context at?
  simp only [Completion.complete]
  -- Everything but a path is completed without reading keys.
  split
  · exact ⟨none, rfl⟩
  · simp only [at?] at hfound
    simp only [hfound, bind, Except.bind]
    split
    · exact ⟨_, rfl⟩
    · split <;> exact ⟨_, rfl⟩

/-! ### Hovering -/

theorem ReadableKeys.at?_ok {source : List Char} (h : ReadableKeys source) (offset : Int)
    (context : Context) : ∃ found, Hover.at? source offset context = .ok found := by
  simp only [Hover.at?]
  split
  · exact ⟨none, rfl⟩
  · rename_i hinside
    split
    · exact ⟨none, rfl⟩
    · rename_i column path hfind
      obtain ⟨before, after, hsource, -⟩ :=
        mem_paths_lineAround (by omega) (List.mem_of_find?_eq_some hfind)
      have hpath : path <:+: source := ⟨before, after, hsource.symm⟩
      obtain ⟨info, hinfo⟩ := ok_of_not_raises
        ((h.of_infix hpath).not_meetsUnreadable ∘ (lookup_raises_iff context path).mp)
      exact ⟨_, by simp only [hinfo]; rfl⟩

/-! ### Together -/

/-- Reading, resolving and hovering fail exactly on a path that leads to a key that cannot be read,
and completing a path exactly if its part before the last dot is one. At a cursor of a policy whose
keys can all be read, completion and hovering give an answer. -/
theorem raises_only_at_unreadable_keys (s : List Char) (offset : Int) (context : Context)
    (tree : Tree) :
    ((∃ e, parse s = .error e) ↔ MeetsUnreadable s) ∧
    ((∃ e, resolve context s = .error e) ↔ MeetsUnreadable s) ∧
    ((∃ e, Hover.lookup context s = .error e) ↔ MeetsUnreadable s) ∧
    ((∃ e, pathItems context s = .error e) ↔
      ∃ parent tail, splitLastDot? (Text.strip s) = some (parent, tail) ∧
        (tail = [] ∨ isName tail = true) ∧ MeetsUnreadable parent) ∧
    (ReadableKeys s →
      (∃ items, pathItems context s = .ok items) ∧
      (∃ found, Completion.complete tree s offset context = .ok found) ∧
      ∃ found, Hover.at? s offset context = .ok found) :=
  ⟨parse_raises_iff s, resolve_raises_iff context s, lookup_raises_iff context s,
    pathItems_raises_iff context s, fun h =>
      ⟨h.pathItems_ok context, h.complete_ok tree offset context, h.at?_ok offset context⟩⟩

section

open scoped Json.UsualNesting

/-- A backslash before a letter that makes no escape: a path may hold such a key, a document may
not. -/
theorem unknown_escape_raises :
    (∃ e, parse "input[\"\\q\"]".toList = .error e) ∧
    (∃ e, resolve (.ofTexts none none) "input[\"\\q\"]".toList = .error e) ∧
    (∃ e, Hover.lookup (.ofTexts none none) "input[\"\\q\"]".toList = .error e) ∧
    (∃ e, pathItems (.ofTexts none none) "input[\"\\q\"].".toList = .error e) ∧
    (∃ e, Completion.complete (Grammar.parse "input[\"\\q\"].") "input[\"\\q\"].".toList 12
      (.ofTexts none none) = .error e) ∧
    ∃ e, Hover.at? "input[\"\\q\"]".toList 3 (.ofTexts none none) = .error e :=
  ⟨raises_of_isOk (by decide +kernel), raises_of_isOk (by decide +kernel),
    raises_of_isOk (by decide +kernel), raises_of_isOk (by decide +kernel),
    raises_of_isOk (by decide +kernel), raises_of_isOk (by decide +kernel)⟩

end

end PolicyEditor.Path
