import PolicyEditor.Proofs.Path.LinePaths

/-!
The range of what hovering shows. It lies on the line of the cursor, touches the cursor and holds
exactly the path that is shown. No offset outside of the text shows anything, though the line is
looked for from any offset.
-/

namespace PolicyEditor.Hover

open PolicyEditor.Completion (lineBefore)
open PolicyEditor.Schema (Context)
open PolicyEditor.Text (isWord strip)

/-! ### Any offset -/

/-- The place in a text that an offset bounds: a negative one counts from the end, and what is beyond
an end of the text is that end. -/
def boundary (length : Nat) (offset : Int) : Nat :=
  if offset < 0 then (length + offset).toNat else min offset.toNat length

theorem boundary_le (length : Nat) (offset : Int) : boundary length offset ≤ length := by
  unfold boundary
  split <;> omega

theorem boundary_natCast {length n : Nat} (h : n ≤ length) : boundary length n = n := by
  unfold boundary
  split <;> omega

/-- What is known of the path that an offset touches on the line around the place that it bounds. The
offset is not compared with the ends of the text. -/
def atBoundary? (source : List Char) (offset : Int) (context : Context) :
    Except Path.KeyError (Option Result) :=
  let bound := boundary source.length offset
  let lineStart := bound - (lineBefore source bound).length
  let column := offset - lineStart
  let touches (p : Nat × List Char) : Bool :=
    (p.1 : Int) ≤ column && column ≤ (p.1 + p.2.length : Nat)
  match (paths (lineAround source bound)).find? touches with
  | none => .ok none
  | some (start, path) => do
    let info ← lookup context path
    return info.map fun info => ⟨info, lineStart + start, lineStart + start + path.length⟩

/-- An offset outside of the text is a column of no path. -/
theorem at?_eq_atBoundary? (source : List Char) (offset : Int) (context : Context) :
    at? source offset context = atBoundary? source offset context := by
  unfold at? atBoundary?
  split
  · rename_i houtside
    have hbound := boundary_le source.length offset
    generalize hplace : boundary source.length offset = bound at hbound
    -- A path at the column would stand before the text or go on behind its end.
    have hnone : (paths (lineAround source bound)).find? (fun p =>
        decide ((p.1 : Int) ≤ offset - ((bound - (lineBefore source bound).length : Nat) : Int)) &&
          decide (offset - ((bound - (lineBefore source bound).length : Nat) : Int) ≤
            (p.1 + p.2.length : Nat))) = none := by
      rw [List.find?_eq_none]
      rintro ⟨column, path⟩ hp
      obtain ⟨before, after, hsource, hcolumn, -⟩ := mem_paths_lineAround hbound hp
      have hlength := congrArg List.length hsource
      rw [List.length_append, List.length_append] at hlength
      rw [Bool.and_eq_true, decide_eq_true_iff, decide_eq_true_iff]
      dsimp only
      omega
    simp only [hnone]
  · rename_i hinside
    obtain ⟨n, rfl⟩ := Int.eq_ofNat_of_zero_le (show 0 ≤ offset by omega)
    have hbound : boundary source.length n = n := boundary_natCast (by omega)
    have hline := length_lineBefore_le source n
    -- The offset bounds itself, so that its column is what stands before it on its line.
    have htouches : (fun p : Nat × List Char =>
          decide ((p.1 : Int) ≤ n - ((n - (lineBefore source n).length : Nat) : Int)) &&
            decide ((n : Int) - ((n - (lineBefore source n).length : Nat) : Int) ≤
              (p.1 + p.2.length : Nat))) =
        fun p => decide (p.1 ≤ (lineBefore source n).length) &&
          decide ((lineBefore source n).length ≤ p.1 + p.2.length) := by
      funext p
      congr 1
      · exact decide_eq_decide.mpr (by omega)
      · exact decide_eq_decide.mpr (by omega)
    simp only [hbound, htouches]
    rfl

/-! ### What is shown -/

/-- What is shown at an offset: a path of the line around it that it touches, which leads to a
schema. -/
theorem of_at?_eq_some {source : List Char} {offset : Int} {context : Context} {found : Result}
    (h : at? source offset context = .ok (some found)) :
    ∃ (n column : Nat) (path : List Char) (info : Info),
      offset = n ∧ n ≤ source.length ∧ (column, path) ∈ paths (lineAround source n) ∧
      column ≤ (lineBefore source n).length ∧
      (lineBefore source n).length ≤ column + path.length ∧
      lookup context path = .ok (some info) ∧
      found = ⟨info, n - (lineBefore source n).length + column,
        n - (lineBefore source n).length + column + path.length⟩ := by
  unfold at? at h
  split at h
  · exact nomatch h
  · rename_i hinside
    obtain ⟨n, rfl⟩ := Int.eq_ofNat_of_zero_le (show 0 ≤ offset by omega)
    simp only [Int.toNat_natCast] at h
    split at h
    · exact nomatch h
    · rename_i column path hfind
      have htouches := List.find?_some hfind
      rw [Bool.and_eq_true, decide_eq_true_iff, decide_eq_true_iff] at htouches
      obtain ⟨known, hlookup, hshown⟩ := Json.ok_of_bind_ok h
      obtain ⟨info, rfl, rfl⟩ := Option.map_eq_some_iff.mp (Except.ok.inj hshown)
      exact ⟨n, column, path, info, rfl, by omega, List.mem_of_find?_eq_some hfind,
        htouches.1, htouches.2, hlookup, rfl⟩

/-- What is known of a path is what its schema says. -/
theorem lookup_eq_some_iff {context : Context} {path : List Char} {info : Info} :
    lookup context path = .ok (some info) ↔
      ∃ node, Path.resolve context path = .ok (some node) ∧
        info = ⟨String.ofList (strip path), node.describe, node.exampleText, node.source⟩ := by
  unfold lookup
  cases hresolve : Path.resolve context path with
  | error e => exact ⟨nofun, fun ⟨_, h, _⟩ => nomatch h⟩
  | ok node =>
    cases node with
    | none => exact ⟨nofun, fun ⟨_, h, _⟩ => nomatch h⟩
    | some node =>
      constructor
      · intro h
        cases h
        exact ⟨node, rfl, rfl⟩
      · rintro ⟨_, h, rfl⟩
        cases h
        rfl

/-- The range that is shown at an offset touches the offset and lies in the text on one line. It
begins where a path can begin and holds the path that is shown, which leads to the schema that is
described. This needs no comparison of the offset with the ends of the text. -/
theorem at?_shows_covered_path (source : List Char) (offset : Int) (context : Context) :
    at? source offset context = atBoundary? source offset context ∧
      ∀ found, at? source offset context = .ok (some found) →
        ∃ before path after node, source = before ++ path ++ after ∧
          found.start = before.length ∧ found.stop = before.length + path.length ∧
          (found.start : Int) ≤ offset ∧ offset ≤ found.stop ∧ found.stop ≤ source.length ∧
          '\n' ∉ path ∧ (∀ c ∈ before.getLast?, isWord c = false ∧ c ≠ '.') ∧
          Path.resolve context path = .ok (some node) ∧
          found.info =
            ⟨String.ofList path, node.describe, node.exampleText, node.source⟩ := by
  refine ⟨at?_eq_atBoundary? source offset context, ?_⟩
  intro found hfound
  obtain ⟨n, column, path, info, rfl, hn, hmem, hleft, hright, hlookup, rfl⟩ :=
    of_at?_eq_some hfound
  obtain ⟨before, after, hsource, hbefore, hnewline, hlast, hstrip⟩ := mem_paths_lineAround hn hmem
  obtain ⟨node, hresolve, rfl⟩ := lookup_eq_some_iff.mp hlookup
  have hline := length_lineBefore_le source n
  have hlength := congrArg List.length hsource
  rw [List.length_append, List.length_append] at hlength
  refine ⟨before, path, after, node, hsource, hbefore.symm, ?_, ?_, ?_, ?_, hnewline, hlast,
    hresolve, ?_⟩
  · rw [hbefore]
  · show ((n - (lineBefore source n).length + column : Nat) : Int) ≤ n
    omega
  · show (n : Int) ≤ (n - (lineBefore source n).length + column + path.length : Nat)
    omega
  · show n - (lineBefore source n).length + column + path.length ≤ source.length
    omega
  · rw [hstrip]

section

open scoped Json.UsualNesting

def roleDocument : String := "\x7b\"user\": \x7b\"role\": \"admin\"\x7d\x7d"

/-- A path on a second line. Counted from the end of the text its place shows nothing. -/
theorem at?_shows_role_on_second_line :
    at? "x := 1\ny := input.user.role".toList (-12) (.ofTexts (some roleDocument) none) = .ok none ∧
      ∃ found, at? "x := 1\ny := input.user.role".toList 15 (.ofTexts (some roleDocument) none) =
          .ok (some found) ∧ found.start = 12 ∧ found.stop = 27 ∧
        found.info = ⟨"input.user.role", "string", some "\"admin\"", some "Input"⟩ ∧
        ∃ before path after node,
          "x := 1\ny := input.user.role".toList = before ++ path ++ after ∧ before.length = 12 ∧
          path.length = 15 ∧ (∀ c ∈ before.getLast?, isWord c = false ∧ c ≠ '.') ∧
          Path.resolve (.ofTexts (some roleDocument) none) path = .ok (some node) ∧
          node.describe = "string" := by
  have hfound : at? "x := 1\ny := input.user.role".toList 15 (.ofTexts (some roleDocument) none) =
      .ok (some ⟨⟨"input.user.role", "string", some "\"admin\"", some "Input"⟩, 12, 27⟩) := by
    decide +kernel
  obtain ⟨before, path, after, node, hsource, hstart, hstop, -, -, -, -, hlast, hresolve, hinfo⟩ :=
    (at?_shows_covered_path _ _ _).2 _ hfound
  have hbefore : before.length = 12 := hstart.symm
  have hpath : 27 = before.length + path.length := hstop
  refine ⟨by decide +kernel, _, hfound, rfl, rfl, rfl, before, path, after, node, hsource, hbefore,
    by omega, hlast, hresolve, ?_⟩
  exact (congrArg Info.type hinfo).symm

end

end PolicyEditor.Hover
