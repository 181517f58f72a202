import PolicyEditor.Proofs.Path.LinePaths

/-!
Hovering over a path that stands alone in a line. Wherever the cursor is, it shows what is known of
the path and covers all of it, exactly if the path is plain.
-/

namespace PolicyEditor.Hover

open PolicyEditor.Completion (afterParts afterPath? lineBefore)
open PolicyEditor.Path (EndsBlank IsPlain Plain Run readAll)
open PolicyEditor.Schema (Context)
open PolicyEditor.Text (strip)

/-- Segments that are read, with no blank behind them, go on to the end of the text. -/
theorem run_of_readAll {s : List Char} {found : List Path.Segment}
    (h : readAll s = .ok (some found)) (hend : ¬ EndsBlank s) : Run s := by
  induction hn : s.length using Nat.strongRecOn generalizing s found with
  | ind n ih =>
    subst hn
    rcases Path.readAll_cases h with ⟨hblank, -⟩ | ⟨written, rest, _, more, hsegment, -, hmore, -⟩
    · by_cases hs : s = []
      · exact hs ▸ .nil
      · exact absurd (Path.endsBlank_of_all hs hblank) hend
    · obtain ⟨hsuffix, hlength, -⟩ := Path.segment?_split hsegment
      exact .cons hsegment (ih rest.length hlength hmore (fun h => hend (h.of_suffix hsuffix)) rfl)

theorem run_of_resolve {context : Context} {p : List Char} {node : Schema} (hstrip : strip p = p)
    (h : Path.resolve context p = .ok (some node)) :
    ∃ root rest, Path.root? p = some (root, rest) ∧ Run rest := by
  obtain ⟨found, hfound, hnode⟩ := Json.ok_of_bind_ok h
  cases found with
  | none => cases hnode
  | some path =>
    obtain ⟨rest, hroot, -, hread⟩ := Path.parse_cases hfound
    obtain ⟨hstart, hend⟩ := Path.strip_eq_self_iff.mp hstrip
    rw [hstart] at hroot
    have hsuffix : rest <:+ p := ⟨_, (Path.root?_split hroot).symm⟩
    exact ⟨path.root, rest, hroot,
      run_of_readAll hread fun h => hend (h.of_suffix hsuffix)⟩

/-! ### Paths of a line -/

/-- A path at the beginning of a line is the first of its paths; the others come after it. -/
theorem paths_of_afterPath? {line after : List Char} (h : afterPath? line = some after)
    (hne : line ≠ []) : ∃ more, paths line = (0, line.take (line.length - after.length)) :: more ∧
      ∀ found ∈ more, 1 ≤ found.1 := by
  obtain ⟨c, rest, rfl⟩ := List.exists_cons_of_ne_nil hne
  let path := (c :: rest).take ((c :: rest).length - after.length)
  refine ⟨pathsFrom (path.length - 1) 1 (some c) rest, ?_, fun found hfound => ?_⟩
  · simp only [paths, pathsFrom, Completion.pathMayFollow, if_true, h, path]
  · obtain ⟨front, _, _, hcolumn, _⟩ := mem_pathsFrom hfound
    omega

theorem afterPath?_of_root? {p rest : List Char} {root : Schema.Root}
    (h : Path.root? p = some (root, rest)) : afterPath? p = some (afterParts rest.length rest) := by
  rw [afterPath?, h, Option.map_some]

def shown (context : Context) : Option (Nat × List Char) → Except Path.KeyError (Option Result)
  | none => .ok none
  | some (column, path) => do
    let info ← lookup context path
    return info.map fun info => ⟨info, column, column + path.length⟩

/-- The offsets of a text of one line are columns of its only line. -/
theorem at?_line {p : List Char} (hline : '\n' ∉ p) {n : Nat} (hn : n ≤ p.length)
    (context : Context) : at? p n context =
      shown context
        ((paths p).find? fun found => found.1 ≤ n && n ≤ found.1 + found.2.length) := by
  have hbreak : ∀ s : List Char, (∀ c ∈ s, c ∈ p) → s.takeWhile (· ≠ '\n') = s := by
    intro s hs
    refine List.takeWhile_eq_self_iff.mpr fun c hc => decide_eq_true ?_
    rintro rfl
    exact hline (hs _ hc)
  have hbefore : lineBefore p n = p.take n := by
    rw [lineBefore, hbreak _ fun c hc => List.mem_of_mem_take (List.mem_reverse.mp hc),
      List.reverse_reverse]
  have hafter := hbreak (p.drop n) fun c hc => List.mem_of_mem_drop hc
  have hlength : (p.take n).length = n := List.length_take_of_le hn
  have hinside : ¬ ((n : Int) < 0 ∨ (p.length : Int) < n) := by omega
  simp only [at?, if_neg hinside, Int.toNat_natCast, hbefore, hafter, List.take_append_drop,
    hlength, Nat.sub_self, Nat.zero_add]
  cases (paths p).find? _ <;> rfl

/-- Over a path of one line, without blanks around it, that leads to something known: wherever the
cursor is, what is known of the path is shown, for all of it, exactly if the path is plain. -/
theorem at?_covers_iff_plain {p : List Char} {context : Context} {node : Schema}
    (hline : '\n' ∉ p) (hstrip : strip p = p)
    (hnode : Path.resolve context p = .ok (some node)) {offset : Int} (hstart : 0 ≤ offset)
    (hstop : offset ≤ p.length) : ∃ info, lookup context p = .ok (some info) ∧
      (at? p offset context = .ok (some ⟨info, 0, p.length⟩) ↔ IsPlain p) := by
  obtain ⟨n, rfl⟩ := Int.eq_ofNat_of_zero_le hstart
  have hn : n ≤ p.length := by omega
  obtain ⟨root, rest, hroot, hrun⟩ := run_of_resolve hstrip hnode
  have hne : p ≠ [] := by
    rintro rfl
    cases hroot
  obtain ⟨more, hpaths, hmore⟩ := paths_of_afterPath? (afterPath?_of_root? hroot) hne
  obtain ⟨info, hinfo⟩ : ∃ info, lookup context p = .ok (some info) := by
    rw [lookup, hnode]
    exact ⟨_, rfl⟩
  refine ⟨info, hinfo, ?_⟩
  rw [at?_line hline hn]
  constructor
  · intro hfound
    cases hfind : (paths p).find? fun found => found.1 ≤ n && n ≤ found.1 + found.2.length with
    | none =>
      rw [hfind] at hfound
      cases hfound
    | some found =>
      obtain ⟨column, path⟩ := found
      rw [hfind] at hfound
      obtain ⟨shown, -, hshown⟩ := Json.ok_of_bind_ok hfound
      obtain ⟨_, -, hresult⟩ := Option.map_eq_some_iff.mp (Except.ok.inj hshown)
      obtain ⟨-, hcolumn, hend⟩ := Result.mk.inj hresult
      -- What begins with the line is the first path of it, and that is all of the line only if the
      -- scanner came to its end.
      have hmem := List.mem_of_find?_eq_some hfind
      rw [hpaths] at hmem
      rcases List.mem_cons.mp hmem with heq | hlater
      · obtain ⟨-, rfl⟩ := Prod.mk.inj heq
        rw [List.length_take] at hend
        have hpositive := List.length_pos_iff.mpr hne
        have hscanned : (afterParts rest.length rest).length = 0 := by omega
        exact ⟨root, rest, hroot, hrun.plain_of_afterParts (List.length_eq_zero_iff.mp hscanned)⟩
      · have hbehind := hmore _ hlater
        omega
  · rintro ⟨root', rest', hroot', hplain⟩
    rw [hroot] at hroot'
    cases hroot'
    have hfirst : (paths p).find? (fun found => found.1 ≤ n && n ≤ found.1 + found.2.length) =
        some (0, p) := by
      rw [hpaths, hplain.afterParts (Nat.le_refl _), List.length_nil, Nat.sub_zero,
        List.take_length]
      refine List.find?_cons_of_pos ?_
      simpa using hn
    simp only [hfirst, shown, hinfo]
    rw [Nat.zero_add]
    rfl

section

open scoped Json.UsualNesting

def elementDocument : String := "[1]"

/-- Over an index in brackets all of the path is shown. -/
theorem at?_covers_index :
    ∃ info, lookup (.ofTexts (some elementDocument) none) "input[0]".toList = .ok (some info) ∧
      at? "input[0]".toList 4 (.ofTexts (some elementDocument) none) =
        .ok (some ⟨info, 0, 8⟩) := by
  have hindex : Path.bracketed? "0]".toList = some (.index ['0'], []) := by decide +kernel
  have hplain : IsPlain "input[0]".toList :=
    ⟨.input, "[0]".toList, by decide +kernel, .index hindex .nil⟩
  have hnode : Path.resolve (.ofTexts (some elementDocument) none) "input[0]".toList =
      .ok (some (.scalar .number (.int 1) (some "Input"))) := rfl
  obtain ⟨info, hinfo, hcovers⟩ := at?_covers_iff_plain (by decide) (by decide) hnode
    (show (0 : Int) ≤ 4 by decide) (by decide)
  exact ⟨info, hinfo, hcovers.mpr hplain⟩

def quoteKeyDocument : String := "\x7b\"a\\\"b\": 1\x7d"

/-- Over a number after a dot, and over a key with an escaped quote, nothing is shown, though both
lead to a known value. -/
theorem at?_misses_number_and_quote :
    ('\n' ∉ "input.0".toList ∧ strip "input.0".toList = "input.0".toList ∧
      lookup (.ofTexts (some elementDocument) none) "input.0".toList =
        .ok (some ⟨"input.0", "number", some "1", some "Input"⟩) ∧
      at? "input.0".toList 7 (.ofTexts (some elementDocument) none) = .ok none) ∧
    '\n' ∉ "input[\"a\\\"b\"]".toList ∧
      strip "input[\"a\\\"b\"]".toList = "input[\"a\\\"b\"]".toList ∧
      lookup (.ofTexts (some quoteKeyDocument) none) "input[\"a\\\"b\"]".toList =
        .ok (some ⟨"input[\"a\\\"b\"]", "number", some "1", some "Input"⟩) ∧
      at? "input[\"a\\\"b\"]".toList 8 (.ofTexts (some quoteKeyDocument) none) = .ok none := by
  refine ⟨⟨?_, ?_, ?_, ?_⟩, ?_, ?_, ?_, ?_⟩ <;> decide +kernel

end

end PolicyEditor.Hover
