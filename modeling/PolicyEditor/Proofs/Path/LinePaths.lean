import PolicyEditor.Proofs.Path.Trimmed

/-!
The paths of a line, and the line around an offset: where they stand in the text.
-/

namespace PolicyEditor.Hover

open PolicyEditor.Completion (afterPath? lineBefore pathMayFollow)
open PolicyEditor.Text (isWord strip)

/-! ### Paths in a line -/

theorem pathMayFollow_iff {last : Option Char} :
    pathMayFollow last = true ↔ ∀ c ∈ last, isWord c = false ∧ c ≠ '.' := by
  cases last with
  | none => exact ⟨fun _ => nofun, fun _ => rfl⟩
  | some c => simp [pathMayFollow]

/-- Where a path of a line stands: in its column, behind nothing that it could go on from. No blank is
around it. -/
theorem mem_pathsFrom {skip column : Nat} {last : Option Char} {s : List Char}
    {found : Nat × List Char} (h : found ∈ pathsFrom skip column last s) :
    ∃ front back, s = front ++ found.2 ++ back ∧ found.1 = column + front.length ∧
      pathMayFollow (front.getLast?.or last) = true ∧ strip found.2 = found.2 := by
  induction s generalizing skip column last with
  | nil => simp only [pathsFrom, List.not_mem_nil] at h
  | cons c rest ih =>
    have hlater : ∀ {skip : Nat}, found ∈ pathsFrom skip (column + 1) (some c) rest →
        ∃ front back, c :: rest = front ++ found.2 ++ back ∧ found.1 = column + front.length ∧
          pathMayFollow (front.getLast?.or last) = true ∧ strip found.2 = found.2 := by
      intro skip hmem
      obtain ⟨front, back, hrest, hcolumn, hfollow, hstrip⟩ := ih hmem
      refine ⟨c :: front, back, congrArg _ hrest, ?_, ?_, hstrip⟩
      · rw [hcolumn, List.length_cons]
        omega
      · rw [List.getLast?_cons, Option.some_or]
        cases hfront : front.getLast? with
        | none => rwa [hfront] at hfollow
        | some d => rwa [hfront] at hfollow
    cases skip with
    | succ skip => exact hlater h
    | zero =>
      simp only [pathsFrom] at h
      split at h
      · rename_i after hafter
        rw [Option.ite_none_right_eq_some] at hafter
        obtain ⟨hfollow, hpath⟩ := hafter
        rcases List.mem_cons.mp h with rfl | hmem
        · obtain ⟨root, parts, hs, hend⟩ := Path.afterPath?_split hpath
          have htake : (c :: rest).take ((c :: rest).length - after.length) =
              root.name.toList ++ parts := by
            rw [hs, List.length_append, Nat.add_sub_cancel, List.take_left]
          refine ⟨[], after, ?_, rfl, hfollow, ?_⟩
          · rw [htake, List.nil_append, hs]
          · rw [htake, Path.strip_of_name hend]
        · exact hlater hmem
      · exact hlater h

/-! ### The line of an offset -/

def lineAround (source : List Char) (offset : Nat) : List Char :=
  lineBefore source offset ++ (source.drop offset).takeWhile (· ≠ '\n')

theorem lineBefore_suffix (source : List Char) (offset : Nat) :
    lineBefore source offset <:+ source.take offset := by
  rw [← List.reverse_prefix, lineBefore, List.reverse_reverse]
  exact List.takeWhile_prefix _

theorem length_lineBefore_le (source : List Char) (offset : Nat) :
    (lineBefore source offset).length ≤ offset :=
  (lineBefore_suffix source offset).length_le.trans (List.length_take_le _ _)

/-- Where the line around an offset stands in the text, and where the offset stands in the line. -/
theorem exists_lineAround (source : List Char) {offset : Nat} (h : offset ≤ source.length) :
    ∃ front back, source = front ++ lineAround source offset ++ back ∧
      front.length + (lineBefore source offset).length = offset ∧
      ∀ c ∈ front.getLast?, c = '\n' := by
  -- All up to the last line break before the offset, this one included.
  let front := ((source.take offset).reverse.dropWhile (· ≠ '\n')).reverse
  have hfront : front ++ lineBefore source offset = source.take offset := by
    rw [← List.reverse_inj, List.reverse_append, lineBefore, List.reverse_reverse,
      List.reverse_reverse, List.takeWhile_append_dropWhile]
  refine ⟨front, (source.drop offset).dropWhile (· ≠ '\n'), ?_, ?_, ?_⟩
  · rw [lineAround, ← List.append_assoc, hfront, List.append_assoc,
      List.takeWhile_append_dropWhile, List.take_append_drop]
  · rw [← List.length_append, hfront, List.length_take_of_le h]
  · intro c hc
    have hlast := List.head?_dropWhile_not (fun c => decide (c ≠ '\n')) (source.take offset).reverse
    rw [← List.getLast?_reverse, Option.mem_def.mp hc] at hlast
    simpa using hlast

theorem newline_notMem_lineAround (source : List Char) (offset : Nat) :
    '\n' ∉ lineAround source offset := by
  have hrun : ∀ s : List Char, '\n' ∉ s.takeWhile (· ≠ '\n') := by
    intro s hmem
    exact absurd (List.all_eq_true.mp List.all_takeWhile _ hmem) (by decide)
  rw [lineAround, List.mem_append, lineBefore, List.mem_reverse]
  exact not_or.mpr ⟨hrun _, hrun _⟩

/-- A path of the line around an offset, as a part of the text. -/
theorem mem_paths_lineAround {source : List Char} {offset column : Nat} {path : List Char}
    (h : offset ≤ source.length) (hmem : (column, path) ∈ paths (lineAround source offset)) :
    ∃ before after, source = before ++ path ++ after ∧
      before.length = offset - (lineBefore source offset).length + column ∧ '\n' ∉ path ∧
      (∀ c ∈ before.getLast?, isWord c = false ∧ c ≠ '.') ∧ strip path = path := by
  obtain ⟨front, back, hsource, hplace, hlast⟩ := exists_lineAround source h
  obtain ⟨before, after, hline, hcolumn, hfollow, hstrip⟩ := mem_pathsFrom hmem
  refine ⟨front ++ before, after ++ back, ?_, ?_, ?_, ?_, hstrip⟩
  · rw [hline] at hsource
    simpa only [List.append_assoc] using hsource
  · rw [List.length_append]
    omega
  · intro hnewline
    apply newline_notMem_lineAround source offset
    rw [hline]
    exact List.mem_append_left _ (List.mem_append_right _ hnewline)
  · -- At the start of the line a line break stands before the path, or nothing at all.
    rw [Option.or_none, pathMayFollow_iff] at hfollow
    intro c hc
    rw [List.getLast?_append, Option.mem_def, Option.or_eq_some_iff] at hc
    rcases hc with hc | ⟨-, hc⟩
    · exact hfollow c hc
    · obtain rfl := hlast c hc
      exact ⟨by decide, by decide⟩

end PolicyEditor.Hover
