import Mathlib.Data.List.Pairwise
import PolicyEditor.Text.Position

/-!
Offsets and their lines. Lines start one after another, so that an offset which lies between the
start and the end of a line belongs to that line alone.
-/

namespace PolicyEditor.Text

/-- In ascending order just the first numbers are taken, if the bound lies between the last one of
them and the next one. -/
theorem length_takeWhile_le {numbers : List Nat} {n bound : Nat}
    (hascending : numbers.Pairwise (· < ·)) (hn : n < numbers.length) (hlow : numbers[n] ≤ bound)
    (hhigh : ∀ next ∈ numbers[n + 1]?, bound < next) :
    (numbers.takeWhile (· ≤ bound)).length = n + 1 := by
  -- All up to the last one are taken because that one is, and none from the next one on.
  have htaken : ∀ m ∈ numbers.take (n + 1), decide (m ≤ bound) = true := by
    intro m hm
    obtain ⟨i, hi, rfl⟩ := List.mem_take_iff_getElem.mp hm
    have hle : numbers[i] ≤ numbers[n] :=
      (hascending.imp Nat.le_of_lt).rel_get_of_le (a := ⟨i, by omega⟩) (b := ⟨n, hn⟩)
        (Fin.mk_le_mk.mpr (by omega))
    exact decide_eq_true (Nat.le_trans hle hlow)
  have hstop : (numbers.drop (n + 1)).takeWhile (· ≤ bound) = [] := by
    cases hrest : numbers.drop (n + 1) with
    | nil => rfl
    | cons next rest =>
      have hnext : numbers[n + 1]? = some next := by
        rw [← List.head?_drop, hrest, List.head?_cons]
      rw [List.takeWhile_cons_of_neg]
      simpa using hhigh next hnext
  calc (numbers.takeWhile (· ≤ bound)).length
      = ((numbers.take (n + 1) ++ numbers.drop (n + 1)).takeWhile (· ≤ bound)).length := by
        rw [List.take_append_drop]
    _ = (numbers.take (n + 1)).length := by
        rw [List.takeWhile_append_of_pos htaken, hstop, List.append_nil]
    _ = n + 1 := List.length_take_of_le hn

namespace LineIndex

/-- What holds of the index of every text: the first line starts where the text does, each other one
behind the line before it, and none beyond the end. -/
structure Ordered (x : LineIndex) : Prop where
  first : x.starts.head? = some 0
  ascending : x.starts.Pairwise (· < ·)
  within : ∀ start ∈ x.starts, start ≤ x.length

theorem startsFrom_bounds {pos : Nat} {s : List Char} :
    ∀ start ∈ startsFrom pos s, pos < start ∧ start ≤ pos + s.length := by
  fun_induction startsFrom pos s with
  | case1 => exact fun _ h => nomatch h
  | case2 pos rest ih =>
    refine List.forall_mem_cons.mpr ⟨by simp, fun start hstart => ?_⟩
    have hbounds := ih start hstart
    rw [List.length_cons]
    omega
  | case3 pos c rest _ ih =>
    intro start hstart
    have hbounds := ih start hstart
    rw [List.length_cons]
    omega

theorem startsFrom_ascending (pos : Nat) (s : List Char) :
    (startsFrom pos s).Pairwise (· < ·) := by
  fun_induction startsFrom pos s with
  | case1 => exact .nil
  | case2 pos rest ih => exact .cons (fun start hstart => (startsFrom_bounds start hstart).1) ih
  | case3 _ _ _ _ ih => exact ih

theorem length_startsFrom (pos : Nat) (s : List Char) :
    (startsFrom pos s).length = s.count '\n' := by
  fun_induction startsFrom pos s with
  | case1 => rfl
  | case2 pos rest ih => rw [List.length_cons, ih, List.count_cons_self]
  | case3 pos c rest hc ih => rw [ih, List.count_cons_of_ne hc]

theorem ordered_ofChars (s : List Char) : (ofChars s).Ordered where
  first := rfl
  ascending :=
    .cons (fun start hstart => (startsFrom_bounds start hstart).1) (startsFrom_ascending 0 s)
  within := by
    refine List.forall_mem_cons.mpr ⟨Nat.zero_le _, fun start hstart => ?_⟩
    have hbounds := startsFrom_bounds start hstart
    rw [Nat.zero_add] at hbounds
    exact hbounds.2

/-- A text has a line more than it has newlines. -/
theorem lineCount_ofChars (s : List Char) : (ofChars s).lineCount = s.count '\n' + 1 := by
  rw [lineCount, ofChars, List.length_cons, length_startsFrom]

variable {x : LineIndex}

/-! ### Lines -/

theorem coe_clampLine (line : Int) :
    (x.clampLine line : Int) = min (max line 1) x.lineCount := by
  unfold clampLine
  omega

theorem clampLine_le (line : Int) : x.clampLine line ≤ x.lineCount :=
  Nat.min_le_right _ _

/-- A line of the text stays as it is. -/
theorem clampLine_natCast {line : Nat} (hpos : 0 < line) (hle : line ≤ x.lineCount) :
    x.clampLine line = line := by
  unfold clampLine
  omega

theorem lineStart_succ {n : Nat} (hn : n < x.starts.length) :
    x.lineStart (n + 1) = x.starts[n] := by
  rw [lineStart, Nat.add_sub_cancel, List.getElem?_eq_getElem hn, Option.getD_some]

namespace Ordered

theorem clampLine_pos (h : x.Ordered) (line : Int) : 0 < x.clampLine line := by
  have hpos : 0 < x.starts.length := by
    refine List.length_pos_iff.mpr fun hnil => ?_
    have hfirst := h.first
    rw [hnil] at hfirst
    cases hfirst
  unfold clampLine lineCount
  omega

/-- The start of the next line lies behind that of a line. -/
theorem start_lt_next (h : x.Ordered) {n next : Nat} (hn : n < x.starts.length)
    (hnext : x.starts[n + 1]? = some next) : x.starts[n] < next := by
  obtain ⟨hin, rfl⟩ := List.getElem?_eq_some_iff.mp hnext
  exact List.pairwise_iff_getElem.mp h.ascending n (n + 1) hn hin (Nat.lt_succ_self n)

theorem lineStart_le_lineEnd (h : x.Ordered) {line : Nat} (hpos : 0 < line)
    (hle : line ≤ x.lineCount) : x.lineStart line ≤ x.lineEnd line := by
  obtain ⟨n, rfl⟩ : ∃ n, line = n + 1 := ⟨line - 1, by omega⟩
  rw [lineStart_succ hle, lineEnd]
  split
  · rename_i next hnext
    exact Nat.le_sub_one_of_lt (h.start_lt_next hle hnext)
  · exact h.within _ (List.getElem_mem hle)

theorem lineEnd_le_length (h : x.Ordered) (line : Nat) : x.lineEnd line ≤ x.length := by
  rw [lineEnd]
  split
  · rename_i next hnext
    exact Nat.le_trans (Nat.sub_le next 1) (h.within next (List.mem_of_getElem? hnext))
  · exact Nat.le_refl x.length

/-- An offset between the start and the end of a line has the position of that line. -/
theorem position_between (h : x.Ordered) {line offset : Nat} (hpos : 0 < line)
    (hle : line ≤ x.lineCount) (hstart : x.lineStart line ≤ offset)
    (hend : offset ≤ x.lineEnd line) :
    x.position offset = (line, offset - x.lineStart line + 1) := by
  obtain ⟨n, rfl⟩ : ∃ n, line = n + 1 := ⟨line - 1, by omega⟩
  have hoffset : min (offset : Int).toNat x.length = offset :=
    Nat.min_eq_left (Nat.le_trans hend (h.lineEnd_le_length _))
  have hnext : ∀ next ∈ x.starts[n + 1]?, offset < next := by
    intro next hnext
    have hlt := h.start_lt_next hle hnext
    rw [lineEnd, Option.mem_def.mp hnext] at hend
    exact Nat.lt_of_le_sub_one (Nat.zero_lt_of_lt hlt) hend
  have hlines : (x.starts.takeWhile (· ≤ offset)).length = n + 1 :=
    length_takeWhile_le h.ascending hle (lineStart_succ hle ▸ hstart) hnext
  rw [position, hoffset, hlines]

/-- A line that is in the text already is looked up as it is. -/
theorem offset_clampLine (h : x.Ordered) (line column : Int) :
    x.offset (x.clampLine line) column = x.offset line column := by
  unfold offset
  rw [clampLine_natCast (h.clampLine_pos line) (clampLine_le line)]

/-- The offset of a line and column stays in the line, once the line is in the text. -/
theorem offset_between (h : x.Ordered) (line column : Int) :
    x.lineStart (x.clampLine line) ≤ x.offset line column ∧
      x.offset line column ≤ x.lineEnd (x.clampLine line) := by
  have hle := h.lineStart_le_lineEnd (h.clampLine_pos line) (clampLine_le line)
  unfold offset
  dsimp only
  omega

theorem offset_le_length (h : x.Ordered) (line column : Int) : x.offset line column ≤ x.length :=
  Nat.le_trans (h.offset_between line column).2 (h.lineEnd_le_length _)

theorem position_offset (h : x.Ordered) (line column : Int) :
    x.position (x.offset line column) = (x.clampLine line,
      x.offset line column - x.lineStart (x.clampLine line) + 1) :=
  have hbetween := h.offset_between line column
  h.position_between (h.clampLine_pos line) (clampLine_le line) hbetween.1 hbetween.2

end Ordered

end LineIndex

end PolicyEditor.Text
