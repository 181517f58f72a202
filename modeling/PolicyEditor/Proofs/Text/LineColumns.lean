import Mathlib.Data.Prod.Lex
import Mathlib.Order.Fin.Basic
import PolicyEditor.Proofs.Text.Positions
import PolicyEditor.Text.Split

/-!
Lines and columns as names of offsets. The lines of a text are its pieces between newlines; every
offset lies in exactly one of them and is found again from its line and column, and places outside
the text stand for the nearest one in it.
-/

namespace PolicyEditor.Text

theorem length_pieces (separator : Char) (s : List Char) :
    (pieces separator s).length = s.count separator + 1 := by
  induction s with
  | nil => rfl
  | cons c rest ih =>
    obtain ⟨first, more, hrest, hcons⟩ := exists_pieces separator rest
    by_cases hc : c = separator
    · rw [pieces, if_pos hc, hc, List.count_cons_self, List.length_cons, ih]
    · rw [hcons c hc, List.count_cons_of_ne hc, ← ih, hrest]
      rfl

def lineLength (s : List Char) (line : Nat) : Nat :=
  ((pieces '\n' s)[line - 1]?.getD []).length

/-- Of numbers the first of which does not exceed a bound, there is one after which the bound is
exceeded at once, if numbers follow at all. -/
theorem exists_last_le {first bound : Nat} (rest : List Nat) (h : first ≤ bound) :
    ∃ n, ∃ hn : n < (first :: rest).length, (first :: rest)[n] ≤ bound ∧
      ∀ next ∈ (first :: rest)[n + 1]?, bound < next := by
  induction rest generalizing first with
  | nil => exact ⟨0, Nat.zero_lt_one, h, fun _ hnext => nomatch hnext⟩
  | cons second rest ih =>
    by_cases hsecond : second ≤ bound
    · obtain ⟨n, hn, hlow, hhigh⟩ := ih hsecond
      exact ⟨n + 1, Nat.succ_lt_succ hn, hlow, hhigh⟩
    · refine ⟨0, Nat.succ_pos _, h, ?_⟩
      rintro next ⟨⟩
      exact Nat.lt_of_not_le hsecond

namespace LineIndex

/-- What stands between the start of a line and the newline before the next start, or the end of the
text, is a piece of the text. -/
theorem end_startsFrom (pos : Nat) (s : List Char) (n : Nat) (hn : n < (pieces '\n' s).length) :
    (match (startsFrom pos s)[n]? with
      | some next => next - 1
      | none => pos + s.length) =
    (pos :: startsFrom pos s)[n]?.getD 0 + (pieces '\n' s)[n].length := by
  induction s generalizing pos n with
  | nil =>
    have hzero : n = 0 := by
      rw [pieces] at hn
      simpa using hn
    subst hzero
    rfl
  | cons c rest ih =>
    have hend : pos + 1 + rest.length = pos + (c :: rest).length := by
      rw [List.length_cons]
      omega
    by_cases hc : c = '\n'
    -- The first line is empty, and the others are the lines of the rest.
    · subst hc
      cases n with
      | zero => rfl
      | succ n =>
        have hrest := ih (pos + 1) n (by simpa [pieces] using hn)
        rw [hend] at hrest
        simpa [startsFrom, pieces] using hrest
    -- The first line is a character longer than that of the rest, and begins a character earlier.
    · obtain ⟨first, more, hrest, hcons⟩ := exists_pieces '\n' rest
      have hcons := hcons c hc
      have hbelow := ih (pos + 1)
      simp only [hrest, hcons, startsFrom, if_neg hc, hend] at hbelow hn ⊢
      cases n with
      | zero =>
        have hfirst := hbelow 0 (Nat.zero_lt_succ _)
        simp only [List.getElem?_cons_zero, Option.getD_some, List.getElem_cons_zero,
          List.length_cons] at hfirst ⊢
        omega
      | succ n => exact hbelow (n + 1) hn

theorem lineCount_eq_length_pieces (s : List Char) :
    (ofChars s).lineCount = (pieces '\n' s).length := by
  rw [lineCount_ofChars, length_pieces]

/-- A line ends as many characters behind its start as it has. -/
theorem lineEnd_ofChars (s : List Char) {line : Nat} (hpos : 0 < line)
    (hle : line ≤ (ofChars s).lineCount) :
    (ofChars s).lineEnd line = (ofChars s).lineStart line + lineLength s line := by
  obtain ⟨n, rfl⟩ : ∃ n, line = n + 1 := ⟨line - 1, by omega⟩
  have hn : n < (pieces '\n' s).length := by
    rw [lineCount_eq_length_pieces] at hle
    omega
  have hend := end_startsFrom 0 s n hn
  rw [Nat.zero_add] at hend
  rw [lineLength, Nat.add_sub_cancel, List.getElem?_eq_getElem hn, Option.getD_some]
  exact hend

namespace Ordered

variable {x : LineIndex}

/-- A line ends before each later one starts. -/
theorem lineEnd_lt_lineStart (h : x.Ordered) {line later : Nat} (hpos : 0 < line)
    (hlt : line < later) (hle : later ≤ x.lineCount) : x.lineEnd line < x.lineStart later := by
  obtain ⟨m, rfl⟩ : ∃ m, later = m + 1 := ⟨later - 1, by omega⟩
  have hline : line < x.starts.length := by
    unfold lineCount at hle
    omega
  have hnext : x.starts[line] ≤ x.starts[m] :=
    (h.ascending.imp Nat.le_of_lt).rel_get_of_le (a := ⟨line, hline⟩) (b := ⟨m, hle⟩)
      (Fin.mk_le_mk.mpr (by omega))
  have hbehind : x.starts[line - 1] < x.starts[line] :=
    List.pairwise_iff_getElem.mp h.ascending _ _ (by omega) hline (by omega)
  rw [lineStart_succ hle, lineEnd, List.getElem?_eq_getElem hline]
  show x.starts[line] - 1 < x.starts[m]
  omega

/-- Every offset of the text lies between the start and the end of a line. -/
theorem exists_line (h : x.Ordered) {offset : Nat} (hle : offset ≤ x.length) :
    ∃ line, 0 < line ∧ line ≤ x.lineCount ∧ x.lineStart line ≤ offset ∧
      offset ≤ x.lineEnd line := by
  obtain ⟨rest, hstarts⟩ : ∃ rest, x.starts = 0 :: rest := List.head?_eq_some_iff.mp h.first
  obtain ⟨n, hn, hlow, hhigh⟩ := exists_last_le rest (Nat.zero_le offset)
  rw [← hstarts] at hn
  simp only [← hstarts] at hlow hhigh
  refine ⟨n + 1, Nat.succ_pos n, hn, ?_, ?_⟩
  · rw [lineStart_succ hn]
    exact hlow
  · rw [lineEnd]
    split
    · rename_i next hnext
      exact Nat.le_sub_one_of_lt (hhigh next hnext)
    · exact hle

/-- The offset of an offset's line and column is the offset itself. -/
theorem offset_position (h : x.Ordered) {offset : Nat} (hle : offset ≤ x.length) :
    x.offset (x.position offset).1 (x.position offset).2 = offset := by
  obtain ⟨line, hpos, hcount, hstart, hend⟩ := h.exists_line hle
  rw [h.position_between hpos hcount hstart hend]
  unfold LineIndex.offset
  rw [clampLine_natCast hpos hcount]
  dsimp only
  omega

/-- Offsets further on have a later line, or the same line and a later column. -/
theorem position_lt (h : x.Ordered) {a b : Nat} (hab : a < b) (hb : b ≤ x.length) :
    toLex (x.position a) < toLex (x.position b) := by
  obtain ⟨line, hpos, hcount, hstart, hend⟩ := h.exists_line (Nat.le_trans (Nat.le_of_lt hab) hb)
  obtain ⟨line', hpos', hcount', hstart', hend'⟩ := h.exists_line hb
  rw [h.position_between hpos hcount hstart hend, h.position_between hpos' hcount' hstart' hend',
    Prod.Lex.toLex_lt_toLex]
  rcases Nat.lt_trichotomy line line' with hlt | rfl | hgt
  · exact .inl hlt
  · exact .inr ⟨rfl, by dsimp only; omega⟩
  -- A later line of the smaller offset would start behind the greater one.
  · have hapart := h.lineEnd_lt_lineStart hpos' hgt hcount
    omega

end Ordered

/-- Offsets, and lines with columns, name the same places: every offset is found again from its line
and column; a line and a column outside the text stand for the nearest line and the nearest column of
it; and positions are in the order of their offsets. -/
theorem positions_name_offsets (s : List Char) :
    (ofChars s).lineCount = (pieces '\n' s).length ∧
    (∀ o : Fin (s.length + 1),
      (ofChars s).offset ((ofChars s).position (o : Nat)).1 ((ofChars s).position (o : Nat)).2 = o) ∧
    (∀ line column : Int, (ofChars s).offset line column ≤ s.length ∧
      ∃ l c : Nat, (ofChars s).position ((ofChars s).offset line column) = (l, c) ∧
        (l : Int) = max 1 (min line (ofChars s).lineCount) ∧
        (c : Int) = max 1 (min column (lineLength s l + 1))) ∧
    StrictMono fun o : Fin (s.length + 1) => toLex ((ofChars s).position (o : Nat)) := by
  have hordered : (ofChars s).Ordered := ordered_ofChars s
  refine ⟨lineCount_eq_length_pieces s, fun o => hordered.offset_position (Nat.le_of_lt_succ o.isLt),
    fun line column => ?_, fun a b hab => hordered.position_lt hab (Nat.le_of_lt_succ b.isLt)⟩
  have hpos := hordered.clampLine_pos line
  have hend : (ofChars s).lineEnd ((ofChars s).clampLine line) =
      (ofChars s).lineStart ((ofChars s).clampLine line) +
        lineLength s ((ofChars s).clampLine line) :=
    lineEnd_ofChars s hpos (clampLine_le line)
  have hline := coe_clampLine (x := ofChars s) line
  refine ⟨hordered.offset_le_length line column, _, _, hordered.position_offset line column, ?_, ?_⟩
  · omega
  · have hoffset : (ofChars s).offset line column =
        min ((ofChars s).lineStart ((ofChars s).clampLine line) + (column - 1).toNat)
          ((ofChars s).lineEnd ((ofChars s).clampLine line)) := rfl
    omega

end LineIndex

end PolicyEditor.Text
