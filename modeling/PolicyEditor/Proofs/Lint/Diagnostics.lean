import Mathlib.Data.Prod.Lex
import PolicyEditor.Lint.Diagnostic
import PolicyEditor.Proofs.Text.Positions

/-!
The diagnostics of a linter's findings. Wherever a finding stands, within the text or far beyond it,
its diagnostic covers a range of the text, and its line and column are those of where the range
begins. Only findings of rules that are left out get lost, and diagnostics of one range keep the
order of the linter.
-/

namespace PolicyEditor.Lint

open PolicyEditor.Text (LineIndex)

/-! ### Order -/

/-- Sorting leaves alone what is equal in the order. -/
theorem filter_mergeSort {α : Type} {le : α → α → Bool}
    (htrans : ∀ a b c, le a b = true → le b c = true → le a c = true)
    (htotal : ∀ a b, (le a b || le b a) = true) {p : α → Bool}
    (hequal : ∀ a b, p a = true → p b = true → le a b = true) (l : List α) :
    (l.mergeSort le).filter p = l.filter p := by
  have hsorted : (l.filter p).Pairwise fun a b => le a b = true :=
    List.pairwise_of_forall_mem_list fun a ha b hb =>
      hequal a b (List.mem_filter.mp ha).2 (List.mem_filter.mp hb).2
  have hsub := (List.sublist_mergeSort htrans htotal hsorted List.filter_sublist).filter p
  simp only [List.filter_filter, Bool.and_self] at hsub
  exact (hsub.eq_of_length ((List.mergeSort_perm l le).symm.filter p).length_eq).symm

def Diagnostic.range (d : Diagnostic) : Int ×ₗ Int :=
  toLex (d.fromOffset, d.toOffset)

theorem Diagnostic.before_iff {a b : Diagnostic} : a.before b = true ↔ a.range ≤ b.range := by
  simp only [before, range, Prod.Lex.toLex_le_toLex, Bool.or_eq_true, Bool.and_eq_true,
    decide_eq_true_eq, beq_iff_eq]

theorem Diagnostic.before_trans (a b c : Diagnostic) (hab : a.before b = true)
    (hbc : b.before c = true) : a.before c = true :=
  before_iff.mpr ((before_iff.mp hab).trans (before_iff.mp hbc))

theorem Diagnostic.before_total (a b : Diagnostic) : (a.before b || b.before a) = true := by
  rw [Bool.or_eq_true, before_iff, before_iff]
  exact le_total a.range b.range

/-! ### Findings -/

/-- The findings whose rule is not left out. One without a rule always stays. -/
def kept (suppressed : List String) (violations : List Violation) : List Violation :=
  violations.filter fun v => ∀ rule ∈ v.rule, rule ∉ suppressed

theorem Violation.suppressedBy_eq_false_iff {suppressed : List String} {v : Violation} :
    v.suppressedBy suppressed = false ↔ ∀ rule ∈ v.rule, rule ∉ suppressed := by
  cases hrule : v.rule with
  | none => simp [suppressedBy, hrule]
  | some rule => simp [suppressedBy, hrule]

theorem diagnostics_eq (suppressed : List String) (text : List Char)
    (violations : List Violation) :
    diagnostics suppressed text violations =
      ((kept suppressed violations).map (Violation.toDiagnostic (.ofChars text))).mergeSort
        Diagnostic.before := by
  have hkept : (violations.filter fun v => !v.suppressedBy suppressed) =
      kept suppressed violations := by
    refine List.filter_congr fun v _ => ?_
    rw [Bool.eq_iff_iff, Bool.not_eq_true', decide_eq_true_iff]
    exact Violation.suppressedBy_eq_false_iff
  rw [diagnostics, hkept]

/-- The place of a finding in a text, as near as the text comes to it: a range in the text, which
covers a character unless it stands at the end, and the position of where the range begins. -/
structure Diagnostic.Places (text : List Char) (v : Violation) (d : Diagnostic) : Prop where
  from_nonneg : 0 ≤ d.fromOffset
  from_le_to : d.fromOffset ≤ d.toOffset
  to_le : d.toOffset ≤ text.length
  covers : d.fromOffset ≠ text.length → d.fromOffset < d.toOffset
  line : d.line = min (max v.location.row 1) (text.count '\n' + 1)
  position : d.line = ((LineIndex.ofChars text).position d.fromOffset).1 ∧
    d.column = ((LineIndex.ofChars text).position d.fromOffset).2

theorem Violation.places_toDiagnostic (text : List Char) (v : Violation) :
    (v.toDiagnostic (.ofChars text)).Places text v := by
  have hordered := LineIndex.ordered_ofChars text
  have hlength : (LineIndex.ofChars text).length = text.length := rfl
  have hrow := LineIndex.coe_clampLine (x := .ofChars text) v.location.row
  rw [LineIndex.lineCount_ofChars] at hrow
  have hwithin := hordered.offset_le_length v.location.row v.location.col
  have hbetween := hordered.offset_between v.location.row v.location.col
  have hposition := hordered.position_offset v.location.row v.location.col
  exact {
    from_nonneg := by simp only [toDiagnostic]; omega
    from_le_to := by simp only [toDiagnostic]; omega
    to_le := by simp only [toDiagnostic, hordered.offset_clampLine]; omega
    covers := by simp only [toDiagnostic, hordered.offset_clampLine]; omega
    line := by simp only [toDiagnostic]; omega
    position := by
      simp only [toDiagnostic, hordered.offset_clampLine, hposition, true_and]
      omega }

/-- The diagnostics of findings are those of the kept ones, in the order of their ranges, and those of
one range in the order of the findings. Each stands in its place in the text. -/
theorem diagnostics_sort_kept (suppressed : List String) (text : List Char)
    (violations : List Violation) :
    let images := (kept suppressed violations).map (Violation.toDiagnostic (.ofChars text))
    let found := diagnostics suppressed text violations
    found.Perm images ∧ (found.Pairwise fun a b => a.range ≤ b.range) ∧
      (∀ range, found.filter (·.range = range) = images.filter (·.range = range)) ∧
      ∀ v : Violation, (v.toDiagnostic (.ofChars text)).Places text v := by
  intro images found
  have hfound : found = images.mergeSort Diagnostic.before :=
    diagnostics_eq suppressed text violations
  refine ⟨hfound ▸ List.mergeSort_perm images _, ?_, fun range => ?_,
    Violation.places_toDiagnostic text⟩
  · rw [hfound]
    exact (List.pairwise_mergeSort Diagnostic.before_trans Diagnostic.before_total images).imp
      Diagnostic.before_iff.mp
  · rw [hfound]
    refine filter_mergeSort Diagnostic.before_trans Diagnostic.before_total ?_ images
    intro a b ha hb
    rw [Diagnostic.before_iff, of_decide_eq_true ha, of_decide_eq_true hb]

end PolicyEditor.Lint
