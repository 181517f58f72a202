import Mathlib.Data.List.Pairwise
import PolicyEditor.Proofs.Text.Lines
import PolicyEditor.Schema.Document

/-!
Blocks of a document. They follow one another, so that a line stands in at most one of them.
-/

namespace PolicyEditor.Schema

def Block.Holds (b : Block) (line : Nat) : Prop :=
  b.startLine < line ∧ line < b.endLine

/-- A character stands between the two lines of a block: after the end of the first one and before
the start of the other. -/
def Block.Encloses (b : Block) (text : List Char) (offset : Nat) : Prop :=
  Text.linesEnd b.startLine text ≤ offset ∧ offset < Text.linesEnd (b.endLine - 1) text

theorem le_startLine_of_mem {opened : Option (String × Nat)} {lines : List (List Char)}
    {low number : Nat} (hopened : ∀ o ∈ opened, low ≤ o.2) (hnumber : low ≤ number) :
    ∀ b ∈ blocksFrom opened number lines, low ≤ b.startLine := by
  fun_induction blocksFrom opened number lines with
  | case1 => exact fun _ hb => nomatch hb
  | case2 number line rest ih =>
    refine ih (fun o ho => ?_) (Nat.le_succ_of_le hnumber)
    obtain ⟨name, -, rfl⟩ := Option.map_eq_some_iff.mp ho
    exact hnumber
  | case3 number line rest name start _ ih =>
    refine List.forall_mem_cons.mpr ⟨hopened _ rfl, ih ?_ (Nat.le_succ_of_le hnumber)⟩
    exact fun _ ho => nomatch ho
  | case4 number line rest name start _ ih => exact ih hopened (Nat.le_succ_of_le hnumber)

/-- Each block ends before the next one begins. -/
theorem blocksFrom_pairwise (opened : Option (String × Nat)) (number : Nat)
    (lines : List (List Char)) :
    (blocksFrom opened number lines).Pairwise fun a b => a.endLine < b.startLine := by
  fun_induction blocksFrom opened number lines with
  | case1 => exact .nil
  | case2 number line rest ih => exact ih
  | case3 number line rest name start _ ih =>
    refine .cons (fun b hb => ?_) ih
    have hnone : ∀ o ∈ (none : Option (String × Nat)), number + 1 ≤ o.2 := fun _ ho => nomatch ho
    exact le_startLine_of_mem hnone (Nat.le_refl (number + 1)) b hb
  | case4 number line rest name start _ ih => exact ih

theorem Block.Holds.unique {text : List Char} {a b : Block} {line : Nat} (ha : a ∈ blocks text)
    (hb : b ∈ blocks text) (hline : a.Holds line) (hline' : b.Holds line) : a = b := by
  by_contra hne
  have hapart : (blocks text).Pairwise fun a b => a.endLine < b.startLine ∨
      b.endLine < a.startLine := (blocksFrom_pairwise none 1 _).imp .inl
  have : Std.Symm fun a b : Block => a.endLine < b.startLine ∨ b.endLine < a.startLine :=
    ⟨fun _ _ h => h.symm⟩
  have hboth := hapart.forall ha hb hne
  unfold Block.Holds at hline hline'
  omega

/-- The block that a line stands in is found. -/
theorem blockAt?_eq_some_iff {text : List Char} {line : Nat} {b : Block} :
    blockAt? (blocks text) line = some b ↔ b ∈ blocks text ∧ b.Holds line := by
  unfold blockAt?
  constructor
  · intro h
    have hline := List.find?_some h
    rw [Bool.and_eq_true, decide_eq_true_eq, decide_eq_true_eq] at hline
    exact ⟨List.mem_of_find?_eq_some h, hline⟩
  · rintro ⟨hmem, hline⟩
    cases hfound : (blocks text).find? fun b => b.startLine < line && line < b.endLine with
    | none =>
      have hnot := List.find?_eq_none.mp hfound b hmem
      rw [Bool.and_eq_true, decide_eq_true_eq, decide_eq_true_eq] at hnot
      exact absurd hline hnot
    | some a =>
      have hline' := List.find?_some hfound
      rw [Bool.and_eq_true, decide_eq_true_eq, decide_eq_true_eq] at hline'
      rw [Block.Holds.unique (List.mem_of_find?_eq_some hfound) hmem hline' hline]

theorem blockAt?_eq_none_iff {text : List Char} {line : Nat} :
    blockAt? (blocks text) line = none ↔ ∀ b ∈ blocks text, ¬ b.Holds line := by
  constructor
  · intro h b hb hline
    rw [blockAt?_eq_some_iff.mpr ⟨hb, hline⟩] at h
    cases h
  · intro h
    refine Option.eq_none_iff_forall_ne_some.mpr fun b hb => ?_
    obtain ⟨hmem, hline⟩ := blockAt?_eq_some_iff.mp hb
    exact h b hmem hline

/-- Where every line break before a character is a newline, a block encloses the character exactly
if it holds the line that counting newlines gives. -/
theorem Block.encloses_iff {c : Char} (hc : Text.isLineBreak c = false) {before : List Char}
    (hbefore : Text.plainBreaks before = true) (b : Block) (after : List Char) :
    b.Encloses (before ++ c :: after) before.length ↔ b.Holds (1 + before.count '\n') := by
  rw [Block.Encloses, Block.Holds, ← Nat.not_le, Text.linesEnd_le_iff hc, Text.linesEnd_le_iff hc,
    Text.lineBreaks_eq_count hbefore]
  omega

end PolicyEditor.Schema
