import PolicyEditor.Text.Classes
import PolicyEditor.Text.Word

/-!
Classes of characters that share no character: blanks, digits, and the letters with which names
begin.
-/

namespace PolicyEditor.Text

def Ranges.apart (a b : Ranges) : Bool :=
  a.all fun r => b.all fun s => r.2 < s.1 || s.2 < r.1

theorem Ranges.contains_eq_false_of_apart {a b : Ranges} {n : Nat} (h : a.apart b = true)
    (hn : a.contains n = true) : b.contains n = false := by
  obtain ⟨r, hr, hlo, hhi⟩ := contains_iff.mp hn
  apply Bool.eq_false_iff.mpr
  intro hb
  obtain ⟨s, hs, hlo', hhi'⟩ := contains_iff.mp hb
  have hrs := List.all_eq_true.mp (List.all_eq_true.mp h r hr) s hs
  simp only [Bool.or_eq_true, decide_eq_true_eq] at hrs
  omega

theorem isDigit_ascii {c : Char} (h : c.isDigit = true) : 0x30 ≤ c.toNat ∧ c.toNat ≤ 0x39 := by
  simp only [Char.isDigit, Bool.and_eq_true, decide_eq_true_eq, ge_iff_le, UInt32.le_iff_toNat_le]
    at h
  exact h

theorem isUpper_ascii {c : Char} (h : c.isUpper = true) : 0x41 ≤ c.toNat ∧ c.toNat ≤ 0x5A := by
  exact of_decide_eq_true h

theorem isLower_ascii {c : Char} (h : c.isLower = true) : 0x61 ≤ c.toNat ∧ c.toNat ≤ 0x7A := by
  have hbounds : (decide (c.val ≥ 0x61) && decide (c.val ≤ 0x7A)) = true := h
  obtain ⟨hlo, hhi⟩ := Bool.and_eq_true_iff.mp hbounds
  exact ⟨of_decide_eq_true hlo, of_decide_eq_true hhi⟩

/-- Names begin with characters between the digits and the end of ASCII. -/
theorem isNameStart_ascii {c : Char} (h : isNameStart c = true) :
    0x41 ≤ c.toNat ∧ c.toNat ≤ 0x7A := by
  rcases Bool.or_eq_true_iff.mp h with hletter | hunderscore
  · rcases Bool.or_eq_true_iff.mp hletter with hupper | hlower
    · have hascii := isUpper_ascii hupper
      omega
    · have hascii := isLower_ascii hlower
      omega
  · rw [beq_iff_eq.mp hunderscore]
    decide

theorem isBlank_eq_false_of_isDigit {c : Char} (h : isDigit c = true) : isBlank c = false := by
  simp only [isDigit, isDecimal, Bool.or_eq_true, Bool.and_eq_true] at h
  rcases h with (h | h) | h
  · have hascii := isDigit_ascii h
    apply Ranges.contains_eq_false_of_apart (a := [(0x30, 0x39)]) (by decide)
    exact Ranges.contains_iff.mpr ⟨_, List.mem_singleton_self _, hascii⟩
  · exact Ranges.contains_eq_false_of_apart (by decide) h.2
  · exact Ranges.contains_eq_false_of_apart (by decide) h.2

theorem isBlank_eq_false_of_isNameStart {c : Char} (h : isNameStart c = true) :
    isBlank c = false := by
  apply Ranges.contains_eq_false_of_apart (a := [(0x41, 0x7A)]) (by decide)
  exact Ranges.contains_iff.mpr ⟨_, List.mem_singleton_self _, isNameStart_ascii h⟩

theorem isDigit_eq_false_of_isNameStart {c : Char} (h : isNameStart c = true) :
    isDigit c = false := by
  have hascii := isNameStart_ascii h
  have hlow : ¬ 0x7F < c.toNat := by omega
  have hdigit : c.isDigit = false := by
    apply Bool.eq_false_iff.mpr
    intro hd
    have hrange := isDigit_ascii hd
    omega
  simp only [isDigit, isDecimal, hlow, hdigit, decide_false, Bool.false_and, Bool.or_false]

end PolicyEditor.Text
