import PolicyEditor.Json.Encode
import PolicyEditor.Proofs.Json.StringText

/-!
How strings are written in documents. A character stands for itself, or for it stands an escape of one
letter or of its number. Whichever way each character is written, the string is read back, and the
writer writes each in one of these ways.
-/

namespace PolicyEditor.Json

def shortEscapes : List (Char × Char) :=
  [('"', '"'), ('\\', '\\'), ('/', '/'), ('b', '\x08'), ('f', '\x0C'), ('n', '\n'), ('r', '\r'),
   ('t', '\t')]

def SpellsUnit (ds : List Char) (n : Nat) : Prop :=
  ∃ a b c d x y z w, ds = [a, b, c, d] ∧ hexValue? a = some x ∧ hexValue? b = some y ∧
    hexValue? c = some z ∧ hexValue? d = some w ∧ n = 4096 * x + 256 * y + 16 * z + w

/-- The ways to write a character of a string. Above U+FFFF its number is written in two halves. -/
inductive SpellsChar : List Char → Char → Prop where
  | plain {c : Char} : c ≠ '"' → c ≠ '\\' → 0x20 ≤ c.toNat → SpellsChar [c] c
  | short {e c : Char} : (e, c) ∈ shortEscapes → SpellsChar ['\\', e] c
  | unit {ds : List Char} {c : Char} : SpellsUnit ds c.toNat → SpellsChar ('\\' :: 'u' :: ds) c
  | halves {high low : List Char} {c : Char} : 0x10000 ≤ c.toNat →
      SpellsUnit high (0xD800 + (c.toNat - 0x10000) / 0x400) →
      SpellsUnit low (0xDC00 + (c.toNat - 0x10000) % 0x400) →
      SpellsChar ('\\' :: 'u' :: high ++ '\\' :: 'u' :: low) c

/-- A text writes a string, each character in one of its ways. -/
inductive Spells : List Char → List Char → Prop where
  | nil : Spells [] []
  | cons {raw s chars : List Char} {c : Char} :
      SpellsChar raw c → Spells s chars → Spells (raw ++ s) (c :: chars)

/-! ### Reading -/

theorem SpellsUnit.hexFour? {ds : List Char} {n : Nat} (h : SpellsUnit ds n) (rest : List Char) :
    hexFour? (ds ++ rest) = some (n, rest) := by
  obtain ⟨a, b, c, d, x, y, z, w, rfl, ha, hb, hc, hd, rfl⟩ := h
  simp only [List.cons_append, List.nil_append, Json.hexFour?, ha, hb, hc, hd]
  rfl

theorem SpellsUnit.isHex {ds : List Char} {n : Nat} (h : SpellsUnit ds n) :
    ∃ a b c d, ds = [a, b, c, d] ∧ IsHex a ∧ IsHex b ∧ IsHex c ∧ IsHex d := by
  obtain ⟨a, b, c, d, x, y, z, w, rfl, ha, hb, hc, hd, -⟩ := h
  exact ⟨a, b, c, d, rfl, hexValue?_isSome_iff.mp (Option.isSome_of_eq_some ha),
    hexValue?_isSome_iff.mp (Option.isSome_of_eq_some hb),
    hexValue?_isSome_iff.mp (Option.isSome_of_eq_some hc),
    hexValue?_isSome_iff.mp (Option.isSome_of_eq_some hd)⟩

theorem SpellsUnit.stringText {ds s : List Char} {n : Nat} (h : SpellsUnit ds n)
    (hs : StringText s) : StringText ('\\' :: 'u' :: ds ++ s) := by
  obtain ⟨a, b, c, d, rfl, ha, hb, hc, hd⟩ := h.isHex
  exact .unicode ha hb hc hd hs

theorem simpleEscape?_of_mem {e c : Char} (h : (e, c) ∈ shortEscapes) :
    simpleEscape? e = some c ∧ e ≠ 'u' := by
  have hall : ∀ p ∈ shortEscapes, simpleEscape? p.1 = some p.2 ∧ p.1 ≠ 'u' := by decide
  exact hall (e, c) h

/-- No character is half of another one. -/
theorem not_half (c : Char) : isHighHalf c.toNat = false ∧ isLowHalf c.toNat = false := by
  have hvalid : c.toNat < 0xD800 ∨ 0xDFFF < c.toNat ∧ c.toNat < 0x110000 := c.valid
  simp only [isHighHalf, isLowHalf, Bool.and_eq_false_iff, decide_eq_false_iff_not]
  omega

theorem unitChar_toNat (c : Char) : unitChar c.toNat = c := by
  obtain ⟨hhigh, hlow⟩ := not_half c
  simp only [unitChar, hhigh, hlow, Bool.or_self, Bool.false_eq_true, if_false, Char.ofNat_toNat]

/-- The halves of a character above U+FFFF. -/
theorem halves_toNat {c : Char} (h : 0x10000 ≤ c.toNat) :
    isHighHalf (0xD800 + (c.toNat - 0x10000) / 0x400) = true ∧
      isLowHalf (0xDC00 + (c.toNat - 0x10000) % 0x400) = true ∧
      joinHalves (0xD800 + (c.toNat - 0x10000) / 0x400)
        (0xDC00 + (c.toNat - 0x10000) % 0x400) = c := by
  have hvalid : c.toNat < 0xD800 ∨ 0xDFFF < c.toNat ∧ c.toNat < 0x110000 := c.valid
  refine ⟨?_, ?_, ?_⟩
  · simp only [isHighHalf, Bool.and_eq_true, decide_eq_true_eq]
    omega
  · simp only [isLowHalf, Bool.and_eq_true, decide_eq_true_eq]
    omega
  · have hjoined : 0x10000 + (0xD800 + (c.toNat - 0x10000) / 0x400 - 0xD800) * 0x400 +
        (0xDC00 + (c.toNat - 0x10000) % 0x400 - 0xDC00) = c.toNat := by omega
    rw [joinHalves, hjoined, Char.ofNat_toNat]

/-- A character that is written by its number is read whatever follows it, be it another one. -/
theorem SpellsUnit.unicodeEscape {ds after : List Char} {c : Char} (h : SpellsUnit ds c.toNat)
    (hafter : after ≠ []) (mark : List Char) :
    unicodeEscape mark (ds ++ after) = .ok (c, after) := by
  obtain ⟨d, rest, rfl⟩ := List.exists_cons_of_ne_nil hafter
  simp only [Json.unicodeEscape, h.hexFour?, (not_half c).1, Bool.false_and, Bool.false_eq_true,
    if_false, unitChar_toNat]

theorem unicodeEscape_halves {high low after : List Char} {c : Char} (hc : 0x10000 ≤ c.toNat)
    (hhigh : SpellsUnit high (0xD800 + (c.toNat - 0x10000) / 0x400))
    (hlow : SpellsUnit low (0xDC00 + (c.toNat - 0x10000) % 0x400)) (hafter : after ≠ [])
    (mark : List Char) :
    unicodeEscape mark (high ++ '\\' :: 'u' :: (low ++ after)) = .ok (c, after) := by
  obtain ⟨isHigh, isLow, hjoin⟩ := halves_toNat hc
  have hlong : 4 < (low ++ after).length := by
    obtain ⟨_, _, _, _, rfl, -⟩ := hlow.isHex
    have hpositive := List.length_pos_iff.mpr hafter
    simp only [List.length_append, List.length_cons, List.length_nil]
    omega
  rw [unicodeEscape_pair mark (hhigh.hexFour? _) (hlow.hexFour? after) hlong, isHigh, isLow, hjoin]
  rfl

theorem SpellsChar.stringText {raw s : List Char} {c : Char} (h : SpellsChar raw c)
    (hs : StringText s) : StringText (raw ++ s) := by
  cases h with
  | plain hquote hslash hprint => exact .plain hquote hslash hprint hs
  | short hmem =>
    exact .escape (simpleEscape?_isSome_iff.mp
      (Option.isSome_of_eq_some (simpleEscape?_of_mem hmem).1)) hs
  | unit hunit => exact hunit.stringText hs
  | halves _ hhigh hlow =>
    rw [List.append_assoc]
    exact hhigh.stringText (hlow.stringText hs)

/-- In front of what is read, a character is read too. -/
theorem SpellsChar.standsFor {raw s chars : List Char} {c : Char} (h : SpellsChar raw c)
    (hs : StandsFor s chars) : StandsFor (raw ++ s) (c :: chars) := by
  intro start after rounds hrounds
  obtain ⟨rounds, rfl⟩ : ∃ r, rounds = r + 1 := ⟨rounds - 1, by omega⟩
  have hslash : '\\' ≠ '"' := by decide
  rw [List.length_append] at hrounds
  have hnext : 0 < raw.length → string start rounds (s ++ '"' :: after) = .ok (chars, after) :=
    fun hraw => hs start after rounds (by omega)
  have hend : s ++ '"' :: after ≠ [] := List.append_ne_nil_of_right_ne_nil _ nofun
  cases h with
  | plain hquote hbackslash hprint =>
    simp only [List.cons_append, List.nil_append, string, hquote, hbackslash,
      Nat.not_lt.mpr hprint, if_false, hnext (Nat.succ_pos _)]
    rfl
  | short hmem =>
    obtain ⟨hescape, hu⟩ := simpleEscape?_of_mem hmem
    simp only [List.cons_append, List.nil_append, string, hslash, hu, hescape, if_true, if_false,
      hnext (Nat.succ_pos _)]
    rfl
  | unit hunit =>
    simp only [List.cons_append, List.append_assoc, string, hslash, if_true, if_false,
      hunit.unicodeEscape hend, bind, Except.bind, hnext (Nat.succ_pos _)]
    rfl
  | halves hc hhigh hlow =>
    simp only [List.cons_append, List.append_assoc, string, hslash, if_true, if_false,
      unicodeEscape_halves hc hhigh hlow hend, bind, Except.bind, hnext (Nat.succ_pos _)]
    rfl

theorem Spells.stringText {raw chars : List Char} (h : Spells raw chars) : StringText raw := by
  induction h with
  | nil => exact .nil
  | cons hc _ ih => exact hc.stringText ih

theorem Spells.standsFor {raw chars : List Char} (h : Spells raw chars) :
    StandsFor raw chars := by
  induction h with
  | nil =>
    intro start after rounds hrounds
    obtain ⟨rounds, rfl⟩ : ∃ r, rounds = r + 1 := ⟨rounds - 1, by omega⟩
    simp only [List.nil_append, string, if_true]
  | cons hc _ ih => exact hc.standsFor ih

/-! ### Writing -/

theorem hexValue?_hexDigit {n : Nat} (h : n < 16) : hexValue? (Text.hexDigit n) = some n := by
  have hall : ∀ d < 16, hexValue? (Text.hexDigit d) = some d := by decide
  exact hall n h

theorem spellsUnit_hexDigits {n : Nat} (h : n < 0x10000) : SpellsUnit (Text.hexDigits 4 n) n := by
  refine ⟨_, _, _, _, n / 4096 % 16, n / 256 % 16, n / 16 % 16, n % 16, rfl, ?_, ?_, ?_, ?_, ?_⟩
  · rw [show n / 16 / 16 / 16 % 16 = n / 4096 % 16 by omega]
    exact hexValue?_hexDigit (by omega)
  · rw [show n / 16 / 16 % 16 = n / 256 % 16 by omega]
    exact hexValue?_hexDigit (by omega)
  · exact hexValue?_hexDigit (by omega)
  · exact hexValue?_hexDigit (by omega)
  · omega

theorem spellsChar_wideEscape (c : Char) : SpellsChar (wideEscape c) c := by
  have hvalid : c.toNat < 0xD800 ∨ 0xDFFF < c.toNat ∧ c.toNat < 0x110000 := c.valid
  unfold wideEscape
  by_cases hwide : c.toNat < 0x10000
  · simp only [hwide, if_true]
    exact .unit (spellsUnit_hexDigits hwide)
  · simp only [hwide, if_false]
    exact .halves (Nat.not_lt.mp hwide) (spellsUnit_hexDigits (by omega))
      (spellsUnit_hexDigits (by omega))

/-- The writer writes each character in one of its ways. -/
theorem spellsChar_stringChar (ascii : Bool) (c : Char) : SpellsChar (stringChar ascii c) c := by
  have hshort : ∀ p ∈ shortEscapes, SpellsChar ['\\', p.1] p.2 := fun _ hp => .short hp
  simp only [shortEscapes, List.forall_mem_cons] at hshort
  obtain ⟨hquote, hslash, -, hb, hf, hn, hr, ht, -⟩ := hshort
  unfold stringChar
  split
  · subst c; exact hquote
  split
  · subst c; exact hslash
  split
  · subst c; exact hn
  split
  · subst c; exact hr
  split
  · subst c; exact ht
  split
  · subst c; exact hb
  split
  · subst c; exact hf
  split
  · exact .unit (spellsUnit_hexDigits (by omega))
  split
  · exact spellsChar_wideEscape c
  · exact .plain ‹_› ‹_› (by omega)

theorem spells_flatMap_stringChar (ascii : Bool) (chars : List Char) :
    Spells (chars.flatMap (stringChar ascii)) chars := by
  induction chars with
  | nil => exact .nil
  | cons c rest ih => exact .cons (spellsChar_stringChar ascii c) ih

end PolicyEditor.Json
