import PolicyEditor.Proofs.Expression.Layout
import PolicyEditor.Proofs.Token.Boundary
import PolicyEditor.Proofs.Token.Splitting

/-!
The tokens of a printed expression are its lexemes: with a space between them none runs into the
next.
-/

namespace PolicyEditor

open PolicyEditor.Grammar (Item itemsAfter)
open PolicyEditor.Text (isBlank isNameStart)

namespace Token

theorem Name.of_all {c : Char} {rest : List Char} (hc : isNameStart c = true)
    (h : rest.all isIdentifierChar = true) : Name (c :: rest) := by
  refine ⟨c, rest, rfl, hc, fun d hd => ?_⟩
  have hchar := List.all_eq_true.mp h d hd
  rwa [isIdentifierChar, Bool.or_eq_true] at hchar

theorem name_keyword (word : Keyword) : Name word.text.toList := by
  cases word <;> exact Name.of_all (by decide) (by decide)

theorem Stands.begins {k : Kind} {s rest : List Char} (h : Stands k s)
    (hrest : rest = [] ∨ ∃ more, rest = ' ' :: more) : Begins k s rest := by
  have hlongest : ∀ {P : List Char → Prop}, (∀ t, P t → ∀ c ∈ t, isBlank c = false) → P s →
      Longest P s rest := by
    intro P hP hs
    -- A longer text of the class would have the space in it.
    rcases hrest with rfl | ⟨more, rfl⟩
    · exact longest_self hs
    · refine (longest_self hs).of_stop (fun t ht hmem => ?_) more
      exact absurd (hP t ht ' ' hmem) (by decide)
  cases h with
  | sign h => exact .sign (hlongest (fun _ => Sign.no_blank) ⟨k, h⟩) h
  | keyword word => exact .keyword word (hlongest (fun _ => Name.no_blank) (name_keyword word))
  | identifier hname hword => exact .identifier (hlongest (fun _ => Name.no_blank) hname) hword
  | number h => exact .number (hlongest (fun _ => Numeral.no_blank) h)
  | string h => exact .string (h.longest rest)
  | rawString h => exact .rawString (h.longest rest)

/-- A token that stands by itself begins with no blank, and is neither blank nor comment. -/
theorem Stands.visible {k : Kind} {s : List Char} (h : Stands k s) :
    (∃ c tail, s = c :: tail ∧ isBlank c = false) ∧ k.isTrivia = false := by
  have hhead : ∀ {s : List Char}, (∀ c ∈ s, isBlank c = false) → s ≠ [] →
      ∃ c tail, s = c :: tail ∧ isBlank c = false := by
    intro s hs hne
    obtain ⟨c, tail, rfl⟩ := List.exists_cons_of_ne_nil hne
    exact ⟨c, tail, rfl, hs c List.mem_cons_self⟩
  cases h with
  | sign h =>
    refine ⟨hhead h.no_blank ?_, ?_⟩
    · cases h with
      | operator sign => cases sign <;> decide
      | mark sign => cases sign <;> decide
    · cases h <;> rfl
  | keyword word =>
    refine ⟨hhead (name_keyword word).no_blank ?_, rfl⟩
    cases word <;> decide
  | identifier hname _ =>
    refine ⟨hhead hname.no_blank ?_, rfl⟩
    obtain ⟨c, rest, rfl, -⟩ := hname
    exact List.cons_ne_nil c rest
  | number h =>
    refine ⟨hhead h.no_blank ?_, rfl⟩
    obtain ⟨whole, part, power, hwhole, -, -, rfl⟩ := h
    exact List.append_ne_nil_of_left_ne_nil hwhole.1 _
  | string h =>
    obtain ⟨body, -, rfl⟩ := h
    exact ⟨⟨'"', _, rfl, by decide⟩, rfl⟩
  | rawString h =>
    obtain ⟨body, -, rfl⟩ := h
    exact ⟨⟨'`', _, rfl, by decide⟩, rfl⟩

theorem longest_space {s : List Char} (h : ∀ c ∈ s.head?, isBlank c = false) :
    Longest (Run isBlank) [' '] s := by
  refine ⟨⟨nofun, List.forall_mem_singleton.mpr (by decide)⟩, fun t ht hrun => ?_⟩
  match t, ht with
  | [], _ => exact Nat.zero_le _
  | [_], _ => exact Nat.le_refl _
  | _ :: d :: t, ht =>
    have hd : d :: t <+: s := (List.cons_prefix_cons.mp ht).2
    obtain ⟨after, rfl⟩ := hd
    have hblank := hrun.2 d (List.mem_cons_of_mem _ List.mem_cons_self)
    rw [h d rfl] at hblank
    cases hblank

end Token

namespace Lexeme

def spaced (pos : Nat) : List Lexeme → List Token
  | [] => []
  | [l] => [l.place pos]
  | l :: m :: rest =>
    l.place pos :: ⟨.whitespace, [' '], pos + l.chars.length⟩ ::
      spaced (pos + (l.chars.length + 1)) (m :: rest)

theorem print_single (l : Lexeme) : print [l] = l.chars ++ [] := by
  simp only [print, List.map_cons, List.map_nil, List.intercalate, List.intersperse_singleton,
    List.flatten_cons, List.flatten_nil]

theorem print_cons_cons (l m : Lexeme) (rest : List Lexeme) :
    print (l :: m :: rest) = l.chars ++ ([' '] ++ print (m :: rest)) := rfl

theorem print_head (l : Lexeme) (rest : List Lexeme) :
    ∀ c ∈ (print (l :: rest)).head?, isBlank c = false := by
  obtain ⟨⟨c, tail, hchars, hblank⟩, -⟩ := l.stands.visible
  cases rest with
  | nil =>
    rw [print_single, hchars]
    rintro _ ⟨rfl⟩
    exact hblank
  | cons m rest =>
    rw [print_cons_cons, hchars]
    rintro _ ⟨rfl⟩
    exact hblank

/-- Printed lexemes split into themselves and the spaces between them. -/
theorem splits_print (pos : Nat) :
    ∀ ls : List Lexeme, Token.Splits pos (print ls) (spaced pos ls)
  | [] => .nil pos
  | [l] => by
    rw [print_single]
    exact .cons (l.stands.begins (.inl rfl)) (.nil _)
  | l :: m :: rest => by
    rw [print_cons_cons]
    refine .cons (l.stands.begins (.inr ⟨_, rfl⟩))
      (.cons (.whitespace (Token.longest_space (print_head m rest))) ?_)
    exact splits_print (pos + (l.chars.length + 1)) (m :: rest)

theorem scan_print (ls : List Lexeme) : Token.scan (print ls) = spaced 0 ls :=
  (splits_print 0 ls).eq_scanFrom.symm

theorem itemsAfter_space (last : Option Token.Kind) (newline : Bool) (pos : Nat)
    (ts : List Token) :
    itemsAfter last newline (⟨.whitespace, [' '], pos⟩ :: ts) = itemsAfter last newline ts := by
  have hspace : (⟨.whitespace, [' '], pos⟩ : Token).isTrivia = true := rfl
  have hline : [' '].contains '\n' = false := rfl
  rw [itemsAfter, if_pos hspace, hline, Bool.or_false]

/-- Within a line every lexeme is an item, and the spaces are none. -/
theorem itemsAfter_spaced (last : Option Token.Kind) (pos : Nat) (ls : List Lexeme) :
    itemsAfter last false (spaced pos ls) = (layOut pos ls).map .inLine := by
  match ls with
  | [] => rfl
  | [l] =>
    have hvisible : (l.place pos).isTrivia = false := l.stands.visible.2
    rw [spaced, itemsAfter, if_neg (ne_true_of_eq_false hvisible)]
    rfl
  | l :: m :: rest =>
    have hvisible : (l.place pos).isTrivia = false := l.stands.visible.2
    rw [spaced, itemsAfter, if_neg (ne_true_of_eq_false hvisible), itemsAfter_space]
    exact congrArg _ (itemsAfter_spaced (some l.kind) (pos + (l.chars.length + 1)) (m :: rest))

/-- The first lexeme stands at the beginning of the line. -/
theorem items_spaced (l : Lexeme) (ls : List Lexeme) :
    Grammar.items (spaced 0 (l :: ls)) =
      ⟨l.place 0, true, true⟩ :: (layOut (l.chars.length + 1) ls).map .inLine := by
  have hvisible : (l.place 0).isTrivia = false := l.stands.visible.2
  cases ls with
  | nil =>
    rw [spaced, Grammar.items, itemsAfter, if_neg (ne_true_of_eq_false hvisible)]
    rfl
  | cons m rest =>
    rw [spaced, Grammar.items, itemsAfter, if_neg (ne_true_of_eq_false hvisible), itemsAfter_space,
      Nat.zero_add]
    exact congrArg _ (itemsAfter_spaced (some l.kind) (l.chars.length + 1) (m :: rest))

end Lexeme

end PolicyEditor
