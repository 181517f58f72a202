import PolicyEditor.Proofs.Completion.Members
import PolicyEditor.Proofs.Json.Spelling

/-!
How paths are written. A name stands after a dot or quoted in brackets, an index in brackets or, if it
is a number, after a dot. Whichever way each segment is written, the path is read back as it was.
-/

namespace PolicyEditor.Path

open PolicyEditor.Completion (isName segment?_name)
open PolicyEditor.Schema (Root)
open PolicyEditor.Text (isBlank isDecimal isNameStart isNameChar isWord stripStart)

def IsNumber (ds : List Char) : Prop :=
  ds ≠ [] ∧ ∀ c ∈ ds, isDecimal c = true

def Segment.Writable : Segment → Prop
  | .name _ => True
  | .index text => text = "_" ∨ IsNumber text.toList

/-- The ways to write a segment. Blanks may stand inside the brackets. -/
inductive Spells : Segment → List Char → Prop where
  | name {key : String} : isName key.toList = true → Spells (.name key) ('.' :: key.toList)
  | quoted {key : String} {left raw right : List Char} : left.all isBlank = true →
      right.all isBlank = true → Json.Spells raw key.toList →
      Spells (.name key) ('[' :: left ++ '"' :: raw ++ '"' :: right ++ [']'])
  | number {text : String} : IsNumber text.toList → Spells (.index text) ('.' :: text.toList)
  | index {text : String} {left right : List Char} : left.all isBlank = true →
      right.all isBlank = true → Segment.Writable (.index text) →
      Spells (.index text) ('[' :: left ++ text.toList ++ right ++ [']'])

/-! ### Inside brackets -/

theorem stripStart_blanks {blanks : List Char} {c : Char} (h : blanks.all isBlank = true)
    (hc : isBlank c = false) (rest : List Char) :
    stripStart (blanks ++ c :: rest) = c :: rest := by
  rw [stripStart, List.dropWhile_append_of_pos (List.all_eq_true.mp h)]
  exact List.dropWhile_cons_of_neg (by rw [hc]; decide)

theorem afterBracket?_blanks {blanks : List Char} (h : blanks.all isBlank = true)
    (rest : List Char) : afterBracket? (blanks ++ ']' :: rest) = some rest := by
  simp only [afterBracket?, stripStart_blanks h (show isBlank ']' = false by decide)]

theorem bracketed?_underscore {left right : List Char} (hleft : left.all isBlank = true)
    (hright : right.all isBlank = true) :
    bracketed? (left ++ '_' :: (right ++ [']'])) = some (.index ['_'], []) := by
  rw [bracketed?, stripStart_blanks hleft (by decide)]
  simp only [afterBracket?_blanks hright, Option.map_some]

theorem bracketed?_quoted {left raw right : List Char} (hleft : left.all isBlank = true)
    (hright : right.all isBlank = true) (hraw : Json.BetweenQuotes raw) :
    bracketed? (left ++ '"' :: (raw ++ '"' :: (right ++ [']']))) = some (.quoted raw, []) := by
  rw [bracketed?, stripStart_blanks hleft (by decide)]
  simp only [quotedRun_quoted hraw, afterBracket?_blanks hright, Option.map_some]

theorem isBlank_eq_false_of_isDecimal {c : Char} (h : isDecimal c = true) : isBlank c = false :=
  Text.isBlank_eq_false_of_isDigit (Text.isDigit_of_isDecimal h)

theorem bracketed?_number {left ds right : List Char} (hleft : left.all isBlank = true)
    (hright : right.all isBlank = true) (hds : IsNumber ds) :
    bracketed? (left ++ (ds ++ (right ++ [']']))) = some (.index ds, []) := by
  obtain ⟨hne, hall⟩ := hds
  -- Neither a blank nor the bracket goes on with the number.
  have hend : ∀ c ∈ (right ++ [']']).head?, isDecimal c = false := by
    intro c hc
    cases right with
    | nil =>
      cases hc
      decide
    | cons b right =>
      cases hc
      have hblank := List.all_eq_true.mp hright c List.mem_cons_self
      apply Bool.eq_false_iff.mpr
      intro hdecimal
      rw [isBlank_eq_false_of_isDecimal hdecimal] at hblank
      cases hblank
  have htake : (ds ++ (right ++ [']'])).takeWhile isDecimal = ds := by
    rw [takeWhile_append_of_apart ds hend, List.takeWhile_eq_self_iff.mpr hall]
  obtain ⟨d, rest, rfl⟩ := List.exists_cons_of_ne_nil hne
  have hd := hall d List.mem_cons_self
  rw [bracketed?, List.cons_append, stripStart_blanks hleft (isBlank_eq_false_of_isDecimal hd)]
  rw [List.cons_append] at htake
  split
  · rename_i heq
    cases heq
    exact absurd hd (by decide)
  · rename_i heq
    cases heq
    exact absurd hd (by decide)
  · rw [htake, ← List.cons_append]
    simp only [List.drop_left, afterBracket?_blanks hright, Option.map_some]

theorem segment?_bracket (s : List Char) : segment? ('[' :: s) = bracketed? s := rfl

theorem segment?_number {ds : List Char} (h : IsNumber ds) :
    segment? ('.' :: ds) = some (.index ds, []) := by
  obtain ⟨hne, hall⟩ := h
  obtain ⟨d, rest, rfl⟩ := List.exists_cons_of_ne_nil hne
  obtain ⟨hd, hrest⟩ := List.forall_mem_cons.mp hall
  have hletter : ¬ isNameStart d = true := by
    intro hstart
    have hdigit := Text.isDigit_eq_false_of_isNameStart hstart
    rw [Text.isDigit_of_isDecimal hd] at hdigit
    cases hdigit
  simp only [segment?, hletter, if_false, hd, if_true, List.takeWhile_eq_self_iff.mpr hrest,
    List.dropWhile_eq_nil_iff.mpr hrest, Bool.false_eq_true]

theorem read_quoted {key : String} {raw : List Char} (h : Json.Spells raw key.toList) :
    (Written.quoted raw).read = .ok (.name key) := by
  simp only [Written.read, decodeKey, h.standsFor.decode_eq, String.ofList_toList]
  rfl

/-! ### Whole paths -/

/-- A written segment is all of its text, and is read as itself. -/
theorem Spells.segment? {s : Segment} {text : List Char} (h : Spells s text) :
    ∃ written, segment? text = some (written, []) ∧ written.read = .ok s := by
  cases h with
  | @name key hname =>
    exact ⟨_, segment?_name hname, by rw [Written.read, String.ofList_toList]⟩
  | @quoted key left raw right hleft hright hraw =>
    refine ⟨_, ?_, read_quoted hraw⟩
    simp only [List.cons_append, List.append_assoc, segment?_bracket]
    exact bracketed?_quoted hleft hright hraw.stringText.betweenQuotes
  | @number text hnumber =>
    exact ⟨_, segment?_number hnumber, by rw [Written.read, String.ofList_toList]⟩
  | @index text left right hleft hright hindex =>
    refine ⟨.index text.toList, ?_, by rw [Written.read, String.ofList_toList]⟩
    simp only [List.cons_append, List.append_assoc, segment?_bracket]
    rcases hindex with rfl | hnumber
    · exact bracketed?_underscore hleft hright
    · exact bracketed?_number hleft hright hnumber

/-- A written segment begins with a dot or a bracket, so that no name or number runs on in it. -/
theorem Spells.begins {s : Segment} {text : List Char} (h : Spells s text) :
    ∃ rest, text = '.' :: rest ∨ text = '[' :: rest := by
  cases h with
  | name _ | number _ => exact ⟨_, .inl rfl⟩
  | quoted _ _ _ | index _ _ _ => exact ⟨_, .inr rfl⟩

theorem apart_flatten {segments : List Segment} {texts : List (List Char)}
    (h : List.Forall₂ Spells segments texts) : Apart texts.flatten := by
  cases h with
  | nil => nofun
  | cons hs _ =>
    intro c hc
    obtain ⟨rest, rfl | rfl⟩ := hs.begins <;> cases hc <;> decide +kernel

theorem readAll_flatten {segments : List Segment} {texts : List (List Char)}
    (h : List.Forall₂ Spells segments texts) : readAll texts.flatten = .ok (some segments) := by
  induction h with
  | nil => exact readAll_blank rfl
  | cons hs hrest ih =>
    obtain ⟨written, hsegment, hread⟩ := hs.segment?
    have hfirst := segment?_append hsegment (apart_flatten hrest)
    rw [List.flatten_cons, readAll_cons hfirst, hread, List.nil_append, ih]
    rfl

/-- Every segment can be written. -/
theorem Segment.Writable.exists_spells {s : Segment} (h : s.Writable) : ∃ text, Spells s text := by
  cases s with
  | name key =>
    have hkey := Json.spells_flatMap_stringChar false key.toList
    exact ⟨_, @Spells.quoted key [] _ [] rfl rfl hkey⟩
  | index text => exact ⟨_, @Spells.index text [] [] rfl rfl h⟩

theorem exists_spells_all {segments : List Segment} (h : ∀ s ∈ segments, s.Writable) :
    ∃ texts, List.Forall₂ Spells segments texts := by
  induction segments with
  | nil => exact ⟨[], .nil⟩
  | cons s rest ih =>
    obtain ⟨hs, hrest⟩ := List.forall_mem_cons.mp h
    obtain ⟨text, htext⟩ := hs.exists_spells
    obtain ⟨texts, htexts⟩ := ih hrest
    exact ⟨text :: texts, .cons htext htexts⟩

/-- Every list of segments can be written after a root, and however each of them is written, the path
is read back as this root and these segments. -/
theorem parse_spelled (root : Root) {segments : List Segment} (h : ∀ s ∈ segments, s.Writable) :
    (∃ texts, List.Forall₂ Spells segments texts) ∧
      ∀ texts, List.Forall₂ Spells segments texts →
        parse (root.name.toList ++ texts.flatten) = .ok (some ⟨root, segments⟩) := by
  refine ⟨exists_spells_all h, fun texts htexts => ?_⟩
  have hroot : root? (stripStart (root.name.toList ++ texts.flatten)) =
      some (root, texts.flatten) := by
    rw [stripStart_name, root?_name]
  have hword : texts.flatten.head?.any isWord = false := by
    cases hhead : texts.flatten.head? with
    | none => rfl
    | some c => exact (apart_flatten htexts c hhead).1
  rw [parse_of_readAll hroot hword, readAll_flatten htexts]
  rfl

/-- A dot and a quote in a key, the quote written by its number, and an index after a dot. -/
theorem parse_spelled_quote : parse "input[ \".\\u0022\"].0".toList =
    .ok (some ⟨.input, [.name ".\"", .index "0"]⟩) := by
  have hzero : IsNumber "0".toList := ⟨by decide, List.all_eq_true.mp (by decide)⟩
  have hsegments : ∀ s ∈ [Segment.name ".\"", Segment.index "0"], s.Writable :=
    List.forall_mem_cons.mpr ⟨trivial, List.forall_mem_singleton.mpr (.inr hzero)⟩
  have hquote : Json.SpellsUnit ['0', '0', '2', '2'] '"'.toNat :=
    ⟨'0', '0', '2', '2', 0, 0, 2, 2, rfl, rfl, rfl, rfl, rfl, rfl⟩
  have hkey : Json.Spells (['.'] ++ ('\\' :: 'u' :: ['0', '0', '2', '2'] ++ [])) ['.', '"'] :=
    .cons (.plain (by decide) (by decide) (by decide)) (.cons (.unit hquote) .nil)
  have htexts : List.Forall₂ Spells [.name ".\"", .index "0"]
      ["[ \".\\u0022\"]".toList, ".0".toList] :=
    .cons (@Spells.quoted ".\"" [' '] _ [] rfl rfl hkey)
      (.cons (@Spells.number "0" hzero) .nil)
  exact (parse_spelled .input hsegments).2 _ htexts

end PolicyEditor.Path
