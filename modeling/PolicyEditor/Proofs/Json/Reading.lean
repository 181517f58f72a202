import PolicyEditor.Proofs.Json.StringText

/-!
What the decoder reads, without its bounds: strings, words, and brackets with elements or members
between them. A relation between a text, a value and the rest of the text that holds of each of
these, given that it holds of their parts, holds of everything that is read.
-/

namespace PolicyEditor.Json

def isWordChar (c : Char) : Bool :=
  c.isAlphanum || c == '.' || c == '+' || c == '-'

def isWord : Json → Bool
  | .null | .bool _ | .int _ | .float _ => true
  | .str _ | .arr _ | .obj _ => false

/-- A number or a literal is read in front of the rest of a text. -/
structure ReadsWord (used : List Char) (v : Json) (rest : List Char) : Prop where
  nonempty : used ≠ []
  chars : used.all isWordChar = true
  isWord : isWord v = true
  read : ∃ rounds value, valueStep rounds value (used ++ rest) = .ok (v, rest)

structure Member where
  place : List Char
  key : String
  value : Json

section

variable (P : List Char → Json → List Char → Prop)

inductive Elements : List Char → List Json → List Char → Prop where
  | last {s after rest : List Char} {v : Json} :
      P s v after → skipSpace after = ']' :: rest → Elements s [v] rest
  | more {s after next rest : List Char} {v : Json} {vs : List Json} :
      P s v after → skipSpace after = ',' :: next → Elements (skipSpace next) vs rest →
      Elements s (v :: vs) rest

def ReadsMember (s : List Char) (m : Member) (after : List Char) : Prop :=
  ∃ raw chars afterKey afterColon, StringText raw ∧ StandsFor raw chars ∧
    s = '"' :: raw ++ '"' :: afterKey ∧ skipSpace afterKey = ':' :: afterColon ∧
    P (skipSpace afterColon) m.value after ∧ m.place = s ∧ m.key = String.ofList chars

inductive Members : List Char → List Member → List Char → Prop where
  | last {s after rest : List Char} {m : Member} :
      ReadsMember P s m after → skipSpace after = '}' :: rest → Members s [m] rest
  | more {s after next rest : List Char} {m : Member} {ms : List Member} :
      ReadsMember P s m after → skipSpace after = ',' :: next → Members (skipSpace next) ms rest →
      Members s (m :: ms) rest

def ReadsObject (s : List Char) (ms : List Member) (rest : List Char) : Prop :=
  ∃ inside, s = '{' :: inside ∧
    (ms = [] ∧ skipSpace inside = '}' :: rest ∨ Members P (skipSpace inside) ms rest)

def objectOf (ms : List Member) : Json :=
  ofMembers (ms.map fun m => (m.key, m.value))

/-- Another relation holds of every way in which a value is written if this one holds of its parts. -/
structure ClosesOver (Q : List Char → Json → List Char → Prop) : Prop where
  word {used rest : List Char} {v : Json} : ReadsWord used v rest → Q (used ++ rest) v rest
  text {raw chars rest : List Char} : StringText raw → StandsFor raw chars →
    Q ('"' :: raw ++ '"' :: rest) (.str (String.ofList chars)) rest
  emptyArray {inside rest : List Char} : skipSpace inside = ']' :: rest →
    Q ('[' :: inside) (.arr []) rest
  array {inside rest : List Char} {vs : List Json} : Elements P (skipSpace inside) vs rest →
    Q ('[' :: inside) (.arr vs) rest
  emptyObject {inside rest : List Char} : skipSpace inside = '}' :: rest →
    Q ('{' :: inside) (.obj []) rest
  object {inside rest : List Char} {ms : List Member} : Members P (skipSpace inside) ms rest →
    Q ('{' :: inside) (objectOf ms) rest

/-- The relation holds of every way in which a value is written if it holds of its parts. -/
abbrev ClosedUnderReading : Prop :=
  ClosesOver P P

end

section

variable {P Q : List Char → Json → List Char → Prop}

theorem Elements.forall_mem (p : Json → Prop) (hp : ∀ {s v after}, P s v after → p v)
    {s rest : List Char} {vs : List Json} (h : Elements P s vs rest) : ∀ v ∈ vs, p v := by
  induction h with
  | last hv _ => exact List.forall_mem_singleton.mpr (hp hv)
  | more hv _ _ ih => exact List.forall_mem_cons.mpr ⟨hp hv, ih⟩

theorem Members.forall_mem (p : Member → Prop) (hp : ∀ {s m after}, ReadsMember P s m after → p m)
    {s rest : List Char} {ms : List Member} (h : Members P s ms rest) : ∀ m ∈ ms, p m := by
  induction h with
  | last hm _ => exact List.forall_mem_singleton.mpr (hp hm)
  | more hm _ _ ih => exact List.forall_mem_cons.mpr ⟨hp hm, ih⟩

theorem ReadsMember.place_eq {s after : List Char} {m : Member} (h : ReadsMember P s m after) :
    m.place = s := by
  obtain ⟨_, _, _, _, -, -, -, -, -, hplace, -⟩ := h
  exact hplace

theorem ReadsMember.mono (hPQ : ∀ {s v rest}, P s v rest → Q s v rest) {s after : List Char}
    {m : Member} (h : ReadsMember P s m after) : ReadsMember Q s m after := by
  obtain ⟨raw, chars, afterKey, afterColon, hraw, hchars, hs, hcolon, hvalue, hm⟩ := h
  exact ⟨raw, chars, afterKey, afterColon, hraw, hchars, hs, hcolon, hPQ hvalue, hm⟩

theorem Members.mono (hPQ : ∀ {s v rest}, P s v rest → Q s v rest) {s rest : List Char}
    {ms : List Member} (h : Members P s ms rest) : Members Q s ms rest := by
  induction h with
  | last hm hclose => exact .last (hm.mono hPQ) hclose
  | more hm hcomma _ ih => exact .more (hm.mono hPQ) hcomma ih

theorem ReadsObject.mono (hPQ : ∀ {s v rest}, P s v rest → Q s v rest) {s rest : List Char}
    {ms : List Member} (h : ReadsObject P s ms rest) : ReadsObject Q s ms rest := by
  obtain ⟨inside, hs, hms⟩ := h
  exact ⟨inside, hs, hms.imp_right fun hms => hms.mono hPQ⟩

theorem ReadsMember.value {s after : List Char} {m : Member} (h : ReadsMember P s m after) :
    ∃ s, P s m.value after := by
  obtain ⟨_, _, _, afterColon, -, -, -, -, hvalue, -⟩ := h
  exact ⟨skipSpace afterColon, hvalue⟩

end

/-! ### Words -/

theorem isWordChar_of_isDigit {c : Char} (h : c.isDigit = true) : isWordChar c = true := by
  simp only [isWordChar, Char.isAlphanum, h, Bool.or_true, Bool.true_or]

theorem literal?_split {s rest : List Char} {v : Json} (h : literal? s = some (v, rest)) :
    ∃ used, s = used ++ rest ∧ used ≠ [] ∧ used.all isWordChar = true ∧ isWord v = true := by
  have hwords : ∀ p ∈ literals,
      p.1.toList ≠ [] ∧ p.1.toList.all isWordChar = true ∧ isWord p.2 = true := by
    decide +kernel
  obtain ⟨⟨word, value⟩, hmem, hword⟩ := List.exists_of_findSome?_eq_some h
  simp only [Option.map_eq_some_iff, Prod.mk.injEq, exists_eq_right_right,
    Text.afterWord?_eq_some_iff] at hword
  obtain ⟨rfl, rfl⟩ := hword
  exact ⟨word.toList, rfl, hwords _ hmem⟩

theorem digits_split (s : List Char) :
    s = (digits s).1 ++ (digits s).2 ∧ (digits s).1.all isWordChar = true := by
  refine ⟨List.takeWhile_append_dropWhile.symm, List.all_eq_true.mpr fun c hc => ?_⟩
  exact isWordChar_of_isDigit (List.all_eq_true.mp List.all_takeWhile c hc)

theorem wholeDigits?_split {s whole rest : List Char}
    (h : wholeDigits? s = some (whole, rest)) :
    s = whole ++ rest ∧ whole ≠ [] ∧ whole.all isWordChar = true := by
  unfold wholeDigits? at h
  split at h
  · cases h
    exact ⟨rfl, by decide, by decide⟩
  · rename_i c tail _
    split at h
    · rename_i hdigit
      cases h
      have hfirst : (digits (c :: tail)).1 ≠ [] := by
        rw [digits, List.takeWhile_cons_of_pos hdigit]
        exact List.cons_ne_nil _ _
      exact ⟨(digits_split _).1, hfirst, (digits_split (c :: tail)).2⟩
    · cases h
  · cases h

theorem fraction_split (s : List Char) :
    ∃ used, s = used ++ (fraction s).2 ∧ used.all isWordChar = true := by
  unfold fraction
  split
  · rename_i d rest
    split
    · obtain ⟨hsplit, hall⟩ := digits_split (d :: rest)
      refine ⟨'.' :: (digits (d :: rest)).1, congrArg ('.' :: ·) hsplit, ?_⟩
      rw [List.all_cons, hall]
      rfl
    · exact ⟨[], rfl, rfl⟩
  · exact ⟨[], rfl, rfl⟩

theorem exponent?_split (s : List Char) :
    ∃ used, s = used ++ (exponent? s).2 ∧ used.all isWordChar = true := by
  have hnone : ∃ used, s = used ++ s ∧ used.all isWordChar = true := ⟨[], rfl, rfl⟩
  unfold exponent?
  split
  · rename_i e rest
    split
    · rename_i he
      split
      rename_i negative unsigned hsign
      have hrest : ∃ sign, rest = sign ++ unsigned ∧ sign.all isWordChar = true := by
        split at hsign <;> cases hsign
        · exact ⟨['-'], rfl, by decide⟩
        · exact ⟨['+'], rfl, by decide⟩
        · exact ⟨[], rfl, rfl⟩
      split
      · exact hnone
      · rename_i ds after _ hdigits
        obtain ⟨sign, rfl, hall⟩ := hrest
        have hsplit := digits_split unsigned
        rw [hdigits] at hsplit
        refine ⟨e :: sign ++ ds, ?_, ?_⟩
        · rw [List.append_assoc, ← hsplit.1]
          rfl
        · rw [List.all_append, List.all_cons, hall, hsplit.2]
          rcases he with rfl | rfl <;> rfl
    · exact hnone
  · exact hnone

/-- The text of a number after its sign. -/
theorem number_split {negative : Bool} {start s rest : List Char} {v : Json}
    (h : number negative start s = .ok (v, rest)) :
    ∃ used, s = used ++ rest ∧ used ≠ [] ∧ used.all isWordChar = true ∧ isWord v = true := by
  unfold number at h
  split at h
  · cases h
  · rename_i whole afterWhole hwhole
    obtain ⟨rfl, hne, hall⟩ := wholeDigits?_split hwhole
    obtain ⟨part, hpart, hpartAll⟩ := fraction_split afterWhole
    obtain ⟨power, hpower, hpowerAll⟩ := exponent?_split (fraction afterWhole).2
    have hused : whole ++ afterWhole =
        (whole ++ part ++ power) ++ (exponent? (fraction afterWhole).2).2 := by
      rw [List.append_assoc, ← hpower, List.append_assoc, ← hpart]
    have husedAll : (whole ++ part ++ power).all isWordChar = true := by
      rw [List.all_append, List.all_append, hall, hpartAll, hpowerAll]
      rfl
    have husedNe : whole ++ part ++ power ≠ [] :=
      List.append_ne_nil_of_left_ne_nil (List.append_ne_nil_of_left_ne_nil hne _) _
    simp only at h
    split at h
    · split at h
      · cases h
      · cases h
        exact ⟨_, hused, husedNe, husedAll, rfl⟩
    · cases h
      exact ⟨_, hused, husedNe, husedAll, rfl⟩

/-! ### Values -/

section

variable {P Q : List Char → Json → List Char → Prop}
variable {value : List Char → Read (Json × List Char)}

theorem elements_reads (hvalue : ∀ {s v rest}, value s = .ok (v, rest) → P s v rest)
    {rounds : Nat} {s rest : List Char} {vs : List Json}
    (h : elements value rounds s = .ok (vs, rest)) : Elements P s vs rest := by
  induction rounds generalizing s vs with
  | zero => cases h
  | succ rounds ih =>
    obtain ⟨⟨v, after⟩, hv, h⟩ := ok_of_bind_ok h
    simp only at h
    split at h
    · rename_i hclose
      cases h
      exact .last (hvalue hv) hclose
    · rename_i hcomma
      obtain ⟨⟨more, last⟩, hmore, h⟩ := ok_of_bind_ok h
      cases h
      exact .more (hvalue hv) hcomma (ih hmore)
    · cases h

theorem members_reads (hvalue : ∀ {s v rest}, value s = .ok (v, rest) → P s v rest)
    {width rounds : Nat} {s rest : List Char} {members : List (String × Json)}
    (h : Json.members width value rounds s = .ok (members, rest)) :
    ∃ ms, Members P s ms rest ∧ members = ms.map fun m => (m.key, m.value) := by
  induction rounds generalizing s members with
  | zero => cases h
  | succ rounds ih =>
    unfold Json.members at h
    split at h
    · rename_i inside
      obtain ⟨⟨chars, afterKey⟩, hkey, h⟩ := ok_of_bind_ok h
      obtain ⟨raw, hraw, hchars, hinside⟩ := standsFor_of_string hkey
      simp only at h
      split at h
      · rename_i afterColon hcolon
        obtain ⟨⟨v, after⟩, hv, h⟩ := ok_of_bind_ok h
        have hmember : ReadsMember P ('"' :: inside)
            ⟨'"' :: inside, String.ofList chars, v⟩ after :=
          ⟨raw, chars, afterKey, afterColon, hraw, hchars, congrArg ('"' :: ·) hinside, hcolon,
            hvalue hv, rfl, rfl⟩
        simp only at h
        split at h
        · rename_i hclose
          cases h
          exact ⟨_, .last hmember hclose, rfl⟩
        · rename_i hcomma
          obtain ⟨⟨more, last⟩, hmore, h⟩ := ok_of_bind_ok h
          cases h
          obtain ⟨ms, hms, rfl⟩ := ih hmore
          exact ⟨_, .more hmember hcomma hms, rfl⟩
        · cases h
      · cases h
    · cases h

theorem valueStep_reads (hQ : ClosesOver P Q)
    (hvalue : ∀ {s v rest}, value s = .ok (v, rest) → P s v rest)
    {rounds : Nat} {s rest : List Char} {v : Json}
    (h : valueStep rounds value s = .ok (v, rest)) : Q s v rest := by
  have hread := h
  unfold valueStep at h
  split at h
  · cases h
  · obtain ⟨⟨chars, after⟩, hstring, h⟩ := ok_of_bind_ok h
    obtain ⟨raw, hraw, hchars, hinside⟩ := standsFor_of_string hstring
    cases h
    exact hinside ▸ hQ.text hraw hchars
  · split at h
    · rename_i hclose
      cases h
      exact hQ.emptyObject hclose
    · obtain ⟨⟨members, after⟩, hmembers, h⟩ := ok_of_bind_ok h
      obtain ⟨ms, hms, rfl⟩ := members_reads hvalue hmembers
      cases h
      exact hQ.object hms
  · split at h
    · rename_i hclose
      cases h
      exact hQ.emptyArray hclose
    · obtain ⟨⟨vs, after⟩, helements, h⟩ := ok_of_bind_ok h
      cases h
      exact hQ.array (elements_reads hvalue helements)
  · rename_i c inside _ _ _
    split at h
    · rename_i hliteral
      cases h
      obtain ⟨used, hsplit, hne, hall, hword⟩ := literal?_split hliteral
      rw [hsplit] at hread ⊢
      exact hQ.word ⟨hne, hall, hword, _, _, hread⟩
    · split at h
      · rename_i hminus
        obtain ⟨used, rfl, -, hall, hword⟩ := number_split h
        have hsigned : (c :: used).all isWordChar = true := by
          rw [List.all_cons, hall, hminus]
          rfl
        exact hQ.word ⟨List.cons_ne_nil _ _, hsigned, hword, _, _, hread⟩
      · obtain ⟨used, hsplit, hne, hall, hword⟩ := number_split h
        rw [hsplit] at hread ⊢
        exact hQ.word ⟨hne, hall, hword, _, _, hread⟩

/-- The principle of this file: a relation that is closed under reading holds of what is read. -/
theorem valueUpTo_reads (hP : ClosedUnderReading P) {n : Nat} {s rest : List Char} {v : Json}
    (h : valueUpTo n s = .ok (v, rest)) : P s v rest := by
  induction n generalizing s v rest with
  | zero => cases h
  | succ n ih => exact valueStep_reads hP ih h

end

/-! ### Documents -/

theorem value_of_document {value : (n : Nat) → List Char → Read (Json × List Char)} {s : List Char}
    {v : Json} (h : document value s = .ok v) :
    ∃ rest, value (s.length + 1) (skipSpace s) = .ok (v, rest) ∧ skipSpace rest = [] := by
  unfold document at h
  split at h
  · cases h
  · obtain ⟨⟨v, after⟩, hvalue, h⟩ := ok_of_bind_ok h
    simp only at h
    split at h
    · rename_i hend
      cases h
      exact ⟨after, hvalue, hend⟩
    · cases h

theorem toOption_located_eq_some_iff {α : Type} {s : List Char} {r : Read α} {a : α} :
    (located s r).toOption = some a ↔ r = .ok a := by
  cases r with
  | ok b => exact ⟨fun h => by cases h; rfl, fun h => by cases h; rfl⟩
  | error e => exact iff_of_false nofun nofun

theorem value_of_decode? {s : List Char} {v : Json} (h : decode? s = some v) :
    ∃ rest, valueUpTo (s.length + 1) (skipSpace s) = .ok (v, rest) ∧ skipSpace rest = [] :=
  value_of_document (toOption_located_eq_some_iff.mp h)

def ReadsValue (n : Nat) (s : List Char) (v : Json) (rest : List Char) : Prop :=
  valueUpTo n s = .ok (v, rest)

/-- Only what stands in braces is read as an object. -/
theorem readsObject_of_valueUpTo {n : Nat} {s rest : List Char} {members : List (String × Json)}
    (h : valueUpTo (n + 1) s = .ok (.obj members, rest)) :
    ∃ ms, ReadsObject (ReadsValue n) s ms rest ∧ objectOf ms = .obj members := by
  rw [valueUpTo] at h
  unfold valueStep at h
  split at h
  · cases h
  · obtain ⟨_, -, h⟩ := ok_of_bind_ok h
    cases h
  · rename_i inside
    split at h
    · rename_i hclose
      cases h
      exact ⟨[], ⟨inside, rfl, .inl ⟨rfl, hclose⟩⟩, rfl⟩
    · obtain ⟨⟨read, after⟩, hread, h⟩ := ok_of_bind_ok h
      obtain ⟨ms, hms, rfl⟩ := members_reads (P := ReadsValue n) (fun hv => hv) hread
      cases h
      exact ⟨ms, ⟨inside, rfl, .inr hms⟩, rfl⟩
  · split at h
    · cases h
    · obtain ⟨_, -, h⟩ := ok_of_bind_ok h
      cases h
  · split at h
    · rename_i hliteral
      cases h
      obtain ⟨_, -, -, -, hword⟩ := literal?_split hliteral
      cases hword
    · split at h <;> obtain ⟨_, -, -, -, hword⟩ := number_split h <;> cases hword

/-- A document of an object has its members between its braces, and nothing after them. -/
theorem readsObject_of_decode? {s : List Char} {members : List (String × Json)}
    (h : decode? s = some (.obj members)) :
    ∃ ms rest, ReadsObject (ReadsValue s.length) (skipSpace s) ms rest ∧ skipSpace rest = [] ∧
      objectOf ms = .obj members := by
  obtain ⟨rest, hvalue, hend⟩ := value_of_decode? h
  obtain ⟨ms, hms, hobject⟩ := readsObject_of_valueUpTo hvalue
  exact ⟨ms, rest, hms, hend, hobject⟩

/-- A document is an object of these members, in order and with repetitions. -/
def HasMembers (s : List Char) (ms : List Member) : Prop :=
  ∃ rest, ReadsObject (ReadsValue s.length) (skipSpace s) ms rest ∧ skipSpace rest = []

/-- What a whole document is closed under reading, its value is. -/
theorem decode?_reads {P : List Char → Json → List Char → Prop} (hP : ClosedUnderReading P)
    {s : List Char} {v : Json} (h : decode? s = some v) :
    ∃ rest, P (skipSpace s) v rest ∧ skipSpace rest = [] := by
  obtain ⟨rest, hvalue, hend⟩ := value_of_decode? h
  exact ⟨rest, valueUpTo_reads hP hvalue, hend⟩

end PolicyEditor.Json
