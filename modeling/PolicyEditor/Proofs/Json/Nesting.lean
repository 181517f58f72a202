import PolicyEditor.Proofs.Json.Keys
import PolicyEditor.Proofs.Json.Lexemes

/-!
Documents that nest too deep. Up to the place where reading is given up, a limit of the nesting
changes nothing: what is loaded is what is decoded. A text that opens no more brackets than the limit
is never given up; a document whose value nests deeper than the limit always is, and so is a text
that begins with more brackets.
-/

namespace PolicyEditor.Json

/-- A reading that was given up in too many brackets. -/
def Read.GivesUp {α : Type} (r : Read α) : Prop :=
  ∃ rest, r = .error (.tooDeep, rest)

/-- A reading does what another one does, unless it gives up. -/
def Read.Follows {α : Type} (r unlimited : Read α) : Prop :=
  r = unlimited ∨ r.GivesUp

section

variable {α β : Type} {r unlimited : Read α} {next unlimitedNext : α → Read β}

theorem Read.Follows.refl (r : Read α) : r.Follows r :=
  .inl rfl

theorem Read.Follows.bind (h : r.Follows unlimited)
    (hnext : ∀ a, (next a).Follows (unlimitedNext a)) :
    Read.Follows (r >>= next) (unlimited >>= unlimitedNext) := by
  obtain rfl | ⟨rest, rfl⟩ := h
  · cases r with
    | ok a => exact hnext a
    | error e => exact .refl _
  · exact .inr ⟨rest, rfl⟩

theorem not_givesUp_ok (a : α) : ¬ Read.GivesUp (.ok a) := by
  rintro ⟨_, ⟨⟩⟩

theorem Read.GivesUp.of_bind (h : Read.GivesUp (r >>= next)) :
    r.GivesUp ∨ ∃ a, r = .ok a ∧ (next a).GivesUp := by
  cases r with
  | ok a => exact .inr ⟨a, rfl, h⟩
  | error e =>
    obtain ⟨rest, hrest⟩ := h
    cases hrest
    exact .inl ⟨rest, rfl⟩

end

/-! ### Reading with a limit and without one -/

section

variable {value unlimited : List Char → Read (Json × List Char)}
variable (h : ∀ s, (value s).Follows (unlimited s))

include h

theorem elements_follows (rounds : Nat) (s : List Char) :
    (elements value rounds s).Follows (elements unlimited rounds s) := by
  induction rounds generalizing s with
  | zero => exact .refl _
  | succ rounds ih =>
    refine (h s).bind fun read => ?_
    obtain ⟨v, after⟩ := read
    simp only
    split
    · exact .refl _
    · exact (ih _).bind fun _ => .refl _
    · exact .refl _

theorem members_follows (width rounds : Nat) (s : List Char) :
    (members width value rounds s).Follows (members width unlimited rounds s) := by
  induction rounds generalizing s with
  | zero => exact .refl _
  | succ rounds ih =>
    unfold members
    split
    · refine (Read.Follows.refl _).bind fun key => ?_
      obtain ⟨key, afterKey⟩ := key
      simp only
      split
      · refine (h _).bind fun read => ?_
        obtain ⟨v, after⟩ := read
        simp only
        split
        · exact .refl _
        · exact (ih _).bind fun _ => .refl _
        · exact .refl _
      · exact .refl _
    · exact .refl _

theorem valueStep_follows (rounds : Nat) (s : List Char) :
    (valueStep rounds value s).Follows (valueStep rounds unlimited s) := by
  unfold valueStep
  split
  · exact .refl _
  · exact .refl _
  · split
    · exact .refl _
    · exact (members_follows h _ _ _).bind fun _ => .refl _
  · split
    · exact .refl _
    · exact (elements_follows h _ _).bind fun _ => .refl _
  · exact .refl _

end

/-- A value that does not begin with a bracket has no values inside it. -/
theorem valueStep_eq_of_not_opensBracket {rounds : Nat} {s : List Char}
    (h : opensBracket s = false) (value other : List Char → Read (Json × List Char)) :
    valueStep rounds value s = valueStep rounds other s := by
  unfold valueStep
  split
  · rfl
  · rfl
  · cases h
  · cases h
  · rfl

theorem valueWithin_follows (limit n : Nat) (s : List Char) :
    (valueWithin limit n s).Follows (valueUpTo n s) := by
  induction n generalizing limit s with
  | zero =>
    rw [valueWithin]
    exact .refl _
  | succ n ih =>
    cases limit with
    | zero =>
      -- No bracket may open any more: one gives up, and anything else holds no values.
      rw [valueWithin]
      split
      · exact .inr ⟨s, rfl⟩
      · rename_i hopens
        exact .inl (valueStep_eq_of_not_opensBracket (Bool.eq_false_iff.mpr hopens) _ _)
    | succ limit => exact valueStep_follows (ih limit) _ _

theorem valueWithin_reads {P : List Char → Json → List Char → Prop} (hP : ClosedUnderReading P)
    {limit n : Nat} {s rest : List Char} {v : Json} (h : valueWithin limit n s = .ok (v, rest)) :
    P s v rest := by
  induction n generalizing limit s v rest with
  | zero =>
    rw [valueWithin] at h
    cases h
  | succ n ih =>
    cases limit with
    | zero =>
      rw [valueWithin] at h
      split at h
      · cases h
      · exact valueStep_reads hP ih h
    | succ limit => exact valueStep_reads hP ih h

/-- How many brackets a text opens, those in its strings included. -/
def openings (s : List Char) : Nat :=
  s.countP fun c => c == '{' || c == '['

theorem openings_append (s t : List Char) : openings (s ++ t) = openings s + openings t :=
  List.countP_append

theorem openings_cons_le (c : Char) (s : List Char) : openings s ≤ openings (c :: s) :=
  (List.sublist_cons_self c s).countP_le

theorem openings_bracket {c : Char} (h : c = '{' ∨ c = '[') (s : List Char) :
    openings (c :: s) = openings s + 1 := by
  apply List.countP_cons_of_pos
  rcases h with rfl | rfl <;> rfl

theorem openings_skipSpace_le (s : List Char) : openings (skipSpace s) ≤ openings s :=
  (List.dropWhile_sublist _).countP_le

/-- What stands behind a mark opens no more brackets than what stands before it. -/
theorem openings_behind {c : Char} {s rest : List Char} (h : skipSpace s = c :: rest) :
    openings (skipSpace rest) ≤ openings s := by
  have hspace := openings_skipSpace_le s
  have hmark := openings_cons_le c rest
  have hbehind := openings_skipSpace_le rest
  rw [h] at hspace
  omega

/-- Strings and numbers have faults of other kinds only. -/
theorem unicodeEscape_not_givesUp (mark rest : List Char) :
    ¬ (unicodeEscape mark rest).GivesUp := by
  rintro ⟨_, h⟩
  unfold unicodeEscape at h
  repeat' split at h
  all_goals cases h

theorem string_not_givesUp (start : List Char) (rounds : Nat) (s : List Char) :
    ¬ (string start rounds s).GivesUp := by
  induction rounds generalizing s with
  | zero => rintro ⟨_, ⟨⟩⟩
  | succ rounds ih =>
    have hmore : ∀ t {next : List Char × List Char → Read (List Char × List Char)},
        (∀ read, ¬ (next read).GivesUp) → ¬ Read.GivesUp (string start rounds t >>= next) := by
      intro t next hnext h
      obtain h | ⟨read, _, h⟩ := h.of_bind
      · exact ih t h
      · exact hnext read h
    cases s with
    | nil => rintro ⟨_, ⟨⟩⟩
    | cons c rest =>
      -- A character ends the string, is at fault, or stands in front of more of it.
      unfold string
      split
      · exact not_givesUp_ok _
      split
      · split
        · rintro ⟨_, ⟨⟩⟩
        split
        · intro h
          obtain h | ⟨_, _, h⟩ := h.of_bind
          · exact unicodeEscape_not_givesUp _ _ h
          · exact hmore _ (fun _ => not_givesUp_ok _) h
        split
        · rintro ⟨_, ⟨⟩⟩
        · exact hmore _ fun _ => not_givesUp_ok _
      split
      · rintro ⟨_, ⟨⟩⟩
      · exact hmore _ fun _ => not_givesUp_ok _

theorem number_not_givesUp (negative : Bool) (start s : List Char) :
    ¬ (number negative start s).GivesUp := by
  rintro ⟨_, h⟩
  unfold number at h
  split at h
  · cases h
  · simp only at h
    repeat' split at h
    all_goals cases h

/-- What a reading leaves is an end of its text. -/
theorem openings_le_of_valueWithin {limit n : Nat} {s rest : List Char} {v : Json}
    (h : valueWithin limit n s = .ok (v, rest)) : openings rest ≤ openings s := by
  obtain ⟨used, -, rfl⟩ := valueWithin_reads takesValue_closed h
  have happend := openings_append used rest
  omega

section

variable {value : List Char → Read (Json × List Char)} {k : Nat}
variable (hup : ∀ {s}, (value s).GivesUp → k < openings s)
variable (hrest : ∀ {s v rest}, value s = .ok (v, rest) → openings rest ≤ openings s)

include hup hrest

theorem elements_openings {rounds : Nat} {s : List Char} (h : (elements value rounds s).GivesUp) :
    k < openings s := by
  induction rounds generalizing s with
  | zero => obtain ⟨_, ⟨⟩⟩ := h
  | succ rounds ih =>
    rw [elements] at h
    obtain hvalue | ⟨⟨v, after⟩, hread, hnext⟩ := h.of_bind
    · exact hup hvalue
    have hafter := hrest hread
    -- Only behind a comma more is read.
    simp only at hnext
    split at hnext
    · obtain ⟨_, ⟨⟩⟩ := hnext
    · rename_i rest hcomma
      obtain hmore | ⟨_, _, hdone⟩ := hnext.of_bind
      · have hk := ih hmore
        have hbehind := openings_behind hcomma
        omega
      · obtain ⟨_, ⟨⟩⟩ := hdone
    · obtain ⟨_, ⟨⟩⟩ := hnext

theorem members_openings {width rounds : Nat} {s : List Char}
    (h : (members width value rounds s).GivesUp) : k < openings s := by
  induction rounds generalizing s with
  | zero => obtain ⟨_, ⟨⟩⟩ := h
  | succ rounds ih =>
    unfold members at h
    split at h
    · rename_i inside
      obtain hstring | ⟨⟨key, afterKey⟩, hkey, hcolon⟩ := h.of_bind
      · exact absurd hstring (string_not_givesUp _ _ _)
      -- The key is given back whole, so that what stands behind it is an end of the text.
      obtain ⟨raw, -, hraw⟩ := string_split hkey
      have hkey : openings afterKey ≤ openings ('"' :: inside) := by
        have h1 := openings_append ('"' :: raw) ('"' :: afterKey)
        have h2 := openings_cons_le '"' afterKey
        rw [hraw, ← List.cons_append]
        omega
      simp only at hcolon
      split at hcolon
      · rename_i afterColon heq
        have hspace := openings_behind heq
        obtain hvalue | ⟨⟨v, after⟩, hread, hnext⟩ := hcolon.of_bind
        · have hk := hup hvalue
          omega
        have hafter := hrest hread
        simp only at hnext
        split at hnext
        · obtain ⟨_, ⟨⟩⟩ := hnext
        · rename_i rest hcomma
          obtain hmore | ⟨_, _, hdone⟩ := hnext.of_bind
          · have hk := ih hmore
            have hbehind := openings_behind hcomma
            omega
          · obtain ⟨_, ⟨⟩⟩ := hdone
        · obtain ⟨_, ⟨⟩⟩ := hnext
      · obtain ⟨_, ⟨⟩⟩ := hcolon
    · obtain ⟨_, ⟨⟩⟩ := h

/-- Reading is given up inside brackets only, and these open with one more. -/
theorem valueStep_openings {rounds : Nat} {s : List Char}
    (h : (valueStep rounds value s).GivesUp) : k + 1 < openings s := by
  unfold valueStep at h
  split at h
  · obtain ⟨_, ⟨⟩⟩ := h
  · obtain hstring | ⟨_, _, hdone⟩ := h.of_bind
    · exact absurd hstring (string_not_givesUp _ _ _)
    · obtain ⟨_, ⟨⟩⟩ := hdone
  · rename_i inside
    split at h
    · obtain ⟨_, ⟨⟩⟩ := h
    · obtain hmembers | ⟨_, _, hdone⟩ := h.of_bind
      · have hk := members_openings hup hrest hmembers
        have hspace := openings_skipSpace_le inside
        have hbrace := openings_bracket (.inl rfl) inside
        omega
      · obtain ⟨_, ⟨⟩⟩ := hdone
  · rename_i inside
    split at h
    · obtain ⟨_, ⟨⟩⟩ := h
    · obtain helements | ⟨_, _, hdone⟩ := h.of_bind
      · have hk := elements_openings hup hrest helements
        have hspace := openings_skipSpace_le inside
        have hbracket := openings_bracket (.inr rfl) inside
        omega
      · obtain ⟨_, ⟨⟩⟩ := hdone
  · split at h
    · obtain ⟨_, ⟨⟩⟩ := h
    · split at h <;> exact absurd h (number_not_givesUp _ _ _)

end

theorem openings_pos {s : List Char} (h : opensBracket s = true) : 0 < openings s := by
  cases s with
  | nil => cases h
  | cons c rest =>
    refine List.countP_pos_iff.mpr ⟨c, List.mem_cons_self, ?_⟩
    simpa [opensBracket] using h

/-- Reading is given up only in a text that opens more brackets than the limit. -/
theorem valueWithin_openings {limit n : Nat} {s : List Char}
    (h : (valueWithin limit n s).GivesUp) : limit < openings s := by
  induction n generalizing limit s with
  | zero =>
    rw [valueWithin] at h
    obtain ⟨_, ⟨⟩⟩ := h
  | succ n ih =>
    cases limit with
    | zero =>
      rw [valueWithin] at h
      split at h
      · exact openings_pos ‹_›
      · -- No value is read inside, so any other reader would do for those.
        rename_i hopens
        let other : List Char → Read (Json × List Char) := fun t => .error (.value, t)
        have hup : ∀ {t}, (other t).GivesUp → 0 < openings t := by rintro _ ⟨_, ⟨⟩⟩
        have hrest : ∀ {t v rest}, other t = .ok (v, rest) → openings rest ≤ openings t := by
          rintro _ _ _ ⟨⟩
        rw [valueStep_eq_of_not_opensBracket (Bool.eq_false_iff.mpr hopens) _ other] at h
        have hstep := valueStep_openings hup hrest h
        omega
    | succ limit => exact valueStep_openings ih openings_le_of_valueWithin h

/-! ### Depth of values -/

variable [Nesting]

/-- The brackets of a text nest too deep for it to be loaded. -/
def TooDeep (s : List Char) : Prop :=
  ∃ offset, load s = .error ⟨.tooDeep, offset⟩

theorem tooDeep_iff {s : List Char} :
    TooDeep s ↔ (document (valueWithin Nesting.limit) s).GivesUp := by
  unfold TooDeep load
  cases document (valueWithin Nesting.limit) s with
  | ok v => exact iff_of_false (by rintro ⟨_, ⟨⟩⟩) (not_givesUp_ok v)
  | error e =>
    obtain ⟨fault, rest⟩ := e
    constructor
    · rintro ⟨offset, h⟩
      cases h
      exact ⟨rest, rfl⟩
    · rintro ⟨rest, h⟩
      cases h
      exact ⟨_, rfl⟩

theorem load_eq_decode_or_tooDeep (s : List Char) : load s = decode s ∨ TooDeep s := by
  have hfollows : (document (valueWithin Nesting.limit) s).Follows (document valueUpTo s) := by
    unfold document
    split
    · -- A byte order mark is a fault with a limit and without one.
      exact .refl _
    · exact (valueWithin_follows _ _ _).bind fun _ => .refl _
  exact hfollows.imp (congrArg _) tooDeep_iff.mpr

theorem load_eq_decode_of_not_tooDeep {s : List Char} (h : ¬ TooDeep s) : load s = decode s :=
  (load_eq_decode_or_tooDeep s).resolve_right h

theorem not_tooDeep_of_openings {s : List Char} (h : openings s ≤ Nesting.limit) :
    ¬ TooDeep s := by
  intro hdeep
  have hup := tooDeep_iff.mp hdeep
  unfold document at hup
  split at hup
  · obtain ⟨_, ⟨⟩⟩ := hup
  obtain hvalue | ⟨⟨v, after⟩, -, hend⟩ := hup.of_bind
  · have hlimit := valueWithin_openings hvalue
    have hspace := openings_skipSpace_le s
    omega
  · simp only at hend
    split at hend <;> obtain ⟨_, ⟨⟩⟩ := hend

/-- What is loaded is what is decoded, but for what nests too deep. -/
theorem load?_eq_some_iff {s : List Char} {v : Json} :
    load? s = some v ↔ decode? s = some v ∧ ¬ TooDeep s := by
  unfold load? decode?
  obtain h | ⟨offset, h⟩ := load_eq_decode_or_tooDeep s
  · rw [h]
    refine (and_iff_left_of_imp ?_).symm
    rintro hdecode ⟨offset, hdeep⟩
    rw [← h, hdeep] at hdecode
    cases hdecode
  · rw [h]
    exact iff_of_false nofun fun hdecode => hdecode.2 ⟨offset, h⟩

/-- What opens no more brackets than the limit is loaded as it is decoded. -/
theorem load_eq_decode {s : List Char} (h : openings s ≤ Nesting.limit) : load s = decode s :=
  load_eq_decode_of_not_tooDeep (not_tooDeep_of_openings h)

end PolicyEditor.Json
