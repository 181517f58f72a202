import PolicyEditor.Proofs.Token.Longest

/-!
Where a token ends for certain. Names, numbers and signs hold no blanks, so none of them goes on
over one; quoted texts close themselves.
-/

namespace PolicyEditor.Token

open PolicyEditor.Text

theorem prefix_of_not_mem {t a rest : List Char} {stop : Char} (h : t <+: a ++ stop :: rest)
    (hstop : stop ∉ t) : t <+: a := by
  by_cases hle : t.length ≤ a.length
  · exact List.prefix_of_prefix_length_le h (List.prefix_append a _) hle
  · have hstopped : a ++ [stop] <+: a ++ stop :: rest := ⟨rest, by simp⟩
    have hmem : a ++ [stop] <+: t := List.prefix_of_prefix_length_le hstopped h (by
      rw [List.length_append, List.length_singleton]
      omega)
    exact absurd (hmem.subset (List.mem_append_right a List.mem_cons_self)) hstop

/-- A character that no text of a class holds ends a longest one. -/
theorem Longest.of_stop {P : List Char → Prop} {chars mid : List Char} (h : Longest P chars mid)
    {stop : Char} (hstop : ∀ s, P s → stop ∉ s) (rest : List Char) :
    Longest P chars (mid ++ stop :: rest) := by
  refine ⟨h.1, fun s hs hP => h.2 s ?_ hP⟩
  rw [← List.append_assoc] at hs
  exact prefix_of_not_mem hs (hstop s hP)

theorem longest_self {P : List Char → Prop} {chars : List Char} (h : P chars) :
    Longest P chars [] := by
  refine ⟨h, fun s hs _ => ?_⟩
  rw [List.append_nil] at hs
  exact hs.length_le

/-! ### Texts without blanks -/

theorem Name.no_blank {s : List Char} (h : Name s) : ∀ c ∈ s, isBlank c = false := by
  obtain ⟨c, rest, rfl, hc, hrest⟩ := h
  refine List.forall_mem_cons.mpr ⟨isBlank_eq_false_of_isNameStart hc, fun d hd => ?_⟩
  exact (hrest d hd).elim isBlank_eq_false_of_isNameStart isBlank_eq_false_of_isDigit

def InNumeral (c : Char) : Prop :=
  isDigit c = true ∨ c ∈ ['.', 'e', 'E', '+', '-']

theorem Run.inNumeral {s : List Char} (h : Run isDigit s) : ∀ c ∈ s, InNumeral c :=
  fun c hc => .inl (h.2 c hc)

theorem Fraction.inNumeral {s : List Char} (h : Fraction s) : ∀ c ∈ s, InNumeral c := by
  cases h with
  | none => exact nofun
  | some hds => exact List.forall_mem_cons.mpr ⟨.inr (by decide), hds.inNumeral⟩

theorem Exponent.inNumeral {s : List Char} (h : Exponent s) : ∀ c ∈ s, InNumeral c := by
  cases h with
  | none => exact nofun
  | unsigned he hds =>
    refine List.forall_mem_cons.mpr ⟨?_, hds.inNumeral⟩
    rcases he with rfl | rfl <;> exact .inr (by decide)
  | signed he hsign hds =>
    refine List.forall_mem_cons.mpr ⟨?_, List.forall_mem_cons.mpr ⟨?_, hds.inNumeral⟩⟩
    · rcases he with rfl | rfl <;> exact .inr (by decide)
    · rcases hsign with rfl | rfl <;> exact .inr (by decide)

theorem Numeral.inNumeral {s : List Char} (h : Numeral s) : ∀ c ∈ s, InNumeral c := by
  obtain ⟨whole, part, power, hwhole, hpart, hpower, rfl⟩ := h
  intro c hc
  rcases List.mem_append.mp hc with hc | hc
  · exact hwhole.inNumeral c hc
  · exact (List.mem_append.mp hc).elim (hpart.inNumeral c) (hpower.inNumeral c)

theorem Numeral.no_blank {s : List Char} (h : Numeral s) : ∀ c ∈ s, isBlank c = false := by
  have hmarks : (['.', 'e', 'E', '+', '-'].all fun c => !isBlank c) = true := by decide
  intro c hc
  rcases h.inNumeral c hc with hdigit | hmark
  · exact isBlank_eq_false_of_isDigit hdigit
  · simpa using List.all_eq_true.mp hmarks c hmark

theorem Spells.no_blank {k : Kind} {s : List Char} (h : Spells k s) :
    ∀ c ∈ s, isBlank c = false := by
  have hall : s.all (fun c => !isBlank c) = true := by
    cases h with
    | operator sign => cases sign <;> decide
    | mark sign => cases sign <;> decide
  simpa only [List.all_eq_true, Bool.not_eq_true'] using hall

theorem Sign.no_blank {s : List Char} (h : Sign s) : ∀ c ∈ s, isBlank c = false :=
  h.elim fun _ hk => hk.no_blank

/-! ### Texts that close themselves -/

theorem Quoted.no_newline {s : List Char} (h : Quoted s) : '\n' ∉ s := by
  obtain ⟨body, hbody, rfl⟩ := h
  have hline : '\n' ∉ body := by
    induction hbody with
    | nil => exact List.not_mem_nil
    | plain _ _ hc _ ih => exact List.not_mem_cons_of_ne_of_not_mem hc.symm ih
    | escape hc _ ih =>
      exact List.not_mem_cons_of_ne_of_not_mem (by decide)
        (List.not_mem_cons_of_ne_of_not_mem hc.symm ih)
  simp [hline]

theorem Quoted.longest {s : List Char} (h : Quoted s) (rest : List Char) :
    Longest Quoted s rest := by
  refine ⟨h, fun t ht hquoted => ?_⟩
  obtain ⟨after, rfl⟩ : ∃ after, s = '"' :: after := by
    obtain ⟨body, -, hs⟩ := h
    exact ⟨_, hs⟩
  have hself := congrArg Prod.fst (h.stringReach_eq (List.prefix_append ('"' :: after) rest))
  have hother := congrArg Prod.fst (hquoted.stringReach_eq ht)
  simp only [List.append_eq, List.length_cons] at hself hother ⊢
  omega

theorem RawQuoted.longest {s : List Char} (h : RawQuoted s) (rest : List Char) :
    Longest RawQuoted s rest := by
  refine ⟨h, fun t ht hquoted => ?_⟩
  obtain ⟨body, -, rfl⟩ := h
  obtain ⟨other, hother, rfl⟩ := hquoted
  rw [List.cons_append, List.append_assoc, List.singleton_append] at ht
  have hbody : other <+: body ++ '`' :: rest :=
    (List.prefix_append other ['`']).trans (List.cons_prefix_cons.mp ht).2
  have hle := (prefix_of_not_mem hbody hother).length_le
  simp only [List.length_cons, List.length_append, List.length_nil]
  omega

end PolicyEditor.Token
