import PolicyEditor.Proofs.Text.Classes
import PolicyEditor.Proofs.Token.Grammar
import PolicyEditor.Token.Scan

/-!
What the scanner measures is the longest text of its class: runs of characters, strings, numbers and
signs.
-/

namespace PolicyEditor.Token

open PolicyEditor.Text (isBlank isDigit isNameStart)

/-! ### Longest texts -/

theorem Longest.eq {P : List Char → Prop} {a b r r' : List Char} (h : Longest P a r)
    (h' : Longest P b r') (heq : a ++ r = b ++ r') : a = b := by
  have hle : b.length ≤ a.length := h.2 b (heq ▸ List.prefix_append b r') h'.1
  have hge : a.length ≤ b.length := h'.2 a (heq ▸ List.prefix_append a r) h.1
  have ha : a <+: b ++ r' := heq ▸ List.prefix_append a r
  exact List.IsPrefix.eq_of_length_le (List.prefix_of_prefix_length_le ha
    (List.prefix_append b r') hge) hle

/-- Two longest texts at one place that begin alike have one length. -/
theorem Longest.length_eq {P : List Char → Prop} {c : Char} {tail rest : List Char} {n : Nat}
    (h : Longest P (c :: tail) rest)
    (h' : Longest P (c :: (tail ++ rest).take n) ((tail ++ rest).drop n))
    (hn : n ≤ (tail ++ rest).length) : n = tail.length := by
  have heq := h.eq h' (by rw [List.cons_append, List.cons_append, List.take_append_drop])
  have hlength := congrArg List.length heq
  simp only [List.length_cons, List.length_take, Nat.min_eq_left hn] at hlength
  omega

/-! ### Runs -/

theorem runLength_le (p : Char → Bool) (s : List Char) : runLength p s ≤ s.length :=
  (List.takeWhile_prefix p).length_le

theorem take_runLength (p : Char → Bool) (s : List Char) :
    s.take (runLength p s) = s.takeWhile p :=
  List.prefix_iff_eq_take.mp (List.takeWhile_prefix p) |>.symm

theorem drop_runLength (p : Char → Bool) (s : List Char) :
    s.drop (runLength p s) = s.dropWhile p := by
  have h : s.takeWhile p ++ s.drop (runLength p s) = s.takeWhile p ++ s.dropWhile p := by
    rw [← take_runLength, List.take_append_drop, take_runLength, List.takeWhile_append_dropWhile]
  exact List.append_cancel_left h

theorem all_take_runLength (p : Char → Bool) (s : List Char) :
    ∀ c ∈ s.take (runLength p s), p c = true := by
  rw [take_runLength]
  exact fun c hc => List.all_eq_true.mp List.all_takeWhile c hc

theorem length_le_runLength {p : Char → Bool} {t s : List Char} (h : t <+: s)
    (hall : ∀ c ∈ t, p c = true) : t.length ≤ runLength p s := by
  obtain ⟨after, rfl⟩ := h
  rw [runLength, List.takeWhile_append_of_pos hall, List.length_append]
  exact Nat.le_add_right _ _

/-- The run is over where it ends. -/
theorem head?_drop_runLength (p : Char → Bool) (s : List Char) :
    ∀ c ∈ (s.drop (runLength p s)).head?, p c = false := by
  rw [drop_runLength]
  intro c hc
  have h := List.head?_dropWhile_not p s
  rw [hc] at h
  simpa using h

/-- A class of texts that go on, after a first character, with characters of one property. -/
theorem longest_headed {P : List Char → Prop} {q : Char → Bool} {c : Char} (s : List Char)
    (hnil : ¬ P []) (hcons : ∀ t, P (c :: t) ↔ ∀ d ∈ t, q d = true) :
    Longest P (c :: s.take (runLength q s)) (s.drop (runLength q s)) := by
  refine ⟨(hcons _).mpr (all_take_runLength q s), fun t ht hP => ?_⟩
  rw [List.cons_append, List.take_append_drop] at ht
  cases t with
  | nil => exact absurd hP hnil
  | cons d t =>
    obtain ⟨rfl, htail⟩ := List.cons_prefix_cons.mp ht
    have hle := length_le_runLength htail ((hcons t).mp hP)
    rw [List.length_cons, List.length_cons, List.length_take,
      Nat.min_eq_left (runLength_le q s)]
    omega

theorem longest_blanks {c : Char} (h : isBlank c = true) (s : List Char) :
    Longest (Run isBlank) (c :: s.take (runLength isBlank s)) (s.drop (runLength isBlank s)) := by
  apply longest_headed s (fun hrun => hrun.1 rfl)
  intro t
  simp only [Run, ne_eq, reduceCtorEq, not_false_eq_true, true_and, List.forall_mem_cons, h]

theorem longest_comment (s : List Char) :
    Longest Comment ('#' :: s.take (runLength (· ≠ '\n') s))
      (s.drop (runLength (· ≠ '\n') s)) := by
  apply longest_headed s (by rintro ⟨body, h, -⟩; cases h)
  intro t
  simp only [Comment, List.cons.injEq, true_and, exists_eq_left', decide_eq_true_eq]
  exact ⟨fun h d hd hn => h (hn ▸ hd), fun h hn => h _ hn rfl⟩

theorem longest_openQuoted (s : List Char) :
    Longest OpenQuoted ('"' :: s.take (runLength (· ≠ '\n') s))
      (s.drop (runLength (· ≠ '\n') s)) := by
  apply longest_headed s (by rintro ⟨body, h, -⟩; cases h)
  intro t
  simp only [OpenQuoted, List.cons.injEq, true_and, exists_eq_left', decide_eq_true_eq]
  exact ⟨fun h d hd hn => h (hn ▸ hd), fun h hn => h _ hn rfl⟩

theorem longest_name {c : Char} (h : isNameStart c = true) (s : List Char) :
    Longest Name (c :: s.take (runLength isIdentifierChar s))
      (s.drop (runLength isIdentifierChar s)) := by
  apply longest_headed s (by rintro ⟨c, rest, h, -⟩; cases h)
  intro t
  simp only [isIdentifierChar, Bool.or_eq_true]
  constructor
  · rintro ⟨d, rest, heq, -, hall⟩
    cases heq
    exact hall
  · exact fun hall => ⟨c, t, rfl, h, hall⟩

/-! ### Strings -/

theorem runLength_cons {p : Char → Bool} {c : Char} (h : p c = true) (s : List Char) :
    runLength p (c :: s) = runLength p s + 1 := by
  rw [runLength, List.takeWhile_cons_of_pos h, List.length_cons, runLength]

theorem stringReach_le (s : List Char) : (stringReach s).1 ≤ s.length := by
  fun_induction stringReach s <;> simp_all

/-- A string is closed by its first quote that no backslash takes. -/
theorem StringBody.stringReach_eq {body : List Char} (h : StringBody body) (after : List Char) :
    stringReach (body ++ '"' :: after) = (body.length + 1, true) := by
  induction h with
  | nil => rfl
  | @plain c s hquote hslash hbreak hs ih =>
    rw [List.cons_append, stringReach.eq_7]
    · rw [ih]; rfl
    all_goals simp_all
  | @escape c s hbreak hs ih =>
    rw [List.cons_append, List.cons_append, stringReach.eq_6]
    · rw [ih]; rfl
    · simp_all

/-- What a closed string takes is the inside of a string and its closing quote. -/
theorem take_stringReach {s : List Char} (h : (stringReach s).2 = true) :
    ∃ body, StringBody body ∧ s.take (stringReach s).1 = body ++ ['"'] := by
  fun_induction stringReach s with
  | case1 => cases h
  | case2 rest => exact ⟨[], .nil, rfl⟩
  | case3 => cases h
  | case4 => cases h
  | case5 => cases h
  | case6 c rest hbreak ih =>
    obtain ⟨body, hbody, htake⟩ := ih h
    exact ⟨'\\' :: c :: body, .escape hbreak hbody, congrArg ('\\' :: c :: ·) htake⟩
  | case7 c rest hquote hbreak hend _ hslash ih =>
    obtain ⟨body, hbody, htake⟩ := ih h
    have hplain : c ≠ '\\' := by
      rintro rfl
      cases rest with
      | nil => exact hend rfl rfl
      | cons d rest => exact hslash d rest rfl rfl
    exact ⟨c :: body, .plain hquote hplain hbreak hbody, congrArg (c :: ·) htake⟩

/-- A string that nothing closes takes what its line holds. -/
theorem stringReach_open {s : List Char} (h : (stringReach s).2 = false) :
    (stringReach s).1 = runLength (· ≠ '\n') s := by
  fun_induction stringReach s with
  | case1 => rfl
  | case2 => cases h
  | case3 => rfl
  | case4 => rfl
  | case5 => rfl
  | case6 c rest hbreak ih =>
    rw [runLength_cons (by decide), runLength_cons (by simpa using hbreak), ← ih h]
  | case7 c rest _ hbreak _ _ _ ih =>
    rw [runLength_cons (by simpa using hbreak), ← ih h]

theorem Quoted.stringReach_eq {t s : List Char} (h : Quoted t) (ht : t <+: '"' :: s) :
    stringReach s = (t.length - 1, true) := by
  obtain ⟨body, hbody, rfl⟩ := h
  obtain ⟨after, hs⟩ := ht
  simp only [List.cons_append, List.append_assoc, List.nil_append, List.cons.injEq, true_and] at hs
  rw [← hs, hbody.stringReach_eq]
  simp only [List.length_cons, List.length_append, List.length_nil, Nat.add_sub_cancel]

theorem longest_quoted {s : List Char} (h : (stringReach s).2 = true) :
    Longest Quoted ('"' :: s.take (stringReach s).1) (s.drop (stringReach s).1) := by
  obtain ⟨body, hbody, htake⟩ := take_stringReach h
  refine ⟨⟨body, hbody, congrArg ('"' :: ·) htake⟩, fun t ht hquoted => ?_⟩
  rw [List.cons_append, List.take_append_drop] at ht
  have hreach := congrArg Prod.fst (hquoted.stringReach_eq ht)
  have hle := stringReach_le s
  simp only [List.length_cons, List.length_take]
  omega

theorem not_quoted_of_open {s t : List Char} (h : (stringReach s).2 = false) (ht : t <+: '"' :: s) :
    ¬ Quoted t := by
  intro hquoted
  rw [hquoted.stringReach_eq ht] at h
  cases h

/-- A raw string ends with the first backquote behind its opening one. -/
theorem longest_rawQuoted {s : List Char} (h : runLength (· ≠ '`') s < s.length) :
    Longest RawQuoted ('`' :: s.take (runLength (· ≠ '`') s + 1))
      (s.drop (runLength (· ≠ '`') s + 1)) := by
  have hclose : s[runLength (· ≠ '`') s] = '`' := by
    have hhead := head?_drop_runLength (· ≠ '`') s s[runLength (· ≠ '`') s]
      (by rw [List.head?_drop, List.getElem?_eq_getElem h]; rfl)
    simpa using hhead
  refine ⟨⟨s.take (runLength (· ≠ '`') s), fun hmem => ?_, ?_⟩, ?_⟩
  · simpa using all_take_runLength (· ≠ '`') s _ hmem
  · rw [List.take_succ_eq_append_getElem h, hclose]
  · rintro t ht ⟨body, hbody, rfl⟩
    rw [List.cons_append, List.take_append_drop] at ht
    have hprefix : body <+: s :=
      (List.prefix_append body ['`']).trans (List.cons_prefix_cons.mp ht).2
    have hle : body.length ≤ runLength (· ≠ '`') s :=
      length_le_runLength hprefix fun c hc => by
        simp only [decide_eq_true_eq]
        exact fun heq => hbody (heq ▸ hc)
    simp only [List.length_cons, List.length_append, List.length_take, List.length_nil]
    omega

theorem not_rawQuoted_of_open {s : List Char} (h : ¬ runLength (· ≠ '`') s < s.length) :
    '`' ∉ s := by
  intro hmem
  have hall : s.take (runLength (· ≠ '`') s) = s := List.take_of_length_le (Nat.not_lt.mp h)
  have hne := all_take_runLength (· ≠ '`') s '`' (hall.symm ▸ hmem)
  simp at hne

/-! ### Numbers -/

theorem run_take_runLength {p : Char → Bool} {c : Char} (h : p c = true) (s : List Char) :
    Run p (c :: s.take (runLength p s)) :=
  ⟨List.cons_ne_nil _ _, List.forall_mem_cons.mpr ⟨h, all_take_runLength p s⟩⟩

theorem fraction_take (s : List Char) : Fraction (s.take (fractionLength s)) := by
  unfold fractionLength
  split
  · rename_i d rest
    split
    case isTrue h =>
      rw [Nat.add_comm, List.take_succ_cons, List.take_succ_cons]
      exact .some (run_take_runLength h rest)
    case isFalse => exact .none
  · exact .none

theorem exponent_take (s : List Char) : Exponent (s.take (exponentLength s)) := by
  unfold exponentLength
  split
  · rename_i e c rest
    split
    case isFalse => exact .none
    case isTrue he =>
      split
      case isTrue hc =>
        rw [Nat.add_comm, List.take_succ_cons, List.take_succ_cons]
        exact .unsigned he (run_take_runLength hc rest)
      case isFalse =>
        split
        case isFalse => exact .none
        case isTrue hsign =>
          split
          · rename_i d rest
            split
            case isTrue hd =>
              rw [Nat.add_comm, List.take_succ_cons, List.take_succ_cons, List.take_succ_cons]
              exact .signed he hsign (run_take_runLength hd rest)
            case isFalse => exact .none
          · exact .none
  · exact .none

theorem runLength_append {p : Char → Bool} {u : List Char} (h : ∀ c ∈ u, p c = true)
    (v : List Char) : runLength p (u ++ v) = u.length + runLength p v := by
  rw [runLength, List.takeWhile_append_of_pos h, List.length_append, runLength]

theorem fractionLength_point {ds : List Char} (h : Run isDigit ds) (v : List Char) :
    fractionLength ('.' :: (ds ++ v)) = 1 + ds.length + runLength isDigit v := by
  obtain ⟨hne, hall⟩ := h
  cases ds with
  | nil => exact absurd rfl hne
  | cons d ds =>
    obtain ⟨hd, hds⟩ := List.forall_mem_cons.mp hall
    rw [List.cons_append, fractionLength, if_pos hd, runLength_append hds, List.length_cons]
    omega

namespace Exponent

theorem length_le {power : List Char} (h : Exponent power) (after : List Char) :
    power.length ≤ exponentLength (power ++ after) := by
  cases h with
  | none => exact Nat.zero_le _
  | @unsigned e ds he hds =>
    obtain ⟨hne, hall⟩ := hds
    cases ds with
    | nil => exact absurd rfl hne
    | cons d ds =>
      obtain ⟨hd, hds⟩ := List.forall_mem_cons.mp hall
      simp only [List.cons_append, exponentLength, he, hd, if_true, runLength_append hds,
        List.length_cons]
      omega
  | @signed e sign ds he hsign hds =>
    obtain ⟨hne, hall⟩ := hds
    have hnot : isDigit sign = false := by
      rcases hsign with rfl | rfl <;> decide
    cases ds with
    | nil => exact absurd rfl hne
    | cons d ds =>
      obtain ⟨hd, hds⟩ := List.forall_mem_cons.mp hall
      simp only [List.cons_append, exponentLength, he, hnot, hsign, hd, if_true, Bool.false_eq_true,
        if_false, runLength_append hds, List.length_cons]
      omega

/-- An exponent begins with a letter. -/
theorem head_ne {power : List Char} (h : Exponent power) (hne : power ≠ []) (after : List Char) :
    runLength isDigit (power ++ after) = 0 ∧ fractionLength (power ++ after) = 0 := by
  have hletter : ∀ e s, e = 'e' ∨ e = 'E' →
      runLength isDigit (e :: s) = 0 ∧ fractionLength (e :: s) = 0 := by
    rintro e s (rfl | rfl)
    · exact ⟨by rw [runLength, List.takeWhile_cons_of_neg (by decide), List.length_nil], rfl⟩
    · exact ⟨by rw [runLength, List.takeWhile_cons_of_neg (by decide), List.length_nil], rfl⟩
  cases h with
  | none => exact absurd rfl hne
  | unsigned he => exact hletter _ _ he
  | signed he => exact hletter _ _ he

end Exponent

/-- No numeral that a text begins with is longer than what is measured. What follows the whole
digits of a numeral is no digit, so that they are all the digits there are; and likewise for its
fraction. -/
theorem Numeral.length_le {t : List Char} (h : Numeral t) (after : List Char) :
    t.length ≤ numberLength (t ++ after) := by
  obtain ⟨whole, part, power, ⟨-, hwhole⟩, hpart, hpower, rfl⟩ := h
  have hend := hpower.length_le after
  simp only [numberLength, List.append_assoc, runLength_append hwhole, List.length_append]
  cases hpart with
  | none =>
    by_cases hne : power = []
    · simp only [hne, List.length_nil]
      omega
    · obtain ⟨hdigits, hpoint⟩ := hpower.head_ne hne after
      simp only [List.nil_append, hdigits, Nat.add_zero, List.drop_left, hpoint, List.length_nil]
      omega
  | @some ds hds =>
    have hpoint : runLength isDigit ('.' :: (ds ++ (power ++ after))) = 0 := by
      rw [runLength, List.takeWhile_cons_of_neg (by decide), List.length_nil]
    simp only [List.cons_append, hpoint, Nat.add_zero, List.drop_left,
      fractionLength_point hds, List.length_cons]
    by_cases hne : power = []
    · simp only [hne, List.length_nil]
      omega
    · have hdrop : (whole ++ '.' :: (ds ++ (power ++ after))).drop (whole.length + (1 + ds.length))
          = power ++ after := by
        rw [List.drop_append, List.drop_eq_nil_of_le (by omega), List.nil_append,
          Nat.add_sub_cancel_left, Nat.add_comm, List.drop_succ_cons, List.drop_left]
      simp only [(hpower.head_ne hne after).1, Nat.add_zero, hdrop]
      omega

theorem numeral_take {s : List Char} (h : 0 < runLength isDigit s) :
    Numeral (s.take (numberLength s)) := by
  let rest := s.drop (runLength isDigit s)
  refine ⟨s.take (runLength isDigit s), rest.take (fractionLength rest),
    (s.drop (runLength isDigit s + fractionLength rest)).take _, ⟨?_, all_take_runLength isDigit s⟩,
    fraction_take rest, exponent_take _, ?_⟩
  · intro hnil
    have hlength := congrArg List.length hnil
    rw [List.length_take, Nat.min_eq_left (runLength_le isDigit s), List.length_nil] at hlength
    omega
  · simp only [numberLength, List.take_add, List.append_assoc, rest]

theorem longest_numeral {c : Char} (h : isDigit c = true) (s : List Char) :
    Longest Numeral (c :: s.take (numberLength (c :: s) - 1))
      (s.drop (numberLength (c :: s) - 1)) := by
  have hdigits : 0 < runLength isDigit (c :: s) := by
    rw [runLength_cons h]
    exact Nat.succ_pos _
  have hpos : numberLength (c :: s) = numberLength (c :: s) - 1 + 1 := by
    rw [numberLength]
    omega
  have hnumeral := numeral_take hdigits
  rw [hpos, List.take_succ_cons] at hnumeral
  refine ⟨hnumeral, fun t ht hnum => ?_⟩
  rw [List.cons_append, List.take_append_drop] at ht
  obtain ⟨after, hafter⟩ := ht
  have hle := hnum.length_le after
  have hlength := congrArg List.length hafter
  simp only [List.length_append, List.length_cons] at hlength
  rw [hafter] at hle
  simp only [List.length_cons, List.length_take]
  omega

/-! ### Signs -/

theorem spells_iff {k : Kind} {s : List Char} :
    Spells k s ↔ (∃ c, s = [c] ∧ singleKind? c = some k) ∨
      ∃ c d sign, s = [c, d] ∧ pairOperator? c d = some sign ∧ k = .operator sign := by
  constructor
  · intro h
    cases h with
    | operator sign =>
      cases sign
      case assign | eq | neq | lte | gte => exact .inr ⟨_, _, _, rfl, rfl, rfl⟩
      all_goals exact .inl ⟨_, rfl, rfl⟩
    | mark sign => cases sign <;> exact .inl ⟨_, rfl, rfl⟩
  · rintro (⟨c, rfl, h⟩ | ⟨c, d, sign, rfl, h, rfl⟩)
    · unfold singleKind? at h
      split at h
      case h_22 => cases h
      all_goals
        cases h
        first
        | exact Spells.operator _
        | exact Spells.mark _
    · unfold pairOperator? at h
      split at h
      case h_6 => cases h
      all_goals
        cases h
        exact Spells.operator _

/-- Every operator of two characters begins with a sign of one. -/
theorem singleKind?_of_spells {k : Kind} {c : Char} {s : List Char} (h : Spells k (c :: s)) :
    (singleKind? c).isSome = true := by
  rcases spells_iff.mp h with ⟨e, heq, hsingle⟩ | ⟨e, d, sign, heq, hpair, -⟩
  · cases heq
    rw [hsingle]
    rfl
  · cases heq
    unfold pairOperator? at hpair
    split at hpair
    case h_6 => cases hpair
    all_goals rfl

theorem Spells.length_le {k : Kind} {s : List Char} (h : Spells k s) : s.length ≤ 2 := by
  rcases spells_iff.mp h with ⟨c, rfl, -⟩ | ⟨c, d, sign, rfl, -⟩
  · exact Nat.le_succ 1
  · exact Nat.le_refl 2

theorem Spells.kind_eq {k k' : Kind} {s : List Char} (h : Spells k s) (h' : Spells k' s) :
    k = k' := by
  rcases spells_iff.mp h with ⟨c, rfl, hk⟩ | ⟨c, d, sign, rfl, hk, rfl⟩
  · rcases spells_iff.mp h' with ⟨c', heq, hk'⟩ | ⟨c', d', sign', heq, -⟩
    · cases heq
      exact Option.some.inj (hk.symm.trans hk')
    · cases heq
  · rcases spells_iff.mp h' with ⟨c', heq, -⟩ | ⟨c', d', sign', heq, hk', rfl⟩
    · cases heq
    · cases heq
      exact congrArg Kind.operator (Option.some.inj (hk.symm.trans hk'))

/-- What the scanner takes for a sign is the longest sign, and an invalid token only where no sign
begins. -/
theorem signReach_spec (c : Char) (rest : List Char) :
    (Longest Sign (c :: rest.take (signReach c rest).2) (rest.drop (signReach c rest).2) ∧
      Spells (signReach c rest).1 (c :: rest.take (signReach c rest).2)) ∨
    (signReach c rest = (.invalid, 0) ∧ ∀ s, ¬ Sign (c :: s)) := by
  unfold signReach
  split
  · rename_i sign hpair
    obtain ⟨d, hd, hsign⟩ := Option.bind_eq_some_iff.mp hpair
    cases rest with
    | nil => cases hd
    | cons d' rest =>
      cases hd
      have hspells : Spells (.operator sign) [c, d] :=
        spells_iff.mpr (.inr ⟨c, d, sign, rfl, hsign, rfl⟩)
      exact .inl ⟨⟨⟨_, hspells⟩, fun _ _ h => h.choose_spec.length_le⟩, hspells⟩
  · rename_i hpair
    split
    · rename_i k hk
      have hspells : Spells k [c] := spells_iff.mpr (.inl ⟨c, rfl, hk⟩)
      refine .inl ⟨⟨⟨k, hspells⟩, ?_⟩, hspells⟩
      -- A longer sign would be an operator of two characters.
      rintro t ⟨after, ht⟩ ⟨k', hk'⟩
      rcases spells_iff.mp hk' with ⟨e, rfl, -⟩ | ⟨e, d, sign, rfl, hsign, -⟩
      · exact Nat.le_refl 1
      · cases rest with
        | nil => cases ht
        | cons d' rest =>
          cases ht
          rw [List.head?_cons, Option.bind_some, hsign] at hpair
          cases hpair
    · rename_i hk
      refine .inr ⟨rfl, ?_⟩
      rintro s ⟨k, hspells⟩
      have hsome := singleKind?_of_spells hspells
      rw [hk] at hsome
      cases hsome

end PolicyEditor.Token
