import PolicyEditor.Json.Decode

/-!
The inside of a string of a document, told without a decoder: characters that stand for themselves
and escapes. The decoder reads a text between quotes exactly if it is one.
-/

namespace PolicyEditor.Json

def IsHex (c : Char) : Prop :=
  c.isDigit = true ∨ ('a' ≤ c ∧ c ≤ 'f') ∨ ('A' ≤ c ∧ c ≤ 'F')

inductive StringText : List Char → Prop where
  | nil : StringText []
  /-- Controls do not stand for themselves. -/
  | plain {c : Char} {s : List Char} :
      c ≠ '"' → c ≠ '\\' → 0x20 ≤ c.toNat → StringText s → StringText (c :: s)
  | escape {e : Char} {s : List Char} :
      e ∈ ['"', '\\', '/', 'b', 'f', 'n', 'r', 't'] → StringText s → StringText ('\\' :: e :: s)
  | unicode {a b c d : Char} {s : List Char} : IsHex a → IsHex b → IsHex c → IsHex d →
      StringText s → StringText ('\\' :: 'u' :: a :: b :: c :: d :: s)

/-- Text in which every quote has a backslash before it that no other one takes; a backslash takes
the next character with it, but no line break. -/
inductive BetweenQuotes : List Char → Prop where
  | nil : BetweenQuotes []
  | plain {c : Char} {s : List Char} :
      c ≠ '"' → c ≠ '\\' → BetweenQuotes s → BetweenQuotes (c :: s)
  | escape {c : Char} {s : List Char} :
      c ≠ '\n' → BetweenQuotes s → BetweenQuotes ('\\' :: c :: s)

/-! ### Escapes -/

theorem hexValue?_isSome_iff {c : Char} : (hexValue? c).isSome = true ↔ IsHex c := by
  unfold hexValue? IsHex
  by_cases hdigit : c.isDigit = true
  · simp only [hdigit, if_true, Option.isSome_some, true_or]
  by_cases hlower : 'a' ≤ c ∧ c ≤ 'f'
  · simp only [hdigit, hlower, and_self, if_true, Bool.false_eq_true, if_false,
      Option.isSome_some, true_or, or_true]
  by_cases hupper : 'A' ≤ c ∧ c ≤ 'F'
  · simp only [hdigit, hlower, hupper, and_self, if_true, Bool.false_eq_true, if_false,
      Option.isSome_some, or_true]
  · simp only [hdigit, hlower, hupper, Bool.false_eq_true, if_false, Option.isSome_none, or_self]

theorem IsHex.ne_quote {c : Char} (h : IsHex c) : c ≠ '"' := by
  rintro rfl
  exact absurd (hexValue?_isSome_iff.mpr h) (by decide)

theorem IsHex.ne_backslash {c : Char} (h : IsHex c) : c ≠ '\\' := by
  rintro rfl
  exact absurd (hexValue?_isSome_iff.mpr h) (by decide)

theorem IsHex.ne_newline {c : Char} (h : IsHex c) : c ≠ '\n' := by
  rintro rfl
  exact absurd (hexValue?_isSome_iff.mpr h) (by decide)

theorem hexFour?_of_isHex {a b c d : Char} (ha : IsHex a) (hb : IsHex b) (hc : IsHex c)
    (hd : IsHex d) : ∃ n, ∀ rest, hexFour? (a :: b :: c :: d :: rest) = some (n, rest) := by
  obtain ⟨x, hx⟩ := Option.isSome_iff_exists.mp (hexValue?_isSome_iff.mpr ha)
  obtain ⟨y, hy⟩ := Option.isSome_iff_exists.mp (hexValue?_isSome_iff.mpr hb)
  obtain ⟨z, hz⟩ := Option.isSome_iff_exists.mp (hexValue?_isSome_iff.mpr hc)
  obtain ⟨w, hw⟩ := Option.isSome_iff_exists.mp (hexValue?_isSome_iff.mpr hd)
  exact ⟨4096 * x + 256 * y + 16 * z + w, fun rest => by
    simp only [hexFour?, hx, hy, hz, hw]
    rfl⟩

theorem isHex_of_hexFour? {s rest : List Char} {n : Nat} (h : hexFour? s = some (n, rest)) :
    ∃ a b c d, IsHex a ∧ IsHex b ∧ IsHex c ∧ IsHex d ∧ s = a :: b :: c :: d :: rest := by
  unfold hexFour? at h
  split at h
  · rename_i a b c d rest'
    simp only [Option.bind_eq_bind, Option.bind_eq_some_iff, Option.pure_def,
      Option.some.injEq, Prod.mk.injEq] at h
    obtain ⟨x, hx, y, hy, z, hz, w, hw, -, rfl⟩ := h
    exact ⟨a, b, c, d, hexValue?_isSome_iff.mp (Option.isSome_of_eq_some hx),
      hexValue?_isSome_iff.mp (Option.isSome_of_eq_some hy),
      hexValue?_isSome_iff.mp (Option.isSome_of_eq_some hz),
      hexValue?_isSome_iff.mp (Option.isSome_of_eq_some hw), rfl⟩
  · cases h

theorem simpleEscape?_isSome_iff {e : Char} : (simpleEscape? e).isSome = true ↔
    e ∈ ['"', '\\', '/', 'b', 'f', 'n', 'r', 't'] := by
  constructor
  · intro h
    unfold simpleEscape? at h
    split at h
    case h_9 => cases h
    all_goals decide
  · intro h
    simp only [List.mem_cons, List.not_mem_nil, or_false] at h
    rcases h with rfl | rfl | rfl | rfl | rfl | rfl | rfl | rfl <;> rfl

/-- Four digits that no second escape follows are a character. -/
theorem unicodeEscape_alone {mark rest after : List Char} {n : Nat}
    (h : hexFour? rest = some (n, after)) (hne : after ≠ [])
    (hnext : ∀ second, after ≠ '\\' :: 'u' :: second) :
    unicodeEscape mark rest = .ok (unitChar n, after) := by
  obtain ⟨c, after, rfl⟩ := List.exists_cons_of_ne_nil hne
  simp only [unicodeEscape, h]
  split <;> rfl

/-- Two escapes in a row are one character if they are halves of it, else the first is read alone.
-/
theorem unicodeEscape_pair {rest second last : List Char} {n m : Nat} (mark : List Char)
    (h : hexFour? rest = some (n, '\\' :: 'u' :: second)) (hm : hexFour? second = some (m, last))
    (hlong : 4 < second.length) : unicodeEscape mark rest =
      if isHighHalf n && isLowHalf m then .ok (joinHalves n m, last)
      else .ok (unitChar n, '\\' :: 'u' :: second) := by
  have hlength : 6 < ('\\' :: 'u' :: second).length := by
    simp only [List.length_cons]
    omega
  simp only [unicodeEscape, h, hm, hlength, decide_true, Bool.and_true]
  by_cases hhigh : isHighHalf n = true
  · simp only [hhigh, if_true, Bool.true_and]
  · simp only [hhigh, Bool.false_and, Bool.false_eq_true, if_false]

/-- Four digits are read alone, or together with a second escape that completes their character. -/
theorem StringText.unicodeEscape_eq {a b c d : Char} {s : List Char} (ha : IsHex a) (hb : IsHex b)
    (hc : IsHex c) (hd : IsHex d) (hs : StringText s) :
    ∃ ch t, StringText t ∧ t.length ≤ s.length ∧ ∀ mark after,
      unicodeEscape mark (a :: b :: c :: d :: (s ++ '"' :: after)) =
        .ok (ch, t ++ '"' :: after) := by
  have halone : ∀ n, (∀ after, hexFour? (a :: b :: c :: d :: (s ++ '"' :: after)) =
      some (n, s ++ '"' :: after)) →
      (∀ after second, s ++ '"' :: after ≠ '\\' :: 'u' :: second) →
      ∃ ch t, StringText t ∧ t.length ≤ s.length ∧ ∀ mark after,
        unicodeEscape mark (a :: b :: c :: d :: (s ++ '"' :: after)) =
          .ok (ch, t ++ '"' :: after) := fun n hn hnext =>
    ⟨unitChar n, s, hs, Nat.le_refl _, fun mark after =>
      unicodeEscape_alone (hn after) (List.append_ne_nil_of_right_ne_nil _ nofun) (hnext after)⟩
  obtain ⟨n, hn⟩ := hexFour?_of_isHex ha hb hc hd
  cases hs with
  | nil => exact halone n (fun after => hn _) nofun
  | plain _ hslash _ _ =>
    exact halone n (fun after => hn _) fun _ second heq => hslash (List.cons.inj heq).1
  | escape he _ =>
    refine halone n (fun after => hn _) fun _ second heq => ?_
    rw [(List.cons.inj (List.cons.inj heq).2).1] at he
    exact absurd he (by decide)
  | @unicode a' b' c' d' s ha' hb' hc' hd' hs' =>
    obtain ⟨m, hm⟩ := hexFour?_of_isHex ha' hb' hc' hd'
    have hpair : ∀ mark after, unicodeEscape mark
        (a :: b :: c :: d :: ('\\' :: 'u' :: a' :: b' :: c' :: d' :: s ++ '"' :: after)) =
          if isHighHalf n && isLowHalf m then .ok (joinHalves n m, s ++ '"' :: after)
          else .ok (unitChar n, '\\' :: 'u' :: a' :: b' :: c' :: d' :: s ++ '"' :: after) :=
      fun mark after => by
        have hlong : 4 < (a' :: b' :: c' :: d' :: (s ++ '"' :: after)).length := by
          simp only [List.length_cons, List.length_append]
          omega
        exact unicodeEscape_pair mark (hn _) (hm _) hlong
    by_cases hjoin : (isHighHalf n && isLowHalf m) = true
    · refine ⟨joinHalves n m, s, hs', by simp only [List.length_cons]; omega, fun mark after => ?_⟩
      rw [hpair, if_pos hjoin]
    · refine ⟨unitChar n, _, .unicode ha' hb' hc' hd' hs', Nat.le_refl _, fun mark after => ?_⟩
      rw [hpair, if_neg hjoin]

/-- The inside of a string stands for some characters: whatever follows its closing quote, the
decoder reads it as these. -/
def StandsFor (s chars : List Char) : Prop :=
  ∀ (start after : List Char) (rounds : Nat), s.length < rounds →
    string start rounds (s ++ '"' :: after) = .ok (chars, after)

theorem StringText.standsFor {s : List Char} (h : StringText s) :
    ∃ chars, StandsFor s chars := by
  induction hn : s.length using Nat.strongRecOn generalizing s with
  | ind n ih =>
    subst hn
    have hslash : '\\' ≠ '"' := by decide
    cases h with
    | nil =>
      refine ⟨[], fun start after rounds hrounds => ?_⟩
      obtain ⟨rounds, rfl⟩ : ∃ r, rounds = r + 1 := ⟨rounds - 1, by omega⟩
      simp only [List.nil_append, string, if_true]
    | @plain c s hquote hslash hprint hs =>
      obtain ⟨chars, hchars⟩ := ih s.length (Nat.lt_succ_self _) hs rfl
      refine ⟨c :: chars, fun start after rounds hrounds => ?_⟩
      obtain ⟨rounds, rfl⟩ : ∃ r, rounds = r + 1 := ⟨rounds - 1, by omega⟩
      simp only [List.length_cons] at hrounds
      simp only [List.cons_append, string, hquote, hslash, Nat.not_lt.mpr hprint, if_false,
        hchars start after rounds (by omega)]
      rfl
    | @escape e s he hs =>
      simp only [List.length_cons] at ih
      obtain ⟨chars, hchars⟩ := ih s.length (by omega) hs rfl
      obtain ⟨ch, hch⟩ := Option.isSome_iff_exists.mp (simpleEscape?_isSome_iff.mpr he)
      have hu : e ≠ 'u' := by
        rintro rfl
        exact absurd he (by decide)
      refine ⟨ch :: chars, fun start after rounds hrounds => ?_⟩
      obtain ⟨rounds, rfl⟩ : ∃ r, rounds = r + 1 := ⟨rounds - 1, by omega⟩
      simp only [List.length_cons] at hrounds
      simp only [List.cons_append, string, hslash, hu, hch, if_true, if_false,
        hchars start after rounds (by omega)]
      rfl
    | @unicode a b c d s ha hb hc hd hs =>
      simp only [List.length_cons] at ih
      obtain ⟨ch, t, ht, hlength, hch⟩ := hs.unicodeEscape_eq ha hb hc hd
      obtain ⟨chars, hchars⟩ := ih t.length (by omega) ht rfl
      refine ⟨ch :: chars, fun start after rounds hrounds => ?_⟩
      obtain ⟨rounds, rfl⟩ : ∃ r, rounds = r + 1 := ⟨rounds - 1, by omega⟩
      simp only [List.length_cons] at hrounds
      simp only [List.cons_append, string, hslash, if_true, if_false, hch]
      simp only [bind, Except.bind,
        hchars start after rounds (by omega)]
      rfl

/-! ### What the decoder takes -/

theorem StringText.betweenQuotes {s : List Char} (h : StringText s) : BetweenQuotes s := by
  induction h with
  | nil => exact .nil
  | plain hquote hslash _ _ ih => exact .plain hquote hslash ih
  | escape he _ ih =>
    refine .escape ?_ ih
    rintro rfl
    exact absurd he (by decide)
  | unicode ha hb hc hd _ ih =>
    exact .escape (by decide) (.plain ha.ne_quote ha.ne_backslash (.plain hb.ne_quote
      hb.ne_backslash (.plain hc.ne_quote hc.ne_backslash (.plain hd.ne_quote hd.ne_backslash ih))))

/-- No line ends inside a string. -/
theorem StringText.newline_notMem {s : List Char} (h : StringText s) : '\n' ∉ s := by
  induction h with
  | nil => exact List.not_mem_nil
  | plain _ _ hprint _ ih =>
    refine List.not_mem_cons_of_ne_of_not_mem ?_ ih
    rintro rfl
    exact absurd hprint (by decide)
  | escape he _ ih =>
    refine List.not_mem_cons_of_ne_of_not_mem (by decide)
      (List.not_mem_cons_of_ne_of_not_mem ?_ ih)
    rintro rfl
    exact absurd he (by decide)
  | unicode ha hb hc hd _ ih =>
    simp only [List.mem_cons, not_or]
    exact ⟨by decide, by decide, ha.ne_newline.symm, hb.ne_newline.symm, hc.ne_newline.symm,
      hd.ne_newline.symm, ih⟩

/-- Only one quote can close a text. -/
theorem BetweenQuotes.unique {s t after last : List Char} (hs : BetweenQuotes s)
    (ht : BetweenQuotes t) (h : s ++ '"' :: after = t ++ '"' :: last) : s = t ∧ after = last := by
  induction hs generalizing t with
  | nil =>
    cases ht with
    | nil => exact ⟨rfl, (List.cons.inj h).2⟩
    | plain hquote _ _ => exact absurd (List.cons.inj h).1.symm hquote
    | escape _ _ => exact absurd (List.cons.inj h).1 (by decide)
  | plain hquote hslash _ ih =>
    cases ht with
    | nil => exact absurd (List.cons.inj h).1 hquote
    | plain _ _ ht =>
      simp only [List.cons_append, List.cons.injEq] at h
      obtain ⟨rfl, h⟩ := h
      exact (ih ht h).imp_left (congrArg _)
    | escape _ _ => exact absurd (List.cons.inj h).1 hslash
  | escape _ _ ih =>
    cases ht with
    | nil => exact absurd (List.cons.inj h).1 (by decide)
    | plain _ hslash _ => exact absurd (List.cons.inj h).1.symm hslash
    | escape _ ht =>
      simp only [List.cons_append, List.cons.injEq] at h
      obtain ⟨-, rfl, h⟩ := h
      obtain ⟨rfl, rfl⟩ := ih ht h
      exact ⟨rfl, rfl⟩

/-- The digits of an escape that is read are there, and so are those of a second one. -/
theorem unicodeEscape_split {mark s last : List Char} {ch : Char}
    (h : unicodeEscape mark s = .ok (ch, last)) :
    ∃ a b c d t, IsHex a ∧ IsHex b ∧ IsHex c ∧ IsHex d ∧ s = a :: b :: c :: d :: t ∧
      (last = t ∨ ∃ a b c d, IsHex a ∧ IsHex b ∧ IsHex c ∧ IsHex d ∧
        t = '\\' :: 'u' :: a :: b :: c :: d :: last) := by
  unfold unicodeEscape at h
  split at h
  · cases h
  · cases h
  · rename_i n rest _ hn
    obtain ⟨a, b, c, d, ha, hb, hc, hd, rfl⟩ := isHex_of_hexFour? hn
    refine ⟨a, b, c, d, rest, ha, hb, hc, hd, rfl, ?_⟩
    split at h
    · split at h
      · rename_i second
        split at h
        · cases h
        · rename_i m low hm
          obtain ⟨a', b', c', d', ha', hb', hc', hd', rfl⟩ := isHex_of_hexFour? hm
          split at h
          · obtain ⟨-, rfl⟩ := Prod.mk.inj (Except.ok.inj h)
            exact .inr ⟨a', b', c', d', ha', hb', hc', hd', rfl⟩
          · exact .inl (Prod.mk.inj (Except.ok.inj h)).2.symm
      · exact .inl (Prod.mk.inj (Except.ok.inj h)).2.symm
    · exact .inl (Prod.mk.inj (Except.ok.inj h)).2.symm

theorem ok_of_bind_ok {ε α β : Type} {x : Except ε α} {f : α → Except ε β} {b : β}
    (h : (x >>= f) = .ok b) : ∃ a, x = .ok a ∧ f a = .ok b := by
  cases x with
  | error e => cases h
  | ok a => exact ⟨a, rfl, h⟩

/-- What is read of a string is the inside of one, up to the quote that closes it. -/
theorem string_split {start s chars after : List Char} {rounds : Nat}
    (h : string start rounds s = .ok (chars, after)) :
    ∃ raw, StringText raw ∧ s = raw ++ '"' :: after := by
  induction rounds generalizing s chars with
  | zero => cases h
  | succ rounds ih =>
    cases s with
    | nil => cases h
    | cons c rest =>
      simp only [string] at h
      by_cases hquote : c = '"'
      · simp only [hquote, if_true] at h
        cases h
        exact ⟨[], .nil, by rw [hquote]; rfl⟩
      simp only [hquote, if_false] at h
      by_cases hslash : c = '\\'
      · subst hslash
        simp only [if_true] at h
        cases rest with
        | nil => cases h
        | cons e rest =>
          simp only at h
          by_cases hu : e = 'u'
          · subst hu
            simp only [if_true] at h
            obtain ⟨⟨ch, next⟩, hread, h⟩ := ok_of_bind_ok h
            obtain ⟨⟨chars', last⟩, hstring, h⟩ := ok_of_bind_ok h
            cases h
            obtain ⟨raw, hraw, rfl⟩ := ih hstring
            obtain ⟨a, b, c, d, t, ha, hb, hc, hd, rfl, htail⟩ := unicodeEscape_split hread
            rcases htail with rfl | ⟨a', b', c', d', ha', hb', hc', hd', rfl⟩
            · exact ⟨_, .unicode ha hb hc hd hraw, rfl⟩
            · exact ⟨_, .unicode ha hb hc hd (.unicode ha' hb' hc' hd' hraw), rfl⟩
          · simp only [hu, if_false] at h
            split at h
            · cases h
            · rename_i ch hch
              obtain ⟨⟨chars', last⟩, hstring, h⟩ := ok_of_bind_ok h
              cases h
              obtain ⟨raw, hraw, rfl⟩ := ih hstring
              have he := simpleEscape?_isSome_iff.mp (Option.isSome_of_eq_some hch)
              exact ⟨_, .escape he hraw, rfl⟩
      · simp only [hslash, if_false] at h
        split at h
        · cases h
        · rename_i hprint
          obtain ⟨⟨chars', last⟩, hstring, h⟩ := ok_of_bind_ok h
          cases h
          obtain ⟨raw, hraw, rfl⟩ := ih hstring
          exact ⟨_, .plain hquote hslash (Nat.not_lt.mp hprint) hraw, rfl⟩

/-- More rounds read no more. -/
theorem string_mono {start s : List Char} {p : List Char × List Char} {rounds more : Nat}
    (h : string start rounds s = .ok p) (hle : rounds ≤ more) : string start more s = .ok p := by
  induction rounds generalizing s p more with
  | zero => cases h
  | succ rounds ih =>
    obtain ⟨more, rfl⟩ : ∃ n, more = n + 1 := ⟨more - 1, by omega⟩
    have hrest : ∀ {t q}, string start rounds t = .ok q → string start more t = .ok q :=
      fun hread => ih hread (Nat.le_of_succ_le_succ hle)
    cases s with
    | nil => cases h
    | cons c rest =>
      simp only [string] at h ⊢
      split at h
      · rw [if_pos ‹_›]
        exact h
      · rw [if_neg ‹_›]
        split at h
        · rw [if_pos ‹_›]
          cases rest with
          | nil => cases h
          | cons e rest =>
            simp only at h ⊢
            split at h
            · rw [if_pos ‹_›]
              obtain ⟨q, hread, h⟩ := ok_of_bind_ok h
              obtain ⟨r, hstring, h⟩ := ok_of_bind_ok h
              simp only [hread, bind, Except.bind, hrest hstring]
              exact h
            · rw [if_neg ‹_›]
              split at h
              · cases h
              · obtain ⟨r, hstring, h⟩ := ok_of_bind_ok h
                simp only [bind, Except.bind, hrest hstring]
                exact h
        · rw [if_neg ‹_›]
          split at h
          · cases h
          · rw [if_neg ‹_›]
            obtain ⟨r, hstring, h⟩ := ok_of_bind_ok h
            simp only [bind, Except.bind, hrest hstring]
            exact h

/-- What is read of a string stands for the characters that are read. -/
theorem standsFor_of_string {start s chars after : List Char} {rounds : Nat}
    (h : string start rounds s = .ok (chars, after)) :
    ∃ raw, StringText raw ∧ StandsFor raw chars ∧ s = raw ++ '"' :: after := by
  obtain ⟨raw, hraw, rfl⟩ := string_split h
  obtain ⟨chars', hchars⟩ := hraw.standsFor
  have hboth := string_mono h (Nat.le_add_right rounds (raw.length + 1))
  rw [hchars start after _ (by omega)] at hboth
  cases hboth
  exact ⟨raw, hraw, hchars, rfl⟩

/-! ### Whole documents -/

theorem document_quote (t : List Char) : document valueUpTo ('"' :: t) =
    (string ('"' :: t) (t.length + 2) t >>= fun p =>
      match skipSpace p.2 with
      | [] => .ok (.str (String.ofList p.1))
      | rest => .error (.extraData, rest)) := by
  have hmark : ('"' :: t).head? ≠ some '\uFEFF' := by simp
  have hspace : skipSpace ('"' :: t) = '"' :: t := rfl
  rw [document, if_neg hmark, hspace, List.length_cons]
  simp only [valueUpTo, valueStep, bind, Except.bind, pure, Except.pure]
  cases string ('"' :: t) (t.length + 2) t <;> rfl

/-- Between quotes, a text that stands for a string is read as this string. -/
theorem StandsFor.decode_eq {raw chars : List Char} (h : StandsFor raw chars) :
    decode ('"' :: raw ++ ['"']) = .ok (.str (String.ofList chars)) := by
  have hread := h ('"' :: (raw ++ ['"'])) [] ((raw ++ ['"']).length + 2)
    (by rw [List.length_append]; omega)
  rw [decode, List.cons_append, document_quote, hread]
  rfl

/-- A text between quotes is a document exactly if it is the inside of a string. -/
theorem decode_quoted_iff {s : List Char} (hs : BetweenQuotes s) :
    (∃ v, decode ('"' :: s ++ ['"']) = .ok v) ↔ StringText s := by
  constructor
  · rintro ⟨v, h⟩
    rw [decode, List.cons_append, document_quote] at h
    cases hread : string ('"' :: (s ++ ['"'])) ((s ++ ['"']).length + 2) (s ++ ['"']) with
    | error e =>
      rw [hread] at h
      cases h
    | ok p =>
      obtain ⟨raw, hraw, heq⟩ := string_split hread
      exact (hs.unique hraw.betweenQuotes heq).1 ▸ hraw
  · intro h
    obtain ⟨chars, hchars⟩ := h.standsFor
    exact ⟨_, hchars.decode_eq⟩

end PolicyEditor.Json
