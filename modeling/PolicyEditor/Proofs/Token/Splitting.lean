import PolicyEditor.Proofs.Token.Longest

/-!
A text splits into tokens in one way only: what the scanner takes is a token with which the text
begins, and no other token can stand there.
-/

namespace PolicyEditor.Token

open PolicyEditor.Text

/-! ### The order of tokens -/

theorem start_ge_of_mem_scanFrom {skip pos : Nat} {s : List Char} {t : Token}
    (h : t ∈ scanFrom skip pos s) : pos ≤ t.start := by
  induction s generalizing skip pos with
  | nil => cases skip <;> simp only [scanFrom, List.not_mem_nil] at h
  | cons c rest ih =>
    cases skip with
    | zero =>
      simp only [scanFrom, List.mem_cons] at h
      rcases h with rfl | h
      · exact Nat.le_refl pos
      · have hge := ih h
        omega
    | succ skip =>
      have hge : pos + 1 ≤ t.start := ih h
      omega

theorem start_lt_of_mem_scanFrom {skip pos : Nat} {s : List Char} {t : Token}
    (h : t ∈ scanFrom skip pos s) : t.start < pos + s.length := by
  induction s generalizing skip pos with
  | nil => cases skip <;> simp only [scanFrom, List.not_mem_nil] at h
  | cons c rest ih =>
    rw [List.length_cons]
    cases skip with
    | zero =>
      simp only [scanFrom, List.mem_cons] at h
      rcases h with rfl | h
      · exact Nat.lt_add_of_pos_right (Nat.succ_pos _)
      · have hlt := ih h
        omega
    | succ skip =>
      have hlt : t.start < pos + 1 + rest.length := ih h
      omega

/-- A token takes at least its first character, so the next one begins later. -/
theorem scanFrom_sorted (skip pos : Nat) (s : List Char) :
    (scanFrom skip pos s).Pairwise fun a b => a.start < b.start := by
  induction s generalizing skip pos with
  | nil => cases skip <;> exact List.Pairwise.nil
  | cons c rest ih =>
    cases skip with
    | zero =>
      refine List.Pairwise.cons ?_ (ih _ (pos + 1))
      intro t ht
      have hge := start_ge_of_mem_scanFrom ht
      exact Nat.lt_of_succ_le hge
    | succ skip => exact ih skip (pos + 1)

theorem scan_sorted (source : List Char) :
    (scan source).Pairwise fun a b => a.start < b.start :=
  scanFrom_sorted 0 0 source

/-! ### The token at a place -/

theorem fractionLength_le (s : List Char) : fractionLength s ≤ s.length := by
  unfold fractionLength
  split
  · rename_i d rest
    have hrun := runLength_le isDigit rest
    split
    · simp only [List.length_cons]
      omega
    · exact Nat.zero_le _
  · exact Nat.zero_le _

theorem exponentLength_le (s : List Char) : exponentLength s ≤ s.length := by
  unfold exponentLength
  split
  · rename_i e c rest
    have hrun := runLength_le isDigit rest
    simp only [List.length_cons]
    split
    · split
      · omega
      split
      · split
        · rename_i d rest
          have hrun := runLength_le isDigit rest
          simp only [List.length_cons]
          split <;> omega
        · exact Nat.zero_le _
      · exact Nat.zero_le _
    · exact Nat.zero_le _
  · exact Nat.zero_le _

theorem numberLength_le (s : List Char) : numberLength s ≤ s.length := by
  have hwhole := runLength_le isDigit s
  have hpart := fractionLength_le (s.drop (runLength isDigit s))
  have hpower := exponentLength_le
    (s.drop (runLength isDigit s + fractionLength (s.drop (runLength isDigit s))))
  rw [List.length_drop] at hpart hpower
  rw [numberLength]
  omega

theorem signReach_le (c : Char) (rest : List Char) : (signReach c rest).2 ≤ rest.length := by
  unfold signReach
  split
  · rename_i sign hpair
    cases rest with
    | nil => cases hpair
    | cons d rest => exact Nat.succ_le_succ (Nat.zero_le _)
  · split <;> exact Nat.zero_le _

/-- A token ends with the text at the latest. -/
theorem reach_le (c : Char) (rest : List Char) : (reach c rest).2 ≤ rest.length := by
  unfold reach
  split
  · exact runLength_le _ rest
  split
  · exact runLength_le _ rest
  split
  · exact stringReach_le rest
  split
  · simp only
    split
    case isTrue h => exact h
    case isFalse => exact runLength_le _ rest
  split
  · have h := numberLength_le (c :: rest)
    rw [List.length_cons] at h
    simp only
    omega
  split
  · exact runLength_le _ rest
  · exact signReach_le c rest

theorem nameKind_keyword (word : Keyword) : nameKind word.text.toList = .keyword word := by
  cases word <;> rfl

theorem begins_name {chars rest : List Char} (h : Longest Name chars rest) :
    Begins (nameKind chars) chars rest := by
  unfold nameKind
  split
  · rename_i word hword
    have heq : word.text.toList = chars := by simpa using List.find?_some hword
    exact heq ▸ Begins.keyword word (heq ▸ h)
  · rename_i hnone
    refine .identifier h fun word heq => ?_
    have hne := List.find?_eq_none.mp hnone word (Keyword.mem_all word)
    exact hne (by simpa using heq.symm)

/-- The scanner takes a token with which the text begins. -/
theorem reach_begins (c : Char) (rest : List Char) :
    Begins (reach c rest).1 (c :: rest.take (reach c rest).2) (rest.drop (reach c rest).2) := by
  unfold reach
  split
  case isTrue hblank => exact .whitespace (longest_blanks hblank rest)
  rename_i hblank
  split
  case isTrue hc =>
    subst hc
    exact .comment (longest_comment rest)
  rename_i hcomment
  split
  case isTrue hc =>
    subst hc
    by_cases hclosed : (stringReach rest).2 = true
    · simp only [hclosed, if_true]
      exact .string (longest_quoted hclosed)
    · simp only [hclosed]
      have hopen := Bool.eq_false_iff.mpr hclosed
      rw [stringReach_open hopen]
      refine .openString (longest_openQuoted rest) fun t ht => ?_
      rw [List.cons_append, List.take_append_drop] at ht
      exact not_quoted_of_open hopen ht
  rename_i hquote
  split
  case isTrue hc =>
    subst hc
    simp only
    split
    case isTrue hclosed => exact .rawString (longest_rawQuoted hclosed)
    case isFalse hopen =>
      have hnot := not_rawQuoted_of_open hopen
      rw [List.take_of_length_le (Nat.not_lt.mp hopen), List.drop_of_length_le (Nat.not_lt.mp hopen)]
      exact .openRawString hnot
  rename_i hbackquote
  split
  case isTrue hdigit => exact .number (longest_numeral hdigit rest)
  rename_i hdigit
  split
  case isTrue hname => exact begins_name (longest_name hname rest)
  rename_i hname
  rcases signReach_spec c rest with ⟨hlongest, hspells⟩ | ⟨heq, hnone⟩
  · exact .sign hlongest hspells
  · rw [heq]
    exact .alien ⟨Bool.eq_false_iff.mpr hblank, Bool.eq_false_iff.mpr hdigit,
      Bool.eq_false_iff.mpr hname, hcomment, hquote, hbackquote, hnone⟩

/-! ### No other token -/

/-- The first character of a sign begins nothing else. -/
theorem sign_apart {c : Char} (h : (singleKind? c).isSome = true) :
    isBlank c = false ∧ c ≠ '#' ∧ c ≠ '"' ∧ c ≠ '`' ∧ isDigit c = false ∧ isNameStart c = false := by
  unfold singleKind? at h
  split at h
  case h_22 => cases h
  all_goals decide

theorem reach_of_apart {c : Char} (hblank : isBlank c = false) (hcomment : c ≠ '#')
    (hquote : c ≠ '"') (hbackquote : c ≠ '`') (hdigit : isDigit c = false)
    (hname : isNameStart c = false) (rest : List Char) : reach c rest = signReach c rest := by
  simp only [reach, hblank, hcomment, hquote, hbackquote, hdigit, hname, Bool.false_eq_true,
    if_false]

theorem reach_comment (rest : List Char) :
    reach '#' rest = (.comment, runLength (· ≠ '\n') rest) := by
  have hblank : isBlank '#' = false := by decide
  simp only [reach, hblank, Bool.false_eq_true, if_false, if_true]

theorem reach_quote (rest : List Char) : reach '"' rest =
    (if (stringReach rest).2 then .string else .invalid, (stringReach rest).1) := by
  have hblank : isBlank '"' = false := by decide
  have hcomment : '"' ≠ '#' := by decide
  simp only [reach, hblank, hcomment, Bool.false_eq_true, if_false, if_true]

theorem reach_backquote (rest : List Char) : reach '`' rest =
    if runLength (· ≠ '`') rest < rest.length then (.rawString, runLength (· ≠ '`') rest + 1)
    else (.invalid, runLength (· ≠ '`') rest) := by
  have hblank : isBlank '`' = false := by decide
  have hcomment : '`' ≠ '#' := by decide
  have hquote : '`' ≠ '"' := by decide
  simp only [reach, hblank, hcomment, hquote, Bool.false_eq_true, if_false, if_true]

theorem reach_digit {c : Char} (h : isDigit c = true) (rest : List Char) :
    reach c rest = (.number, numberLength (c :: rest) - 1) := by
  have hblank := isBlank_eq_false_of_isDigit h
  have hcomment : c ≠ '#' := by rintro rfl; exact absurd h (by decide)
  have hquote : c ≠ '"' := by rintro rfl; exact absurd h (by decide)
  have hbackquote : c ≠ '`' := by rintro rfl; exact absurd h (by decide)
  simp only [reach, hblank, hcomment, hquote, hbackquote, h, Bool.false_eq_true, if_false, if_true]

theorem reach_name {c : Char} (h : isNameStart c = true) (rest : List Char) :
    reach c rest = (nameKind (c :: rest.take (runLength isIdentifierChar rest)),
      runLength isIdentifierChar rest) := by
  have hblank := isBlank_eq_false_of_isNameStart h
  have hdigit := isDigit_eq_false_of_isNameStart h
  have hcomment : c ≠ '#' := by rintro rfl; exact absurd h (by decide)
  have hquote : c ≠ '"' := by rintro rfl; exact absurd h (by decide)
  have hbackquote : c ≠ '`' := by rintro rfl; exact absurd h (by decide)
  simp only [reach, hblank, hcomment, hquote, hbackquote, hdigit, h, Bool.false_eq_true, if_false,
    if_true]

theorem runLength_of_not_mem {q : Char} {body : List Char} (h : q ∉ body) (rest : List Char) :
    runLength (· ≠ q) (body ++ rest) = body.length + runLength (· ≠ q) rest := by
  apply runLength_append
  intro c hc
  simp only [decide_eq_true_eq]
  exact fun heq => h (heq ▸ hc)

/-- Where a name is the longest one, the scanner takes it. -/
theorem Longest.reach_name {chars rest : List Char} (h : Longest Name chars rest) :
    ∃ c tail, chars = c :: tail ∧ reach c (tail ++ rest) = (nameKind chars, tail.length) := by
  obtain ⟨c, tail, rfl, hc, -⟩ := h.1
  have hlength := h.length_eq (longest_name hc _) (runLength_le _ _)
  exact ⟨c, tail, rfl, by rw [Token.reach_name hc, hlength, List.take_left]⟩

/-- Where the text begins with a token, the scanner takes this token. -/
theorem Begins.reach_eq {k : Kind} {chars rest : List Char} (h : Begins k chars rest) :
    ∃ c tail, chars = c :: tail ∧ reach c (tail ++ rest) = (k, tail.length) := by
  cases h with
  | whitespace h =>
    obtain ⟨hne, hall⟩ := h.1
    obtain ⟨c, tail, rfl⟩ := List.exists_cons_of_ne_nil hne
    have hc := hall c List.mem_cons_self
    have hlength := h.length_eq (longest_blanks hc _) (runLength_le _ _)
    exact ⟨c, tail, rfl, by simp only [reach, hc, if_true, hlength]⟩
  | comment h =>
    obtain ⟨tail, rfl, -⟩ := h.1
    have hlength := h.length_eq (longest_comment _) (runLength_le _ _)
    exact ⟨'#', tail, rfl, by rw [reach_comment, hlength]⟩
  | string h =>
    obtain ⟨body, -, rfl⟩ := h.1
    have hreach : stringReach (body ++ ['"'] ++ rest) = ((body ++ ['"']).length, true) :=
      h.1.stringReach_eq (List.prefix_append _ rest)
    exact ⟨'"', body ++ ['"'], rfl, by rw [reach_quote, hreach, if_pos rfl]⟩
  | openString h hnone =>
    obtain ⟨tail, rfl, -⟩ := h.1
    have hopen : (stringReach (tail ++ rest)).2 = false := by
      apply Bool.eq_false_iff.mpr
      intro hclosed
      refine hnone _ ?_ (longest_quoted hclosed).1
      rw [List.cons_append]
      exact List.cons_prefix_cons.mpr ⟨rfl, List.take_prefix _ _⟩
    have hlength := h.length_eq (longest_openQuoted _) (runLength_le _ _)
    exact ⟨'"', tail, rfl, by rw [reach_quote, hopen, stringReach_open hopen, hlength]; rfl⟩
  | rawString h =>
    obtain ⟨body, hbody, rfl⟩ := h.1
    have hrun : runLength (· ≠ '`') (body ++ ['`'] ++ rest) = body.length := by
      rw [List.append_assoc, runLength_of_not_mem hbody]
      rfl
    have hlt : body.length < (body ++ ['`'] ++ rest).length := by
      simp only [List.length_append, List.length_singleton]
      omega
    refine ⟨'`', body ++ ['`'], rfl, ?_⟩
    rw [reach_backquote, hrun, if_pos hlt, List.length_append]
    rfl
  | @openRawString body hbody =>
    have hrun : runLength (· ≠ '`') (body ++ []) = body.length := runLength_of_not_mem hbody []
    refine ⟨'`', body, rfl, ?_⟩
    rw [reach_backquote, hrun, if_neg (by simp only [List.append_nil, Nat.lt_irrefl,
      not_false_eq_true])]
  | number h =>
    obtain ⟨whole, part, power, ⟨hne, hall⟩, -, -, rfl⟩ := h.1
    obtain ⟨c, whole, rfl⟩ := List.exists_cons_of_ne_nil hne
    have hc := hall c List.mem_cons_self
    have hle := numberLength_le (c :: (whole ++ (part ++ power) ++ rest))
    rw [List.length_cons] at hle
    rw [List.cons_append] at h
    have hlength := h.length_eq (longest_numeral hc _) (by omega)
    exact ⟨c, whole ++ (part ++ power), rfl, by rw [reach_digit hc, hlength]⟩
  | keyword word h =>
    obtain ⟨c, tail, heq, hreach⟩ := h.reach_name
    exact ⟨c, tail, heq, by rw [hreach, nameKind_keyword]⟩
  | identifier h hnot =>
    obtain ⟨c, tail, heq, hreach⟩ := h.reach_name
    refine ⟨c, tail, heq, ?_⟩
    rw [hreach, nameKind, Keyword.ofChars?, List.find?_eq_none.mpr]
    intro word _ hword
    exact hnot word (by simpa using (beq_iff_eq.mp hword).symm)
  | sign h hspells =>
    have hne : chars ≠ [] := by
      rintro rfl
      rcases spells_iff.mp hspells with ⟨c, heq, -⟩ | ⟨c, d, s, heq, -⟩ <;> cases heq
    obtain ⟨c, tail, rfl⟩ := List.exists_cons_of_ne_nil hne
    obtain ⟨hblank, hcomment, hquote, hbackquote, hdigit, hname⟩ :=
      sign_apart (singleKind?_of_spells hspells)
    refine ⟨c, tail, rfl, ?_⟩
    rw [reach_of_apart hblank hcomment hquote hbackquote hdigit hname]
    rcases signReach_spec c (tail ++ rest) with ⟨hlongest, hspells'⟩ | ⟨-, hnone⟩
    · have hlength := h.length_eq hlongest (signReach_le c _)
      rw [hlength, List.take_left] at hspells'
      exact Prod.ext (hspells'.kind_eq hspells) hlength
    · exact absurd ⟨k, hspells⟩ (hnone tail)
  | @alien c rest h =>
    refine ⟨c, [], rfl, ?_⟩
    rw [reach_of_apart h.blank h.comment h.quote h.backquote h.digit h.name]
    rcases signReach_spec c ([] ++ rest) with ⟨hlongest, -⟩ | ⟨heq, -⟩
    · exact absurd hlongest.1 (h.sign _)
    · exact heq

/-! ### Whole texts -/

/-- Tokens one after another, the first one at `pos`, each beginning what is left of the text. -/
inductive Splits : Nat → List Char → List Token → Prop where
  | nil (pos : Nat) : Splits pos [] []
  | cons {k : Kind} {chars rest : List Char} {pos : Nat} {ts : List Token} :
      Begins k chars rest → Splits (pos + chars.length) rest ts →
      Splits pos (chars ++ rest) (⟨k, chars, pos⟩ :: ts)

theorem scanFrom_cons (pos : Nat) (c : Char) (rest : List Char) :
    scanFrom 0 pos (c :: rest) =
      ⟨(reach c rest).1, c :: rest.take (reach c rest).2, pos⟩ ::
        scanFrom 0 (pos + (c :: rest.take (reach c rest).2).length)
          (rest.drop (reach c rest).2) := by
  have hle := reach_le c rest
  have hpos : pos + (c :: rest.take (reach c rest).2).length = pos + 1 + (reach c rest).2 := by
    rw [List.length_cons, List.length_take, Nat.min_eq_left hle]
    omega
  rw [hpos, ← scanFrom_drop _ _ _ hle]
  rfl

theorem scanFrom_splits (pos : Nat) (s : List Char) : Splits pos s (scanFrom 0 pos s) := by
  -- On the length of the text: every token takes its first character.
  induction hn : s.length using Nat.strong_induction_on generalizing pos s with
  | h n ih =>
    cases s with
    | nil => exact .nil pos
    | cons c rest =>
      have hlt : (rest.drop (reach c rest).2).length < n := by
        rw [← hn, List.length_cons, List.length_drop]
        omega
      have hsplits := Splits.cons (reach_begins c rest)
        (ih _ hlt (pos + (c :: rest.take (reach c rest).2).length) _ rfl)
      rw [scanFrom_cons]
      rwa [List.cons_append, List.take_append_drop] at hsplits

/-- There is no other way to split a text. -/
theorem Splits.eq_scanFrom {pos : Nat} {s : List Char} {ts : List Token} (h : Splits pos s ts) :
    ts = scanFrom 0 pos s := by
  induction h with
  | nil => rfl
  | cons hbegins _ ih =>
    obtain ⟨c, tail, rfl, hreach⟩ := hbegins.reach_eq
    rw [List.cons_append, scanFrom_cons, hreach]
    simp only [List.take_left, List.drop_left]
    exact congrArg _ ih

theorem Splits.ends {pos : Nat} {s : List Char} {ts : List Token} (h : Splits pos s ts) :
    (∀ t ∈ ts.head?, t.start = pos) ∧ ts.IsChain (fun t u => t.stop = u.start) ∧
      (ts.getLast?.map stop).getD pos = pos + s.length := by
  induction h with
  | nil pos => exact ⟨nofun, .nil, rfl⟩
  | @cons k chars rest pos ts _ _ ih =>
    obtain ⟨hfirst, hchain, hlast⟩ := ih
    refine ⟨fun t ht => ?_, List.isChain_cons.mpr ⟨fun u hu => (hfirst u hu).symm, hchain⟩, ?_⟩
    · cases ht
      rfl
    · rw [List.length_append, ← Nat.add_assoc, ← hlast, List.getLast?_cons]
      cases ts.getLast? <;> rfl

def Over (t : Token) (i : Nat) : Prop :=
  t.start ≤ i ∧ i < t.stop

theorem Splits.over {pos : Nat} {s : List Char} {ts : List Token} (h : Splits pos s ts) {i : Nat}
    (hpos : pos ≤ i) (hi : i < pos + s.length) : ∃ t ∈ ts, t.Over i := by
  induction h with
  | nil pos =>
    simp only [List.length_nil, Nat.add_zero] at hi
    omega
  | @cons k chars rest pos ts _ _ ih =>
    rw [List.length_append] at hi
    by_cases hhere : i < pos + chars.length
    · exact ⟨_, List.mem_cons_self, hpos, hhere⟩
    · obtain ⟨t, ht, hover⟩ := ih (by omega) (by omega)
      exact ⟨t, List.mem_cons_of_mem _ ht, hover⟩

theorem Splits.mem_of_mem_chars {pos : Nat} {s : List Char} {ts : List Token} (h : Splits pos s ts)
    {t : Token} (ht : t ∈ ts) {c : Char} (hc : c ∈ t.chars) : c ∈ s := by
  induction h with
  | nil => cases ht
  | cons _ _ ih =>
    rcases List.mem_cons.mp ht with rfl | ht
    · exact List.mem_append_left _ hc
    · exact List.mem_append_right _ (ih ht)

/-- Every token covers its slice of the text, and what follows it goes on from its end. -/
theorem Splits.places {before s : List Char} {ts : List Token} {pos : Nat} (h : Splits pos s ts)
    (hpos : before.length = pos) : ∀ t ∈ ts, t.chars ≠ [] ∧
      t.chars = ((before ++ s).drop t.start).take t.chars.length ∧
      Begins t.kind t.chars ((before ++ s).drop t.stop) := by
  induction h generalizing before with
  | nil => exact nofun
  | @cons k chars rest pos ts hbegins _ ih =>
    subst hpos
    refine List.forall_mem_cons.mpr ⟨⟨?_, ?_, ?_⟩, ?_⟩
    · obtain ⟨c, tail, rfl, -⟩ := hbegins.reach_eq
      exact List.cons_ne_nil c tail
    · rw [List.drop_left, List.take_left]
    · have hdrop : (before ++ (chars ++ rest)).drop (before.length + chars.length) = rest := by
        rw [← List.append_assoc, ← List.length_append, List.drop_left]
      rw [stop, hdrop]
      exact hbegins
    · rw [← List.append_assoc]
      exact ih List.length_append

theorem Splits.tokenizes {source : List Char} {ts : List Token} (h : Splits 0 source ts) :
    Tokenizes source ts where
  first := h.ends.1
  abut := h.ends.2.1
  last := h.ends.2.2.trans (Nat.zero_add _)
  nonempty t ht := (h.places (rfl : ([] : List Char).length = 0) t ht).1
  slice t ht := (h.places (rfl : ([] : List Char).length = 0) t ht).2.1
  begins t ht := (h.places (rfl : ([] : List Char).length = 0) t ht).2.2

/-- Tokens that abut from `pos` to the end of a text, each in its place, split the rest of it. -/
theorem splits_of_places {source : List Char} {ts : List Token} {pos : Nat}
    (hfirst : ∀ t ∈ ts.head?, t.start = pos) (hchain : ts.IsChain fun t u => t.stop = u.start)
    (hlast : (ts.getLast?.map stop).getD pos = source.length)
    (hplaces : ∀ t ∈ ts, t.chars = (source.drop t.start).take t.chars.length ∧
      Begins t.kind t.chars (source.drop t.stop)) : Splits pos (source.drop pos) ts := by
  induction ts generalizing pos with
  | nil =>
    have hend : pos = source.length := hlast
    rw [hend, List.drop_length]
    exact .nil _
  | cons t ts ih =>
    obtain ⟨hnext, hchain⟩ := List.isChain_cons.mp hchain
    obtain ⟨⟨hslice, hbegins⟩, hplaces⟩ := List.forall_mem_cons.mp hplaces
    have hstart : t.start = pos := hfirst t rfl
    have hlast' : (ts.getLast?.map stop).getD t.stop = source.length := by
      rw [← hlast, List.getLast?_cons]
      cases ts.getLast? <;> rfl
    have hrest := ih (fun u hu => (hnext u hu).symm) hchain hlast' hplaces
    have hsource : source.drop pos = t.chars ++ source.drop t.stop := by
      conv_lhs => rw [← List.take_append_drop t.chars.length (source.drop pos)]
      rw [← hstart, ← hslice, List.drop_drop, stop]
    rw [hsource]
    subst hstart
    exact Splits.cons hbegins hrest

theorem Tokenizes.splits {source : List Char} {ts : List Token} (h : Tokenizes source ts) :
    Splits 0 source ts :=
  splits_of_places h.first h.abut h.last fun t ht => ⟨h.slice t ht, h.begins t ht⟩

/-- A text has one list of tokens that the language allows, and the scanner finds it. -/
theorem tokenizes_iff_eq_scan (source : List Char) (ts : List Token) :
    Tokenizes source ts ↔ ts = scan source := by
  constructor
  · exact fun h => h.splits.eq_scanFrom
  · rintro rfl
    exact (scanFrom_splits 0 source).tokenizes

end PolicyEditor.Token
