import PolicyEditor.Proofs.Json.Tokens

/-!
White space between the tokens of a document changes nothing about what is read. Two texts that go
on with the same tokens are read side by side, one token after another.
-/

namespace PolicyEditor.Json

def Blank (s : List Char) : Prop :=
  s.all isSpace = true

theorem skipSpace_append {space : List Char} (h : Blank space) (s : List Char) :
    skipSpace (space ++ s) = skipSpace s :=
  List.dropWhile_append_of_pos (List.all_eq_true.mp h)

theorem length_skipSpace_le (s : List Char) : (skipSpace s).length ≤ s.length :=
  (List.dropWhile_sublist isSpace).length_le

theorem length_quoted (raw s : List Char) :
    ('"' :: (raw ++ '"' :: s)).length = raw.length + s.length + 2 := by
  simp only [List.length_cons, List.length_append]
  omega

/-! ### Tokens side by side -/

/-- Two texts go on with the same token, and white space may be inserted behind it in the second. -/
inductive Aligned : List Char → List Char → Prop where
  | done : Aligned [] []
  | mark {c : Char} {s t : List Char} :
      isMark c = true → Inserted Blank s t → Aligned (c :: s) (c :: t)
  | text {raw s t : List Char} : StringText raw → Inserted Blank s t →
      Aligned ('"' :: raw ++ '"' :: s) ('"' :: raw ++ '"' :: t)
  | word {w s t : List Char} : w ≠ [] → w.all isWordChar = true → EndsWord s → EndsWord t →
      Inserted Blank s t → Aligned (w ++ s) (w ++ t)

theorem Inserted.endsWord {s t : List Char} (h : Inserted Blank s t) (hs : EndsWord s) :
    EndsWord t := by
  induction h with
  | nil => exact hs
  | @insert more _ _ hmore _ ih =>
    cases more with
    | nil => exact ih hs
    | cons c more =>
      rintro _ ⟨⟩
      exact isWordChar_of_isSpace (Bool.and_eq_true_iff.mp hmore).1
  | space | mark | text => exact fun c hc => hs c hc
  | word hne hw _ _ _ =>
    obtain ⟨c, w, rfl, hc⟩ := exists_wordChar hne hw
    exact absurd hc hs.not_cons

theorem Inserted.aligned {s t : List Char} (h : Inserted Blank s t) :
    Aligned (skipSpace s) (skipSpace t) := by
  induction h with
  | nil => exact .done
  | insert hmore _ ih =>
    rw [skipSpace_append hmore]
    exact ih
  | @space c s t hc _ ih =>
    have hone : Blank [c] := by rw [Blank, List.all_cons, hc]; rfl
    have hskip : ∀ u, skipSpace (c :: u) = skipSpace u := skipSpace_append hone
    rw [hskip, hskip]
    exact ih
  | mark hc h _ =>
    rw [skipSpace_of_not (isSpace_of_isMark hc), skipSpace_of_not (isSpace_of_isMark hc)]
    exact .mark hc h
  | text hraw h _ => exact .text hraw h
  | @word w s t hne hw hs h _ =>
    have hword : ∀ u, skipSpace (w ++ u) = w ++ u := by
      obtain ⟨c, w, rfl, hc⟩ := exists_wordChar hne hw
      exact fun u => skipSpace_of_not (isSpace_of_isWordChar hc) (w ++ u)
    rw [hword, hword]
    exact .word hne hw hs (h.endsWord hs) h

section

variable {s t rest : List Char}

/-- The first token of one text is that of the other. -/
theorem Aligned.of_mark (h : Aligned s t) {c : Char} (hs : s = c :: rest) (hc : isMark c = true) :
    ∃ last, t = c :: last ∧ Inserted Blank rest last := by
  cases h with
  | done => cases hs
  | mark _ h =>
    cases hs
    exact ⟨_, rfl, h⟩
  | text _ _ =>
    cases hs
    exact absurd hc (by decide)
  | word hne hw _ _ _ =>
    obtain ⟨d, w, rfl, hd⟩ := exists_wordChar hne hw
    cases hs
    exact absurd hd (by rw [isWordChar_of_isMark hc]; decide)

theorem Aligned.of_quote (h : Aligned s t) (hs : s = '"' :: rest) :
    ∃ raw after last, StringText raw ∧ rest = raw ++ '"' :: after ∧
      t = '"' :: (raw ++ '"' :: last) ∧ Inserted Blank after last := by
  cases h with
  | done => cases hs
  | mark hc _ =>
    cases hs
    exact absurd hc (by decide)
  | text hraw h =>
    cases hs
    exact ⟨_, _, _, hraw, rfl, rfl, h⟩
  | word hne hw _ _ _ =>
    obtain ⟨d, w, rfl, hd⟩ := exists_wordChar hne hw
    cases hs
    exact absurd hd (by decide)

theorem Aligned.of_word (h : Aligned s t) {used : List Char} (hne : used ≠ [])
    (hused : used.all isWordChar = true) (hs : s = used ++ rest) :
    ∃ left after last, (used ++ left).all isWordChar = true ∧ EndsWord after ∧ EndsWord last ∧
      rest = left ++ after ∧ t = used ++ left ++ last ∧ Inserted Blank after last := by
  obtain ⟨c, tail, rfl, hc⟩ := exists_wordChar hne hused
  cases h with
  | done => cases hs
  | mark hmark _ =>
    obtain ⟨rfl, -⟩ := List.cons.inj hs
    exact absurd hc (by rw [isWordChar_of_isMark hmark]; decide)
  | text _ _ =>
    obtain ⟨rfl, -⟩ := List.cons.inj hs
    exact absurd hc (by decide)
  | word _ hw hends hends' h =>
    obtain ⟨left, rfl, rfl⟩ := hends.split hused hs
    exact ⟨left, _, _, hw, hends, hends', rfl, rfl, h⟩

theorem Aligned.of_nil (h : Aligned s t) (hs : s = []) : t = [] := by
  cases h with
  | done => rfl
  | mark _ _ | text _ _ => cases hs
  | word hne _ _ _ _ => exact absurd (List.append_eq_nil_iff.mp hs).1 hne

/-- Behind white space a mark of one text is a mark of the other. -/
theorem Inserted.of_mark (h : Inserted Blank s t) {c : Char} (hs : skipSpace s = c :: rest)
    (hc : isMark c = true) :
    ∃ last, skipSpace t = c :: last ∧ Inserted Blank rest last ∧ last.length < t.length := by
  obtain ⟨last, hlast, hrest⟩ := h.aligned.of_mark hs hc
  have hskip := length_skipSpace_le t
  rw [hlast, List.length_cons] at hskip
  exact ⟨last, hlast, hrest, hskip⟩

theorem Inserted.word_append {left : List Char} (h : Inserted Blank s t)
    (hleft : left.all isWordChar = true) (hs : EndsWord s) :
    Inserted Blank (left ++ s) (left ++ t) := by
  by_cases hne : left = []
  · rw [hne]
    exact h
  · exact .word hne hleft hs h

end

/-! ### Steps of the reader -/

section

variable {value : List Char → Read (Json × List Char)} {rounds width : Nat}
variable {s inside chars afterKey afterColon after next rest : List Char} {v : Json}

theorem elements_last (hv : value s = .ok (v, after)) (hclose : skipSpace after = ']' :: rest) :
    elements value (rounds + 1) s = .ok ([v], rest) := by
  simp only [elements, hv, bind, Except.bind, hclose]
  rfl

theorem elements_more {vs : List Json} (hv : value s = .ok (v, after))
    (hcomma : skipSpace after = ',' :: next)
    (hvs : elements value rounds (skipSpace next) = .ok (vs, rest)) :
    elements value (rounds + 1) s = .ok (v :: vs, rest) := by
  simp only [elements, hv, bind, Except.bind, hcomma, hvs]
  rfl

theorem members_last (hkey : string ('"' :: inside) width inside = .ok (chars, afterKey))
    (hcolon : skipSpace afterKey = ':' :: afterColon)
    (hv : value (skipSpace afterColon) = .ok (v, after)) (hclose : skipSpace after = '}' :: rest) :
    members width value (rounds + 1) ('"' :: inside) = .ok ([(String.ofList chars, v)], rest) := by
  simp only [members, hkey, bind, Except.bind, hcolon, hv, hclose]
  rfl

theorem members_more {ms : List (String × Json)}
    (hkey : string ('"' :: inside) width inside = .ok (chars, afterKey))
    (hcolon : skipSpace afterKey = ':' :: afterColon)
    (hv : value (skipSpace afterColon) = .ok (v, after)) (hcomma : skipSpace after = ',' :: next)
    (hms : members width value rounds (skipSpace next) = .ok (ms, rest)) :
    members width value (rounds + 1) ('"' :: inside) =
      .ok ((String.ofList chars, v) :: ms, rest) := by
  simp only [members, hkey, bind, Except.bind, hcolon, hv, hcomma, hms]
  rfl

end

/-! ### Reading side by side -/

/-- What a text is read as, every text is read as that goes on with the same token, and what is left
of them differs by white space. -/
def ReadAlike (s : List Char) (v : Json) (rest : List Char) : Prop :=
  ∀ {t n}, Aligned s t → t.length < n →
    ∃ last, valueUpTo n t = .ok (v, last) ∧ Inserted Blank rest last ∧ last.length ≤ t.length

theorem Elements.readAlike {s t rest : List Char} {vs : List Json}
    (h : Elements ReadAlike s vs rest) {n rounds : Nat} (ht : Aligned s t) (hn : t.length < n)
    (hrounds : t.length < rounds) :
    ∃ last, elements (valueUpTo n) rounds t = .ok (vs, last) ∧ Inserted Blank rest last ∧
      last.length ≤ t.length := by
  induction h generalizing t rounds with
  | last hv hclose =>
    obtain ⟨rounds, rfl⟩ : ∃ r, rounds = r + 1 := ⟨rounds - 1, by omega⟩
    obtain ⟨after, hv, hafter, hlength⟩ := hv ht hn
    obtain ⟨last, hlast, hrest, hshort⟩ := hafter.of_mark hclose (by decide)
    exact ⟨last, elements_last hv hlast, hrest, by omega⟩
  | more hv hcomma _ ih =>
    obtain ⟨rounds, rfl⟩ : ∃ r, rounds = r + 1 := ⟨rounds - 1, by omega⟩
    obtain ⟨after, hv, hafter, hlength⟩ := hv ht hn
    obtain ⟨next, hnext, hinserted, hshort⟩ := hafter.of_mark hcomma (by decide)
    have hskip := length_skipSpace_le next
    have hrounds' : (skipSpace next).length < rounds := by omega
    obtain ⟨last, hvs, hrest, hlast⟩ := ih hinserted.aligned (by omega) hrounds'
    exact ⟨last, elements_more hv hnext hvs, hrest, by omega⟩

theorem ReadsMember.readAlike {s t after : List Char} {m : Member}
    (h : ReadsMember ReadAlike s m after) (ht : Aligned s t) {n width : Nat} (hn : t.length < n)
    (hwidth : t.length < width) :
    ∃ inside chars afterKey afterColon last, t = '"' :: inside ∧
      string t width inside = .ok (chars, afterKey) ∧ m.key = String.ofList chars ∧
      skipSpace afterKey = ':' :: afterColon ∧
      valueUpTo n (skipSpace afterColon) = .ok (m.value, last) ∧ Inserted Blank after last ∧
      last.length < t.length := by
  obtain ⟨raw, chars, _, _, hraw, hchars, rfl, hcolon, hvalue, -, hkey⟩ := h
  obtain ⟨raw', _, afterKey, hraw', hs, rfl, hafterKey⟩ := ht.of_quote rfl
  obtain ⟨rfl, rfl⟩ := hraw.betweenQuotes.unique hraw'.betweenQuotes hs
  obtain ⟨afterColon, hcolon', hafterColon, hshort⟩ := hafterKey.of_mark hcolon (by decide)
  have hskip := length_skipSpace_le afterColon
  rw [length_quoted] at hn hwidth ⊢
  obtain ⟨last, hlast, hafter, hle⟩ := hvalue hafterColon.aligned (n := n) (by omega)
  exact ⟨_, chars, afterKey, afterColon, last, rfl, hchars _ _ _ (by omega), hkey, hcolon', hlast,
    hafter, by omega⟩

theorem Members.readAlike {s t rest : List Char} {ms : List Member}
    (h : Members ReadAlike s ms rest) {n rounds width : Nat} (ht : Aligned s t) (hn : t.length < n)
    (hrounds : t.length < rounds) (hwidth : t.length < width) :
    ∃ last, members width (valueUpTo n) rounds t = .ok (ms.map fun m => (m.key, m.value), last) ∧
      Inserted Blank rest last ∧ last.length ≤ t.length := by
  induction h generalizing t rounds with
  | last hm hclose =>
    obtain ⟨rounds, rfl⟩ : ∃ r, rounds = r + 1 := ⟨rounds - 1, by omega⟩
    obtain ⟨inside, chars, afterKey, afterColon, after, rfl, hstring, hkey, hcolon, hvalue, hafter,
      hlength⟩ := hm.readAlike ht hn hwidth
    obtain ⟨last, hlast, hrest, hshort⟩ := hafter.of_mark hclose (by decide)
    refine ⟨last, ?_, hrest, by omega⟩
    rw [members_last hstring hcolon hvalue hlast, List.map_singleton, hkey]
  | more hm hcomma _ ih =>
    obtain ⟨rounds, rfl⟩ : ∃ r, rounds = r + 1 := ⟨rounds - 1, by omega⟩
    obtain ⟨inside, chars, afterKey, afterColon, after, rfl, hstring, hkey, hcolon, hvalue, hafter,
      hlength⟩ := hm.readAlike ht hn hwidth
    obtain ⟨next, hnext, hinserted, hshort⟩ := hafter.of_mark hcomma (by decide)
    have hskip := length_skipSpace_le next
    have hrounds' : (skipSpace next).length < rounds := by omega
    obtain ⟨last, hms, hrest, hlast⟩ :=
      ih hinserted.aligned (by omega) hrounds' (by omega)
    refine ⟨last, ?_, hrest, by omega⟩
    rw [members_more hstring hcolon hvalue hnext hms, List.map_cons, hkey]

/-! ### Values -/

theorem readAlike_word {used rest : List Char} {v : Json} (h : ReadsWord used v rest) :
    ReadAlike (used ++ rest) v rest := by
  intro t n ht hn
  obtain ⟨n, rfl⟩ : ∃ m, n = m + 1 := ⟨n - 1, by omega⟩
  obtain ⟨rounds, value, hread⟩ := h.read
  obtain ⟨left, after, last, hall, hends, hends', rfl, rfl, hinserted⟩ :=
    ht.of_word h.nonempty h.chars rfl
  have hne : used ++ left ≠ [] := List.append_ne_nil_of_left_ne_nil h.nonempty left
  rw [← List.append_assoc] at hread
  obtain ⟨left', hleft, hword⟩ := valueStep_word hne hall hends hread
  obtain rfl := List.append_cancel_right hleft
  have hleftAll := (Bool.and_eq_true_iff.mp (List.all_append ▸ hall)).2
  refine ⟨left ++ last, hword _ _ last hends', hinserted.word_append hleftAll hends, ?_⟩
  simp only [List.length_append]
  omega

theorem readAlike_text {raw chars rest : List Char} (hraw : StringText raw)
    (hchars : StandsFor raw chars) :
    ReadAlike ('"' :: raw ++ '"' :: rest) (.str (String.ofList chars)) rest := by
  intro t n ht hn
  obtain ⟨n, rfl⟩ : ∃ m, n = m + 1 := ⟨n - 1, by omega⟩
  obtain ⟨raw', _, last, hraw', hs, rfl, hrest⟩ := ht.of_quote rfl
  obtain ⟨rfl, rfl⟩ := hraw.betweenQuotes.unique hraw'.betweenQuotes hs
  rw [length_quoted] at hn ⊢
  refine ⟨last, ?_, hrest, by omega⟩
  simp only [valueUpTo, valueStep, hchars _ last (n + 1) (by omega)]
  rfl

/-- No value begins with the bracket that closes an array. -/
theorem valueUpTo_bracket (n : Nat) (s : List Char) :
    ∃ e, valueUpTo n (']' :: s) = .error e := by
  cases n with
  | zero => exact ⟨_, rfl⟩
  | succ n => exact ⟨_, rfl⟩

theorem valueStep_array {n rounds : Nat} {inside last : List Char} {vs : List Json}
    (h : elements (valueUpTo n) rounds (skipSpace inside) = .ok (vs, last)) :
    valueStep rounds (valueUpTo n) ('[' :: inside) = .ok (.arr vs, last) := by
  simp only [valueStep]
  split
  · rename_i hclose
    rw [hclose] at h
    cases rounds with
    | zero => cases h
    | succ rounds =>
      obtain ⟨_, hv, -⟩ := ok_of_bind_ok h
      obtain ⟨e, he⟩ := valueUpTo_bracket n _
      rw [he] at hv
      cases hv
  · simp only [h]
    rfl

theorem valueStep_object {n rounds : Nat} {inside last : List Char} {ms : List (String × Json)}
    (h : members rounds (valueUpTo n) rounds (skipSpace inside) = .ok (ms, last)) :
    valueStep rounds (valueUpTo n) ('{' :: inside) = .ok (ofMembers ms, last) := by
  simp only [valueStep]
  split
  · rename_i hclose
    rw [hclose] at h
    cases rounds with
    | zero => cases h
    | succ rounds => cases h
  · simp only [h]
    rfl

theorem readAlike_emptyArray {inside rest : List Char} (hclose : skipSpace inside = ']' :: rest) :
    ReadAlike ('[' :: inside) (.arr []) rest := by
  intro t n ht hn
  obtain ⟨n, rfl⟩ : ∃ m, n = m + 1 := ⟨n - 1, by omega⟩
  obtain ⟨inside', rfl, hinside⟩ := ht.of_mark rfl (by decide)
  obtain ⟨last, hlast, hrest, hshort⟩ := hinside.of_mark hclose (by decide)
  refine ⟨last, ?_, hrest, by rw [List.length_cons]; omega⟩
  simp only [valueUpTo, valueStep, hlast]

theorem readAlike_emptyObject {inside rest : List Char} (hclose : skipSpace inside = '}' :: rest) :
    ReadAlike ('{' :: inside) (.obj []) rest := by
  intro t n ht hn
  obtain ⟨n, rfl⟩ : ∃ m, n = m + 1 := ⟨n - 1, by omega⟩
  obtain ⟨inside', rfl, hinside⟩ := ht.of_mark rfl (by decide)
  obtain ⟨last, hlast, hrest, hshort⟩ := hinside.of_mark hclose (by decide)
  refine ⟨last, ?_, hrest, by rw [List.length_cons]; omega⟩
  simp only [valueUpTo, valueStep, hlast]

theorem readAlike_array {inside rest : List Char} {vs : List Json}
    (h : Elements ReadAlike (skipSpace inside) vs rest) :
    ReadAlike ('[' :: inside) (.arr vs) rest := by
  intro t n ht hn
  obtain ⟨n, rfl⟩ : ∃ m, n = m + 1 := ⟨n - 1, by omega⟩
  obtain ⟨inside', rfl, hinside⟩ := ht.of_mark rfl (by decide)
  have hskip := length_skipSpace_le inside'
  rw [List.length_cons] at hn ⊢
  obtain ⟨last, hvs, hrest, hlast⟩ :=
    h.readAlike (n := n) hinside.aligned (by omega) (show _ < n + 1 by omega)
  exact ⟨last, valueStep_array hvs, hrest, by omega⟩

theorem readAlike_object {inside rest : List Char} {ms : List Member}
    (h : Members ReadAlike (skipSpace inside) ms rest) :
    ReadAlike ('{' :: inside) (objectOf ms) rest := by
  intro t n ht hn
  obtain ⟨n, rfl⟩ : ∃ m, n = m + 1 := ⟨n - 1, by omega⟩
  obtain ⟨inside', rfl, hinside⟩ := ht.of_mark rfl (by decide)
  have hskip := length_skipSpace_le inside'
  rw [List.length_cons] at hn ⊢
  have hrounds : (skipSpace inside').length < n + 1 := by omega
  obtain ⟨last, hms, hrest, hlast⟩ :=
    h.readAlike (n := n) hinside.aligned (by omega) hrounds hrounds
  exact ⟨last, valueStep_object hms, hrest, by omega⟩

theorem readAlike_closed : ClosedUnderReading ReadAlike where
  word := readAlike_word
  text := readAlike_text
  emptyArray := readAlike_emptyArray
  array := readAlike_array
  emptyObject := readAlike_emptyObject
  object := readAlike_object

/-! ### Documents -/

/-- No document begins with a byte order mark, and no white space is one. -/
theorem Inserted.head?_ne {s t : List Char} (h : Inserted Blank s t) :
    t.head? ≠ some '\uFEFF' := by
  induction h with
  | nil => nofun
  | @insert more s t hmore _ ih =>
    cases more with
    | nil => exact ih
    | cons c more =>
      rintro ⟨⟩
      exact absurd (Bool.and_eq_true_iff.mp hmore).1 (by decide)
  | space hc _ _ | mark hc _ _ =>
    rintro ⟨⟩
    exact absurd hc (by decide)
  | text _ _ _ => nofun
  | word hne hw _ _ _ =>
    obtain ⟨c, w, rfl, hc⟩ := exists_wordChar hne hw
    rintro ⟨⟩
    exact absurd hc (by decide)

/-- White space between the tokens of a document changes nothing about what is read. -/
theorem Inserted.decode_eq {s t : List Char} {v : Json} (h : Inserted Blank s t)
    (hs : decode s = .ok v) : decode t = .ok v := by
  have hdecode : decode? s = some v := by rw [decode?, hs]; rfl
  obtain ⟨rest, hread, hend⟩ := decode?_reads readAlike_closed hdecode
  have hskip := length_skipSpace_le t
  have hbound : (skipSpace t).length < t.length + 1 := by omega
  obtain ⟨last, hlast, hrest, -⟩ := hread h.aligned hbound
  have hdone := hrest.aligned.of_nil hend
  simp only [decode, document, if_neg h.head?_ne, bind, Except.bind, hlast, hdone]
  rfl

end PolicyEditor.Json
