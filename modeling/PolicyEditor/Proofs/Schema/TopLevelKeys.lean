import Mathlib.Data.List.Forall2
import PolicyEditor.Proofs.Json.Lexemes
import PolicyEditor.Schema.Document

/-!
Keys of the outermost object. What the scanner of keys finds in a document without comments are the
members that the decoder reads, in order and each on the line of its key.
-/

namespace PolicyEditor.Schema

open PolicyEditor.Json (isPlain isSpace skipSpace StringText StandsFor Lexemes ValueText TakesValue
  Member Members ReadsMember ReadsObject skipSpace_split lexemes_upTo)

/-! ### Strings -/

theorem count_newline_text {raw : List Char} (h : StringText raw) (rest : List Char) :
    ('"' :: raw ++ '"' :: rest).count '\n' = rest.count '\n' := by
  have hraw : raw.count '\n' = 0 := List.count_eq_zero.mpr (h.newline_notMem)
  simp [List.count_append, hraw]

/-- The key between quotes is what the decoder reads there. -/
theorem withKey_of_standsFor {raw chars : List Char} (h : StandsFor raw chars) (line : Nat)
    (keys : List (Nat × String)) :
    withKey line raw (.ok keys) = .ok ((line, String.ofList chars) :: keys) := by
  have hkey : readKey raw = .ok (String.ofList chars) := by
    rw [readKey, h.decode_eq]
    rfl
  rw [withKey, hkey]
  rfl

/-- The scanner takes a string up to its closing quote, and holds all of it there. -/
theorem keysFrom_inside {raw : List Char} (h : Json.BetweenQuotes raw) (depth : Int) (line : Nat)
    (held rest : List Char) : keysFrom depth line (some held) (raw ++ '"' :: rest) =
      if depth = 1 ∧ (skipSpace rest).head? = some ':' then
        withKey line (held.reverse ++ raw) (keysFrom depth line none rest)
      else keysFrom depth line none rest := by
  induction h generalizing held with
  | nil =>
    rw [List.nil_append, List.append_nil, keysFrom, if_pos rfl]
    exact fun _ _ h _ => absurd h (by decide)
  | @plain c s hquote hslash _ ih =>
    rw [List.cons_append, keysFrom, if_neg hquote, ih, List.reverse_cons, List.append_assoc,
      List.singleton_append]
    exact fun _ _ h _ => hslash h
  | @escape c s _ _ ih =>
    rw [List.cons_append, List.cons_append, keysFrom, ih, List.reverse_cons, List.reverse_cons,
      List.append_assoc, List.append_assoc, List.singleton_append, List.singleton_append]

/-- A string is a key exactly if it stands in one bracket and a colon follows. -/
theorem keysFrom_text {raw : List Char} (h : StringText raw) (depth : Int) (line : Nat)
    (rest : List Char) : keysFrom depth line none ('"' :: raw ++ '"' :: rest) =
      if depth = 1 ∧ (skipSpace rest).head? = some ':' then
        withKey line raw (keysFrom depth line none rest)
      else keysFrom depth line none rest := by
  rw [List.cons_append, keysFrom, if_pos rfl, keysFrom_inside h.betweenQuotes]
  rfl

/-! ### Lexemes -/

theorem keysFrom_plain {c : Char} (h : isPlain c = true) (depth : Int) (line : Nat)
    (rest : List Char) :
    keysFrom depth line none (c :: rest) =
      keysFrom depth (line + [c].count '\n') none rest := by
  simp only [isPlain, Bool.not_eq_true', List.contains_eq_mem, decide_eq_false_iff_not,
    List.mem_cons, List.not_mem_nil, or_false, not_or] at h
  obtain ⟨hquote, -, hbrace, hbracket, hbrace', hbracket'⟩ := h
  rw [keysFrom]
  by_cases hline : c = '\n'
  · subst hline
    rfl
  · simp only [hquote, hbrace, hbracket, hbrace', hbracket', hline, or_self, if_false,
      List.count_singleton, beq_iff_eq, Nat.add_zero]

theorem keysFrom_opening {c : Char} (h : c = '{' ∨ c = '[') (depth : Int) (line : Nat)
    (rest : List Char) :
    keysFrom depth line none (c :: rest) = keysFrom (depth + 1) line none rest := by
  rcases h with rfl | rfl <;> rfl

theorem keysFrom_closing {c : Char} (h : c = '}' ∨ c = ']') (depth : Int) (line : Nat)
    (rest : List Char) :
    keysFrom depth line none (c :: rest) = keysFrom (depth - 1) line none rest := by
  rcases h with rfl | rfl <;> rfl

theorem keysFrom_all_plain {used : List Char} (h : used.all isPlain = true) (depth : Int)
    (line : Nat) (rest : List Char) : keysFrom depth line none (used ++ rest) =
      keysFrom depth (line + used.count '\n') none rest := by
  induction used generalizing line with
  | nil => rfl
  | cons c used ih =>
    obtain ⟨hc, hused⟩ := Bool.and_eq_true_iff.mp h
    rw [List.cons_append, keysFrom_plain hc, ih hused, Nat.add_assoc, ← List.count_append,
      List.singleton_append]

/-- Inside two brackets and more there are no keys, only lines. -/
theorem keysFrom_lexemes {d e : Nat} {s : List Char} (h : Lexemes d e s) (line : Nat)
    (rest : List Char) : keysFrom (d + 2) line none (s ++ rest) =
      keysFrom (e + 2) (line + s.count '\n') none rest := by
  induction h generalizing line with
  | nil => rfl
  | @plain d e c s hc _ ih =>
    rw [List.cons_append, keysFrom_plain hc, ih, Nat.add_assoc, ← List.count_append,
      List.singleton_append]
  | @text d e raw s hraw _ ih =>
    have hassoc : ('"' :: raw ++ '"' :: s) ++ rest = '"' :: raw ++ '"' :: (s ++ rest) :=
      List.append_assoc _ _ _
    rw [hassoc, keysFrom_text hraw,
      if_neg fun hkey => absurd hkey.1 (by omega), ih, count_newline_text hraw]
  | @opening d e c s hc _ ih =>
    have hcount : (c :: s).count '\n' = s.count '\n' := by
      rcases hc with rfl | rfl <;> exact List.count_cons_of_ne (by decide)
    have hdepth : (d + 2 + 1 : Int) = (d + 1 : Nat) + 2 := by omega
    rw [List.cons_append, keysFrom_opening hc, hcount, ← ih, hdepth]
  | @closing d e c s hc _ ih =>
    have hcount : (c :: s).count '\n' = s.count '\n' := by
      rcases hc with rfl | rfl <;> exact List.count_cons_of_ne (by decide)
    have hdepth : ((d + 1 : Nat) + 2 - 1 : Int) = d + 2 := by omega
    rw [List.cons_append, keysFrom_closing hc, hcount, ← ih, hdepth]

/-- A value that no colon follows holds no key of the outermost object. -/
theorem keysFrom_value {used : List Char} (h : ValueText used) {rest : List Char}
    (hrest : (skipSpace rest).head? ≠ some ':') (line : Nat) :
    keysFrom 1 line none (used ++ rest) = keysFrom 1 (line + used.count '\n') none rest := by
  cases h with
  | word hs =>
    exact keysFrom_all_plain (List.all_eq_true.mpr fun c hc =>
      Json.isPlain_of_isWordChar (List.all_eq_true.mp hs c hc)) 1 line rest
  | text hraw =>
    rw [List.append_assoc, List.singleton_append, keysFrom_text hraw,
      if_neg fun hkey => hrest hkey.2, count_newline_text hraw]
    rfl
  | @bracketed first last inside hfirst hlast hinside =>
    have hcount : (first :: inside ++ [last]).count '\n' = inside.count '\n' := by
      rcases hfirst with rfl | rfl <;> rcases hlast with rfl | rfl <;>
        simp [List.count_append]
    have hdeep := keysFrom_lexemes hinside line (last :: rest)
    rw [List.append_assoc, List.singleton_append, List.cons_append, keysFrom_opening hfirst]
    exact hdeep.trans (hcount ▸ keysFrom_closing hlast _ _ _)

/-! ### Members -/

/-- A member is one key, on the line that it begins on. -/
theorem keysFrom_member {s after : List Char} {m : Member} (h : ReadsMember TakesValue s m after)
    (hafter : (skipSpace after).head? ≠ some ':') (line : Nat) :
    ∃ next, next + after.count '\n' = line + s.count '\n' ∧
      ∀ keys, keysFrom 1 next none after = .ok keys →
        keysFrom 1 line none s = .ok ((line, m.key) :: keys) := by
  obtain ⟨raw, chars, afterKey, afterColon, hraw, hchars, rfl, hcolon, ⟨value, hvalue, hsplit⟩, -,
    hkey⟩ := h
  have hhead : (skipSpace afterKey).head? = some ':' := by rw [hcolon]; rfl
  obtain ⟨colon, hplain, rfl⟩ := lexemes_upTo (by decide) hcolon
  obtain ⟨space, hspace, hafterColon⟩ := skipSpace_split afterColon
  rw [hsplit] at hafterColon
  subst hafterColon
  refine ⟨line + colon.count '\n' + space.count '\n' + value.count '\n', ?_, fun keys hkeys => ?_⟩
  · rw [count_newline_text hraw]
    simp only [List.count_append]
    omega
  · rw [keysFrom_text hraw, if_pos ⟨rfl, hhead⟩, keysFrom_all_plain hplain,
      keysFrom_all_plain hspace, keysFrom_value hvalue hafter, hkeys, withKey_of_standsFor hchars,
      hkey]

/-- Members are their keys, each on its own line: the newlines that are still ahead tell how many
are behind. -/
theorem keysFrom_members {s rest : List Char} {ms : List Member}
    (h : Members TakesValue s ms rest) (line : Nat) :
    ∃ next, ∀ keys, keysFrom 0 next none rest = .ok keys → keysFrom 1 line none s =
      .ok (ms.map (fun m => (line + s.count '\n' - m.place.count '\n', m.key)) ++ keys) := by
  induction h generalizing line with
  | @last s after rest m hm hclose =>
    obtain ⟨space, hspace, hafter⟩ := skipSpace_split after
    obtain ⟨next, -, hkeys⟩ := keysFrom_member hm (by rw [hclose]; nofun) line
    rw [hclose] at hafter
    refine ⟨next + space.count '\n', fun keys hrest => ?_⟩
    have hlast : keysFrom 1 next none after = .ok keys := by
      rw [hafter, keysFrom_all_plain hspace, keysFrom_closing (.inl rfl)]
      exact hrest
    rw [hkeys keys hlast, List.map_singleton, hm.place_eq, Nat.add_sub_cancel]
    rfl
  | @more s after next rest m ms hm hcomma _ ih =>
    obtain ⟨line', hline, hkeys⟩ := keysFrom_member hm (by rw [hcomma]; nofun) line
    obtain ⟨comma, hplain, rfl⟩ := lexemes_upTo (by decide) hcomma
    obtain ⟨space, hspace, hnext⟩ := skipSpace_split next
    obtain ⟨last, hlast⟩ := ih (line' + comma.count '\n' + space.count '\n')
    -- A line further on is a newline less ahead, so that all members count from the same sum.
    have htotal : line' + comma.count '\n' + space.count '\n' + (skipSpace next).count '\n' =
        line + s.count '\n' := by
      rw [← hline, List.count_append, hnext, List.count_append, ← hnext]
      omega
    refine ⟨last, fun keys hrest => ?_⟩
    have hmore : keysFrom 1 line' none (comma ++ next) = .ok (ms.map
        (fun m => (line + s.count '\n' - m.place.count '\n', m.key)) ++ keys) := by
      rw [keysFrom_all_plain hplain, hnext, keysFrom_all_plain hspace, hlast keys hrest, htotal]
    rw [hkeys _ hmore, List.map_cons, hm.place_eq, Nat.add_sub_cancel]
    rfl

theorem keysFrom_blank {s : List Char} (h : skipSpace s = []) (depth : Int) (line : Nat) :
    keysFrom depth line none s = .ok [] := by
  obtain ⟨space, hspace, hs⟩ := skipSpace_split s
  rw [hs, h, keysFrom_all_plain hspace]
  rfl

/-- The keys of the outermost object are those of its members. The line of a key counts the newlines
before it. -/
theorem readKeys_of_readsObject {stripped rest : List Char} {ms : List Member}
    (h : ReadsObject TakesValue (skipSpace stripped) ms rest) (hend : skipSpace rest = []) :
    readKeys stripped =
      .ok (ms.map fun m => (1 + stripped.count '\n' - m.place.count '\n', m.key)) := by
  obtain ⟨inside, hopen, hms⟩ := h
  obtain ⟨before, hbefore, hstripped⟩ := skipSpace_split stripped
  obtain ⟨space, hspace, hinside⟩ := skipSpace_split inside
  have hkeys : readKeys stripped =
      keysFrom 1 (1 + before.count '\n' + space.count '\n') none (skipSpace inside) := by
    rw [readKeys, hstripped, hopen, keysFrom_all_plain hbefore, keysFrom_opening (.inl rfl),
      hinside, keysFrom_all_plain hspace, ← hinside]
    rfl
  have hcount : 1 + before.count '\n' + space.count '\n' + (skipSpace inside).count '\n' =
      1 + stripped.count '\n' := by
    have hall := congrArg (List.count '\n') hstripped
    have hin := congrArg (List.count '\n') hinside
    rw [hopen, List.count_append, List.count_cons_of_ne (by decide)] at hall
    rw [List.count_append] at hin
    omega
  rcases hms with ⟨rfl, hclose⟩ | hms
  · rw [hkeys, hclose, keysFrom_closing (.inl rfl), keysFrom_blank hend]
    rfl
  · obtain ⟨last, hlast⟩ := keysFrom_members hms (1 + before.count '\n' + space.count '\n')
    rw [hkeys, hlast [] (keysFrom_blank hend 0 last), hcount, List.append_nil]

theorem topLevelKeys_of_readsObject {stripped rest : List Char} {ms : List Member}
    (h : ReadsObject TakesValue (skipSpace stripped) ms rest) (hend : skipSpace rest = []) :
    topLevelKeys stripped =
      ms.map fun m => (1 + stripped.count '\n' - m.place.count '\n', m.key) := by
  rw [topLevelKeys, readKeys_of_readsObject h hend]
  rfl

/-- A key and its line are those of a member: the newlines before its opening quote end the lines
before it. -/
def ListsMember (s : List Char) (k : Nat × String) (m : Member) : Prop :=
  k.2 = m.key ∧ ∃ before, s = before ++ m.place ∧ k.1 = 1 + before.count '\n'

/-- Of a document that is an object every key of the outermost object can be read, and the keys that
are found are those of its members, one after another. Keys of objects inside it and strings that
are values are not among them. -/
theorem readKeys_lists_members {text : List Char} {members : List (String × Json)}
    (h : Json.decode? (strip text) = some (.obj members)) :
    (∃ ms, Json.HasMembers (strip text) ms ∧ Json.objectOf ms = .obj members) ∧
      ∀ ms, Json.HasMembers (strip text) ms → ∃ keys, readKeys (strip text) = .ok keys ∧
        List.Forall₂ (ListsMember (strip text)) keys ms := by
  obtain ⟨ms, rest, hreads, hend, hobject⟩ := Json.readsObject_of_decode? h
  refine ⟨⟨ms, ⟨rest, hreads, hend⟩, hobject⟩, ?_⟩
  rintro ms ⟨rest, hreads, hend⟩
  have hlexemes := hreads.mono (Json.valueUpTo_reads Json.takesValue_closed)
  refine ⟨_, readKeys_of_readsObject hlexemes hend, ?_⟩
  refine List.forall₂_map_left_iff.mpr (List.forall₂_same.mpr fun m hm => ⟨rfl, ?_⟩)
  obtain ⟨space, -, hspace⟩ := skipSpace_split (strip text)
  obtain ⟨before, inside, -, hbefore, hplace⟩ := hlexemes.lexemes hm
  rw [hbefore, ← hplace, ← List.append_assoc] at hspace
  refine ⟨space ++ before, hspace, ?_⟩
  have hcount := congrArg (List.count '\n') hspace
  rw [List.count_append] at hcount
  dsimp only
  omega

def nestedDocument : String :=
  "\x7b // \"x\": 1\n\"a\\\"b\": \x7b\"a\": [\":\", \"c\"]\x7d, /*\n*/ " ++
    "\"d\": \"e:\"\n, \"d\":\n\"f\"\x7d"

theorem readKeys_lists_members_nested :
    Json.decode? (strip nestedDocument.toList) = some (.obj [("a\"b", .obj [("a",
      .arr [.str ":", .str "c"])]), ("d", .str "f")]) ∧
    ∃ ms, Json.HasMembers (strip nestedDocument.toList) ms ∧
      readKeys (strip nestedDocument.toList) = .ok [(2, "a\"b"), (3, "d"), (4, "d")] ∧
      List.Forall₂ (ListsMember (strip nestedDocument.toList))
        [(2, "a\"b"), (3, "d"), (4, "d")] ms := by
  have hdecode : Json.decode? (strip nestedDocument.toList) = some (.obj [("a\"b", .obj [("a",
      .arr [.str ":", .str "c"])]), ("d", .str "f")]) := by rfl
  obtain ⟨⟨ms, hms, -⟩, hall⟩ := readKeys_lists_members hdecode
  obtain ⟨keys, hkeys, hlisted⟩ := hall ms hms
  have hfound : readKeys (strip nestedDocument.toList) =
      .ok [(2, "a\"b"), (3, "d"), (4, "d")] := by rfl
  obtain rfl := Except.ok.inj (hfound.symm.trans hkeys)
  exact ⟨hdecode, ms, hms, hfound, hlisted⟩

end PolicyEditor.Schema
