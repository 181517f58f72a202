import PolicyEditor.Grammar.Bracket

/-!
Nested brackets, and what the look ahead from a bracket makes of them: it passes over what other
brackets hold and ends at the bracket's own closing one.
-/

namespace PolicyEditor.Grammar

/-- Items whose brackets pair up, all three kinds alike. Outside of them, and at an opening bracket,
every item has the property `P`. -/
inductive Nests : (P : Item → Prop) → List Item → Prop where
  | nil {P : Item → Prop} : Nests P []
  | plain {P : Item → Prop} {i : Item} {rest : List Item} : i.kind.isOpener = false →
      i.kind.isCloser = false → P i → Nests P rest → Nests P (i :: rest)
  | group {P : Item → Prop} {i j : Item} {inside rest : List Item} : i.kind.isOpener = true →
      j.kind.isCloser = true → P i → Nests (fun _ => True) inside → Nests P rest →
      Nests P (i :: (inside ++ j :: rest))

abbrev Balanced (is : List Item) : Prop :=
  Nests (fun _ => True) is

def NoBar (i : Item) : Prop :=
  i.kind ≠ .operator .pipe

/-- An item that tells nothing about the braces around it. -/
structure Quiet (i : Item) : Prop where
  bar : NoBar i
  colon : i.kind ≠ .mark .colon
  statement : marksStatement i.kind = false
  newline : i.newline = false

namespace Nests

variable {P Q : Item → Prop} {a b : List Item}

theorem mono (h : Nests P a) (hPQ : ∀ i, P i → Q i) : Nests Q a := by
  induction h with
  | nil => exact .nil
  | plain hopen hclose hi _ ih => exact .plain hopen hclose (hPQ _ hi) (ih hPQ)
  | group hopen hclose hi hinside _ _ ih => exact .group hopen hclose (hPQ _ hi) hinside (ih hPQ)

theorem balanced (h : Nests P a) : Balanced a :=
  h.mono fun _ _ => trivial

theorem append (ha : Nests P a) (hb : Nests P b) : Nests P (a ++ b) := by
  induction ha with
  | nil => exact hb
  | plain hopen hclose hi _ ih => exact .plain hopen hclose hi (ih hb)
  | group hopen hclose hi hinside _ _ ih =>
    rw [List.cons_append, List.append_assoc, List.cons_append]
    exact .group hopen hclose hi hinside (ih hb)

end Nests

theorem isOpener_of_isCloser {k : Token.Kind} (h : k.isCloser = true) : k.isOpener = false := by
  unfold Token.Kind.isCloser at h
  split at h <;> first | rfl | cases h

theorem ne_pipe_of_isOpener {k : Token.Kind} (h : k.isOpener = true) : k ≠ .operator .pipe := by
  rintro rfl
  cases h

/-! ### Brackets that are closed -/

/-- Which kinds the items have decides whether their brackets pair up. -/
theorem Balanced.of_kinds {P : Item → Prop} {is js : List Item} (h : Nests P is)
    (hkinds : js.map Item.kind = is.map Item.kind) : Balanced js := by
  induction h generalizing js with
  | nil =>
    obtain rfl := List.map_eq_nil_iff.mp hkinds
    exact .nil
  | plain hopen hclose _ _ ih =>
    obtain ⟨j, rest, rfl, hj, hrest⟩ := List.map_eq_cons_iff.mp hkinds
    exact .plain (hj ▸ hopen) (hj ▸ hclose) trivial (ih hrest)
  | group hopen hclose _ _ _ ihInside ih =>
    rw [List.map_cons, List.map_append, List.map_cons] at hkinds
    obtain ⟨j, others, rfl, hj, hothers⟩ := List.map_eq_cons_iff.mp hkinds
    obtain ⟨inside, last, rfl, hinside, hlast⟩ := List.map_eq_append_iff.mp hothers
    obtain ⟨closer, rest, rfl, hcloser, hrest⟩ := List.map_eq_cons_iff.mp hlast
    exact .group (hj ▸ hopen) (hcloser ▸ hclose) trivial (ihInside hinside) (ih hrest)

/-- The items end a list whose brackets pair up, so every bracket that opens among them closes. -/
def Closed (ts : List Item) : Prop :=
  ∃ whole, Balanced whole ∧ ts.map Item.kind <:+ whole.map Item.kind

theorem Closed.of_suffix {ts rest : List Item} (h : Closed ts)
    (hrest : rest.map Item.kind <:+ ts.map Item.kind) : Closed rest := by
  obtain ⟨whole, hwhole, hts⟩ := h
  exact ⟨whole, hwhole, hrest.trans hts⟩

theorem suffix_append_cases {α : Type} {l a b : List α} (h : l <:+ a ++ b) :
    l <:+ b ∨ ∃ l', l = l' ++ b ∧ l' <:+ a := by
  rcases List.suffix_or_suffix_of_suffix h (List.suffix_append a b) with hb | ⟨l', rfl⟩
  · exact .inl hb
  · obtain ⟨front, hfront⟩ := h
    rw [← List.append_assoc] at hfront
    exact .inr ⟨l', rfl, front, List.append_cancel_right hfront⟩

theorem split_of_nests {P : Item → Prop} {whole : List Item} (h : Nests P whole) {i : Item}
    {rest : List Item} (hi : i.kind.isOpener = true)
    (hsuffix : (i :: rest).map Item.kind <:+ whole.map Item.kind) :
    ∃ inside j after, rest = inside ++ j :: after ∧ Balanced inside ∧ j.kind.isCloser = true := by
  induction h generalizing rest with
  | nil => cases List.suffix_nil.mp hsuffix
  | plain hopen _ _ _ ih =>
    rcases List.suffix_cons_iff.mp hsuffix with heq | hlater
    · rw [← (List.cons.inj heq).1, hi] at hopen
      cases hopen
    · exact ih hlater
  | @group P o c inside after _ hclose _ hinside _ ihInside ih =>
    simp only [List.map_cons, List.map_append] at hsuffix
    rcases List.suffix_cons_iff.mp hsuffix with heq | hlater
    -- The bracket of this group.
    · obtain ⟨js, last, rfl, hjs, hlast⟩ := List.map_eq_append_iff.mp (List.cons.inj heq).2
      obtain ⟨j, rest, rfl, hj, -⟩ := List.map_eq_cons_iff.mp hlast
      exact ⟨js, j, rest, rfl, .of_kinds hinside hjs, hj ▸ hclose⟩
    rcases suffix_append_cases hlater with hlast | ⟨kinds, hkinds, hinner⟩
    -- A bracket behind the group.
    · rcases List.suffix_cons_iff.mp hlast with heq | hafter
      · rw [(List.cons.inj heq).1, isOpener_of_isCloser hclose] at hi
        cases hi
      · exact ih hafter
    -- A bracket within the group.
    · cases kinds with
      | nil =>
        rw [(List.cons.inj hkinds).1, isOpener_of_isCloser hclose] at hi
        cases hi
      | cons k kinds =>
        obtain ⟨hk, hrest⟩ := List.cons.inj hkinds
        obtain ⟨js, last, rfl, hjs, -⟩ := List.map_eq_append_iff.mp hrest
        subst hk
        subst hjs
        obtain ⟨within, j, others, rfl, hwithin, hj⟩ := ihInside hinner
        exact ⟨within, j, others ++ last, by simp only [List.append_assoc, List.cons_append],
          hwithin, hj⟩

/-- What follows an opening bracket: items whose brackets pair up, its counterpart, and the rest. -/
theorem Closed.split {i : Item} {rest : List Item} (h : Closed (i :: rest))
    (hi : i.kind.isOpener = true) :
    ∃ inside j after, rest = inside ++ j :: after ∧ Balanced inside ∧ j.kind.isCloser = true := by
  obtain ⟨whole, hwhole, hsuffix⟩ := h
  exact split_of_nests hwhole hi hsuffix

/-! ### Scanning braces -/

namespace BraceScan

variable {P : Item → Prop} {is : List Item} {s : BraceScan}

/-- Inside nested brackets the scan passes over everything that pairs up. -/
theorem run_inside (h : Nests P is) (hdepth : 0 < s.depth) (rest : List Item) :
    run s (is ++ rest) = run s rest := by
  induction h generalizing s rest with
  | nil => rfl
  | plain hopen hclose _ _ ih =>
    rw [List.cons_append, run, if_neg (Nat.ne_of_gt hdepth)]
    simp only [nest, hopen, hclose, Bool.false_eq_true, if_false]
    exact ih hdepth rest
  | @group P i j inside after hopen hclose _ _ _ ihInside ih =>
    rw [List.cons_append, List.append_assoc, List.cons_append, run, if_neg (Nat.ne_of_gt hdepth)]
    have hnest : nest s i = { s with depth := s.depth + 1 } := by
      rw [nest, if_pos hopen]
    -- One level deeper and back again.
    rw [hnest, ihInside (Nat.succ_pos _), run, if_neg (Nat.succ_ne_zero _)]
    have hback : nest { s with depth := s.depth + 1 } j = s := by
      simp only [nest, isOpener_of_isCloser hclose, hclose, Bool.false_eq_true, if_false, if_true,
        Nat.add_eq_right, Nat.ne_of_gt hdepth, Nat.add_sub_cancel]
    rw [hback]
    exact ih hdepth rest

/-- At the top level the scan passes over nested brackets. -/
theorem run_group {i j : Item} {inside : List Item} (hopen : i.kind.isOpener = true)
    (hclose : j.kind.isCloser = true) (hinside : Balanced inside) (hdepth : s.depth = 0)
    (rest : List Item) :
    run s (i :: (inside ++ j :: rest)) =
      run { s.note i with depth := 0, last := some j.kind } rest := by
  have hi : i.kind.isCloser = false := by
    cases hc : i.kind.isCloser with
    | false => rfl
    | true => rw [isOpener_of_isCloser hc] at hopen; cases hopen
  have hnote : (s.note i).depth = 0 := hdepth
  have hnest : (s.note i).nest i = { s.note i with depth := 1 } := by
    rw [nest, if_pos hopen, hnote]
  rw [run, if_pos hdepth, if_neg (by simp only [hi, Bool.false_eq_true, not_false_eq_true]),
    if_neg (ne_pipe_of_isOpener hopen), hnest, run_inside hinside (Nat.succ_pos 0), run,
    if_neg (Nat.succ_ne_zero 0)]
  simp only [nest, isOpener_of_isCloser hclose, hclose, Bool.false_eq_true, if_false, if_true]

/-- What a scan has learnt from items at the top level. -/
structure Passes (P : Item → Prop) (is : List Item) (s s' : BraceScan) : Prop where
  depth : s'.depth = 0
  colon : s.colon = true → s'.colon = true
  content : s.content = true ∨ is ≠ [] → s'.content = true
  quiet : (∀ i, P i → Quiet i) → s'.colon = s.colon ∧ s'.statement = s.statement

theorem note_quiet {i : Item} (h : Quiet i) :
    (s.note i).colon = s.colon ∧ (s.note i).statement = s.statement := by
  have hcolon : (i.kind == .mark .colon) = false := beq_eq_false_iff_ne.mpr h.colon
  simp only [note, hcolon, h.statement, h.newline, Bool.or_false, Bool.false_and, and_self]

/-- No bar among the items at the top level: the scan goes on behind them. -/
theorem run_top (h : Nests P is) (hbar : ∀ i, P i → NoBar i) (hdepth : s.depth = 0)
    (rest : List Item) : ∃ s', run s (is ++ rest) = run s' rest ∧ Passes P is s s' := by
  induction h generalizing s with
  | nil => exact ⟨s, rfl, hdepth, id, fun h => h.resolve_right (· rfl), fun _ => ⟨rfl, rfl⟩⟩
  | @plain P i after hopen hclose hi _ ih =>
    have hnest : (s.note i).nest i = s.note i := by
      simp only [nest, hopen, hclose, Bool.false_eq_true, if_false]
    obtain ⟨s', hrun, hpasses⟩ := ih hbar (s := s.note i) hdepth
    refine ⟨s', ?_, hpasses.depth, fun h => hpasses.colon ?_, fun _ => hpasses.content (.inl rfl),
      fun hquiet => ?_⟩
    · rw [List.cons_append, run, if_pos hdepth, if_neg (by simp only [hclose, Bool.false_eq_true,
        not_false_eq_true]), if_neg (hbar i hi), hnest, hrun]
    · simp only [note, h, Bool.true_or]
    · have hnote := note_quiet (s := s) (hquiet i hi)
      exact ⟨(hpasses.quiet hquiet).1.trans hnote.1, (hpasses.quiet hquiet).2.trans hnote.2⟩
  | @group P i j inside after hopen hclose hi hinside _ _ ih =>
    obtain ⟨s', hrun, hpasses⟩ :=
      ih hbar (s := { s.note i with depth := 0, last := some j.kind }) rfl
    refine ⟨s', ?_, hpasses.depth, fun h => hpasses.colon ?_, fun _ => hpasses.content (.inl rfl),
      fun hquiet => ?_⟩
    · rw [List.cons_append, List.append_assoc, List.cons_append,
        run_group hopen hclose hinside hdepth, hrun]
    · simp only [note, h, Bool.true_or]
    · have hnote := note_quiet (s := s) (hquiet i hi)
      exact ⟨(hpasses.quiet hquiet).1.trans hnote.1, (hpasses.quiet hquiet).2.trans hnote.2⟩

theorem run_closer {c : Item} (hclose : c.kind.isCloser = true) (hdepth : s.depth = 0)
    (rest : List Item) : run s (c :: rest) = s.verdict := by
  rw [run, if_pos hdepth, if_pos hclose]

/-- What follows the closing bracket does not matter. -/
theorem run_local (h : Nests P is) {c : Item} (hclose : c.kind.isCloser = true)
    (hdepth : s.depth = 0) (rest rest' : List Item) :
    run s (is ++ c :: rest) = run s (is ++ c :: rest') := by
  induction h generalizing s with
  | nil => rw [List.nil_append, List.nil_append, run_closer hclose hdepth, run_closer hclose hdepth]
  | @plain P i after hopen hclose' _ _ ih =>
    have hnest : ((s.note i).nest i).depth = 0 := by
      simp only [nest, hopen, hclose', Bool.false_eq_true, if_false]
      exact hdepth
    simp only [List.cons_append, run, if_pos hdepth, ih hnest]
  | @group P i j inside after hopen hclose' _ hinside _ _ ih =>
    simp only [List.cons_append, List.append_assoc]
    rw [run_group hopen hclose' hinside hdepth, run_group hopen hclose' hinside hdepth]
    exact ih rfl

end BraceScan

/-! ### Classification -/

section

variable {is : List Item} {c : Item}

theorem classifyBrace_empty (hclose : c.kind.isCloser = true) (rest : List Item) :
    classifyBrace (c :: rest) = .object :=
  BraceScan.run_closer hclose rfl rest

theorem classifyBrace_set (h : Nests Quiet is) (hne : is ≠ []) (hclose : c.kind.isCloser = true)
    (rest : List Item) : classifyBrace (is ++ c :: rest) = .set := by
  obtain ⟨s, hrun, hpasses⟩ :=
    BraceScan.run_top (s := {}) h (fun _ hi => hi.bar) rfl (c :: rest)
  obtain ⟨hcolon, hstatement⟩ := hpasses.quiet fun _ => id
  rw [classifyBrace, hrun, BraceScan.run_closer hclose hpasses.depth, BraceScan.verdict, hcolon,
    hstatement, hpasses.content (.inr hne)]
  rfl

/-- A colon at the top level, and no bar. -/
theorem classifyBrace_object {colon : Item} {value : List Item} (hkey : Nests NoBar is)
    (hcolon : colon.kind = .mark .colon) (hvalue : Nests NoBar value)
    (hclose : c.kind.isCloser = true) (rest : List Item) :
    classifyBrace (is ++ colon :: (value ++ c :: rest)) = .object := by
  obtain ⟨s, hrun, hpasses⟩ :=
    BraceScan.run_top (s := {}) hkey (fun _ => id) rfl (colon :: (value ++ c :: rest))
  have hnest : (s.note colon).nest colon = s.note colon := by
    simp only [BraceScan.nest, hcolon, Token.Kind.isOpener, Token.Kind.isCloser, Bool.false_eq_true,
      if_false]
  have hnoted : (s.note colon).colon = true := by
    simp only [BraceScan.note, hcolon, beq_self_eq_true, Bool.or_true]
  obtain ⟨s', hrun', hpasses'⟩ :=
    BraceScan.run_top (s := s.note colon) hvalue (fun _ => id) hpasses.depth (c :: rest)
  rw [classifyBrace, hrun, BraceScan.run, if_pos hpasses.depth, hcolon, if_neg (by decide),
    if_neg (by decide), hnest, hrun', BraceScan.run_closer hclose hpasses'.depth, BraceScan.verdict,
    hpasses'.colon hnoted]
  rfl

theorem barBeforeClose_inside {P : Item → Prop} (h : Nests P is) (depth : Nat) (rest : List Item) :
    barBeforeClose (depth + 1) (is ++ rest) = barBeforeClose (depth + 1) rest := by
  induction h generalizing depth rest with
  | nil => rfl
  | plain hopen hclose _ _ ih =>
    simp only [List.cons_append, barBeforeClose, hopen, hclose, Bool.false_eq_true, if_false,
      Nat.succ_ne_zero, decide_false, Bool.false_and, ih]
  | group hopen hclose _ _ _ ihInside ih =>
    simp only [List.cons_append, List.append_assoc, barBeforeClose, hopen, if_true, ihInside,
      isOpener_of_isCloser hclose, hclose, Bool.false_eq_true, if_false, ih]

/-- What follows the closing bracket does not matter; without a bar before it there is none. -/
theorem barBeforeClose_eq {P : Item → Prop} (h : Nests P is) (hclose : c.kind.isCloser = true) :
    ∃ found, (∀ rest, barBeforeClose 0 (is ++ c :: rest) = found) ∧
      ((∀ i, P i → NoBar i) → found = false) := by
  induction h with
  | nil =>
    refine ⟨false, fun rest => ?_, fun _ => rfl⟩
    simp only [List.nil_append, barBeforeClose, isOpener_of_isCloser hclose, hclose,
      Bool.false_eq_true, if_false, if_true]
  | @plain P i after hopen hclose' hi _ ih =>
    obtain ⟨found, hfound, hbar⟩ := ih
    by_cases hpipe : i.kind = .operator .pipe
    · refine ⟨true, fun rest => ?_, fun h => absurd hpipe (h i hi)⟩
      rw [List.cons_append, barBeforeClose, hpipe]
      rfl
    · refine ⟨found, fun rest => ?_, hbar⟩
      have hkind : (i.kind == .operator .pipe) = false := beq_eq_false_iff_ne.mpr hpipe
      simp only [List.cons_append, barBeforeClose, hopen, hclose', hkind, Bool.false_eq_true,
        if_false, Bool.and_false, hfound]
  | @group P i j inside after hopen hclose' _ hinside _ _ ih =>
    obtain ⟨found, hfound, hbar⟩ := ih
    refine ⟨found, fun rest => ?_, hbar⟩
    simp only [List.cons_append, List.append_assoc, barBeforeClose, hopen, if_true,
      barBeforeClose_inside hinside, isOpener_of_isCloser hclose', hclose', Bool.false_eq_true,
      if_false, hfound]

theorem classifyBracket_array (h : Nests NoBar is) (hclose : c.kind.isCloser = true)
    (rest : List Item) : classifyBracket (is ++ c :: rest) = .array := by
  obtain ⟨found, hfound, hbar⟩ := barBeforeClose_eq h hclose
  rw [classifyBracket, hfound, hbar fun _ => id]
  rfl

/-- What a bracket opens is decided before it closes. -/
theorem classifyBrace_local (h : Balanced is) (hclose : c.kind.isCloser = true)
    (rest rest' : List Item) :
    classifyBrace (is ++ c :: rest) = classifyBrace (is ++ c :: rest') :=
  BraceScan.run_local h hclose rfl rest rest'

theorem classifyBracket_local (h : Balanced is) (hclose : c.kind.isCloser = true)
    (rest rest' : List Item) :
    classifyBracket (is ++ c :: rest) = classifyBracket (is ++ c :: rest') := by
  obtain ⟨found, hfound, -⟩ := barBeforeClose_eq h hclose
  rw [classifyBracket, classifyBracket, hfound, hfound]

end

/-! ### Depth -/

/-- How many brackets are open behind tokens of these kinds, unless one closes that is not open. All
three kinds of bracket count alike. -/
def openAfter : (depth : Nat) → List Token.Kind → Option Nat
  | depth, [] => some depth
  | depth, k :: ks =>
    if k.isOpener then openAfter (depth + 1) ks
    else if k.isCloser then
      match depth with
      | 0 => none
      | depth + 1 => openAfter depth ks
    else openAfter depth ks

theorem Nests.openAfter_append {P : Item → Prop} {is : List Item} (h : Nests P is) (depth : Nat)
    (ks : List Token.Kind) : openAfter depth (is.map Item.kind ++ ks) = openAfter depth ks := by
  induction h generalizing depth ks with
  | nil => rfl
  | plain hopen hclose _ _ ih =>
    simp only [List.map_cons, List.cons_append, openAfter, hopen, hclose, Bool.false_eq_true,
      if_false, ih]
  | group hopen hclose _ _ _ ihInside ih =>
    simp only [List.map_cons, List.map_append, List.cons_append, List.append_assoc, openAfter, hopen,
      if_true, ihInside, isOpener_of_isCloser hclose, hclose, Bool.false_eq_true, if_false, ih]

theorem openAfter_closer {k : Token.Kind} (h : k.isCloser = true) (ks : List Token.Kind) :
    openAfter 0 (k :: ks) = none := by
  rw [openAfter, if_neg (ne_true_of_eq_false (isOpener_of_isCloser h)), if_pos h]

end PolicyEditor.Grammar
