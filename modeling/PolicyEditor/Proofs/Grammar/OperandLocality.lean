import PolicyEditor.Proofs.Grammar.Pairing

/-!
What stands behind a stretch of items. A rule that makes no error looks no further than the first
item behind what it reads. So it reads the same before other items, if the first of these is the
same or ends whatever is read there: a closing bracket, a semicolon, or an item that begins a line.
-/

namespace PolicyEditor.Grammar

open PolicyEditor.Tree (cleanAll)

def Scope.endingAt (s : Scope) (eof : Nat) : Scope :=
  { s with eof := eof }

section

variable (s : Scope) (eof : Nat)

@[simp] theorem stops_endingAt (i : Item) : (s.endingAt eof).stops i = s.stops i := (rfl)

@[simp] theorem bars_endingAt : (s.endingAt eof).bars = s.bars := (rfl)

@[simp] theorem bracketed_endingAt :
    (s.endingAt eof).bracketed = s.bracketed.endingAt eof := rfl

@[simp] theorem statement_endingAt :
    (s.endingAt eof).statement = s.statement.endingAt eof := rfl

@[simp] theorem head_endingAt : (s.endingAt eof).head = s.head.endingAt eof := rfl

end

/-- Nothing that is read in the scope goes on with these items. -/
def Ends (s : Scope) (ts : List Item) : Prop :=
  ∀ i ∈ ts.head?, i.kind.isCloser = true ∨ i.kind = .mark .semicolon ∨
    (s.stops i = true ∧ i.kind ≠ .mark .comma)

/-- The second items may stand where the first ones do, as far as a rule looks behind what it reads.
-/
def Replaces (s : Scope) (ts us : List Item) : Prop :=
  ts.head? = us.head? ∨ Ends s us

section

variable {s : Scope} {ts us : List Item}

theorem Replaces.same (i : Item) (ts us : List Item) : Replaces s (i :: ts) (i :: us) :=
  .inl rfl

/-- What stands in front decides. -/
theorem Replaces.append (h : Replaces s ts us) (front : List Item) :
    Replaces s (front ++ ts) (front ++ us) := by
  cases front with
  | nil => exact h
  | cons i front => exact .same i _ _

theorem Replaces.of_nil (h : Replaces s [] us) : Ends s us := by
  rcases h with h | h
  · intro i hi
    rw [← h] at hi
    cases hi
  · exact h

theorem Replaces.of_cons {i : Item} (h : Replaces s (i :: ts) us) :
    (∃ after, us = i :: after) ∨ Ends s us := by
  refine h.imp_left fun hhead => ?_
  cases us with
  | nil => cases hhead
  | cons u us =>
    cases hhead
    exact ⟨us, rfl⟩

theorem Ends.ne_comma {i : Item} {rest : List Item} (h : Ends s (i :: rest)) :
    i.kind ≠ .mark .comma := by
  rcases h i rfl with hi | hi | ⟨-, hi⟩
  · rintro hk
    rw [hk] at hi
    cases hi
  · rw [hi]
    decide
  · exact hi

/-- An item that ends what is read is a separator that no rule for operands knows, or it stops them.
-/
theorem Ends.stops_or {i : Item} {rest : List Item} (h : Ends s (i :: rest)) :
    s.stops i = true ∨ (i.kind.isCloser = true ∨ i.kind = .mark .semicolon) := by
  rcases h i rfl with hi | hi | ⟨hi, -⟩
  · exact .inr (.inl hi)
  · exact .inr (.inr hi)
  · exact .inl hi

end

/-! ### Rules that read the same -/

/-- The second rule reads what the first one reads without error, in a scope whose text may end
elsewhere and before whatever may replace the items left, fewer than `n` items in all. -/
def Keeps (s : Scope) (n : Nat) (one one' : List Item → Parsed) : Prop :=
  ∀ ts, (one ts).1.clean = true → ∃ i read, ts = i :: (read ++ (one ts).2) ∧
    ∀ us, (i :: (read ++ us)).length < n → Replaces s (one ts).2 us →
      one' (i :: (read ++ us)) = ((one ts).1, us)

def KeepsExpr (n : Nat) (expr expr' : ExprParser) : Prop :=
  ∀ s eof level, Keeps s n (expr s level) (expr' (s.endingAt eof) level)

theorem expect_found {i : Item} {kind : Token.Kind} (h : i.kind = kind) (s : Scope)
    (rest : List Item) : expect kind s (i :: rest) = (i.leaf, rest) :=
  if_pos h

section

variable {s : Scope} {n : Nat} {one one' : List Item → Parsed}

/-- In front of an item that both texts have. -/
theorem Keeps.before (h : Keeps s n one one') {ts after : List Item} {j : Item}
    (hclean : (one ts).1.clean = true) (hleft : (one ts).2 = j :: after) :
    ∃ i read, ts = i :: (read ++ j :: after) ∧ ∀ us, (i :: (read ++ j :: us)).length < n →
      one' (i :: (read ++ j :: us)) = ((one ts).1, j :: us) := by
  obtain ⟨i, read, hread, hkeeps⟩ := h ts hclean
  rw [hleft] at hread hkeeps
  exact ⟨i, read, hread, fun us hlen => hkeeps (j :: us) hlen (.same j _ _)⟩

/-- In front of a token that is expected, and found. -/
theorem Keeps.expected (h : Keeps s n one one') {ts : List Item} {kind : Token.Kind} {s' : Scope}
    (hclean : (one ts).1.clean = true) (hfound : (expect kind s' (one ts).2).1.clean = true)
    (eof : Nat) :
    ∃ i read, ts = i :: (read ++ (expect kind s' (one ts).2).2) ∧
      ∀ us, (i :: (read ++ us)).length < n →
        ∃ left, one' (i :: (read ++ us)) = ((one ts).1, left) ∧
          expect kind (s'.endingAt eof) left = ((expect kind s' (one ts).2).1, us) := by
  obtain ⟨j, after, hleft, hj, hexpect⟩ := expect_clean hfound
  obtain ⟨i, read, hread, hkeeps⟩ := h.before hclean hleft
  rw [hexpect]
  refine ⟨i, read ++ [j], by rw [hread, List.append_assoc]; rfl, fun us hlen => ?_⟩
  rw [List.append_assoc, List.singleton_append] at hlen ⊢
  exact ⟨j :: us, hkeeps us hlen, expect_found hj _ us⟩

end

/-- A list up to its closing bracket, which is the same in both texts. -/
theorem separated_keeps {s : Scope} {n : Nat} {one one' : List Item → Parsed}
    (hone : Keeps s n one one') {closer : Token.Kind} {rounds : Nat} {ts : List Item}
    (hclean : cleanAll (separated one closer rounds ts).1 = true) {j : Item} {after : List Item}
    (hend : (separated one closer rounds ts).2 = j :: after) (hj : j.kind = closer) :
    ∃ read, ts = read ++ j :: after ∧ ∀ us rounds', (read ++ j :: us).length < n →
      read.length ≤ rounds' →
      separated one' closer rounds' (read ++ j :: us) =
        ((separated one closer rounds ts).1, j :: us) := by
  have hclosed : ∀ us rounds', separated one' closer rounds' (j :: us) = ([], j :: us) := by
    intro us rounds'
    cases rounds' with
    | zero => rfl
    | succ rounds' => rw [separated, if_pos hj]
  induction rounds generalizing ts with
  | zero =>
    obtain rfl : ts = j :: after := hend
    exact ⟨[], rfl, fun us rounds' _ _ => hclosed us rounds'⟩
  | succ rounds ih =>
    cases ts with
    | nil => cases hend
    | cons i rest =>
      by_cases hi : i.kind = closer
      · simp only [separated, hi, if_true] at hend ⊢
        obtain ⟨rfl, rfl⟩ := List.cons.inj hend
        exact ⟨[], rfl, fun us rounds' _ _ => hclosed us rounds'⟩
      have hnode := hone (i :: rest)
      rcases hp : one (i :: rest) with ⟨node, left⟩
      rw [hp] at hnode
      simp only [separated, hi, if_false, hp] at hclean hend ⊢
      cases left with
      | nil => cases hend
      | cons k next =>
        by_cases hk : k.kind = .mark .comma
        · simp only [hk, if_true] at hclean hend ⊢
          obtain ⟨hfirst, hothers⟩ := Tree.cleanAll_cons.mp hclean
          obtain ⟨i', read, hread, hkeeps⟩ := hnode hfirst
          obtain ⟨rfl, hrest⟩ := List.cons.inj hread
          obtain ⟨later, rfl, hlater⟩ := ih (Tree.cleanAll_cons.mp hothers).2 hend
          refine ⟨i :: (read ++ k :: later), by rw [hrest]; simp, fun us rounds' hlen hrounds => ?_⟩
          obtain ⟨m, rfl⟩ : ∃ m, rounds' = m + 1 := ⟨rounds' - 1, by
            simp only [List.length_cons] at hrounds
            omega⟩
          have hthis := hkeeps (k :: (later ++ j :: us)) (by simpa using hlen) (.same k _ _)
          simp only [List.length_cons, List.length_append] at hlen hrounds
          have hmore := hlater us m (by simp only [List.length_append, List.length_cons]; omega)
            (by omega)
          simp only [List.cons_append, List.append_assoc, separated, hi, if_false, hthis, hk,
            if_true, hmore]
        · simp only [hk, if_false] at hclean hend ⊢
          obtain ⟨rfl, rfl⟩ := List.cons.inj hend
          obtain ⟨i', read, hread, hkeeps⟩ := hnode (Tree.cleanAll_cons.mp hclean).1
          obtain ⟨rfl, hrest⟩ := List.cons.inj hread
          refine ⟨i :: read, by rw [hrest]; rfl, fun us rounds' hlen hrounds => ?_⟩
          obtain ⟨m, rfl⟩ : ∃ m, rounds' = m + 1 := ⟨rounds' - 1, by
            simp only [List.length_cons] at hrounds
            omega⟩
          have hthis := hkeeps (k :: us) (by simpa using hlen) (.same k _ _)
          simp only [List.cons_append, separated, hi, if_false, hthis, hk]

/-- Terms end where no comma follows. -/
theorem terms_keeps {s : Scope} {n : Nat} {one one' : List Item → Parsed}
    (hone : Keeps s n one one') {rounds : Nat} {ts : List Item} (hrounds : ts.length < rounds)
    (hclean : cleanAll (terms one rounds ts).1 = true) :
    ∃ read, ts = read ++ (terms one rounds ts).2 ∧ ∀ us rounds', (read ++ us).length < n →
      Replaces s (terms one rounds ts).2 us → read.length < rounds' →
      terms one' rounds' (read ++ us) = ((terms one rounds ts).1, us) := by
  induction rounds generalizing ts with
  | zero => exact absurd hrounds (Nat.not_lt_zero _)
  | succ rounds ih =>
    have hnode := hone ts
    rcases hp : one ts with ⟨node, left⟩
    rw [hp] at hnode
    simp only [terms, hp] at hclean ⊢
    have hsucc : ∀ {k m : Nat}, k < m → ∃ m', m = m' + 1 := fun {k m} h => ⟨m - 1, by omega⟩
    cases left with
    | nil =>
      obtain ⟨i, read, rfl, hkeeps⟩ := hnode (Tree.cleanAll_cons.mp hclean).1
      refine ⟨i :: read, by simp, fun us rounds' hlen hus hrounds' => ?_⟩
      obtain ⟨m, rfl⟩ := hsucc hrounds'
      rw [List.cons_append] at hlen ⊢
      simp only [terms, hkeeps us hlen hus]
      cases us with
      | nil => rfl
      | cons u us => simp only [hus.of_nil.ne_comma, if_false]
    | cons k next =>
      by_cases hk : k.kind = .mark .comma
      · simp only [hk, if_true] at hclean ⊢
        obtain ⟨hfirst, hothers⟩ := Tree.cleanAll_cons.mp hclean
        obtain ⟨i, read, rfl, hkeeps⟩ := hnode hfirst
        simp only [List.length_cons, List.length_append] at hrounds
        obtain ⟨later, hnext, hlater⟩ := ih (by omega) (Tree.cleanAll_cons.mp hothers).2
        refine ⟨i :: (read ++ k :: later), ?_, fun us rounds' hlen hus hrounds' => ?_⟩
        · have hrest : read ++ k :: next = read ++ k :: (later ++ (terms one rounds next).2) :=
            congrArg (fun rest => read ++ k :: rest) hnext
          simpa only [List.cons_append, List.append_assoc] using congrArg (i :: ·) hrest
        obtain ⟨m, rfl⟩ := hsucc hrounds'
        simp only [List.cons_append, List.append_assoc] at hlen ⊢
        have hthis := hkeeps (k :: (later ++ us)) hlen (.same k _ _)
        simp only [List.length_cons, List.length_append] at hlen hrounds'
        have hmore := hlater us m (by rw [List.length_append]; omega) hus (by omega)
        simp only [terms, hthis, hk, if_true, hmore]
      · simp only [hk, if_false] at hclean ⊢
        obtain ⟨i, read, rfl, hkeeps⟩ := hnode (Tree.cleanAll_cons.mp hclean).1
        refine ⟨i :: read, rfl, fun us rounds' hlen hus hrounds' => ?_⟩
        obtain ⟨m, rfl⟩ := hsucc hrounds'
        rw [List.cons_append] at hlen ⊢
        simp only [terms, hkeeps us hlen hus]
        cases us with
        | nil => rfl
        | cons u us =>
          have hu : u.kind ≠ .mark .comma := by
            rcases hus.of_cons with ⟨after, hus⟩ | hus
            · cases hus
              exact hk
            · exact hus.ne_comma
          simp only [hu, if_false]

/-! ### References and operators -/

/-- `p` is read from a stretch of the items, and `f` reads the same from it whatever follows. -/
def EndsItself {α : Type} (n : Nat) (ts : List Item) (p : α × List Item)
    (f : List Item → α × List Item) : Prop :=
  ∃ read, ts = read ++ p.2 ∧ ∀ us, (read ++ us).length < n → f (read ++ us) = (p.1, us)

theorem EndsItself.congr {α : Type} {n : Nat} {ts : List Item} {p : α × List Item}
    {f g : List Item → α × List Item} (h : EndsItself n ts p f)
    (hfg : ∀ read, ts = read ++ p.2 → ∀ us, g (read ++ us) = f (read ++ us)) :
    EndsItself n ts p g := by
  obtain ⟨read, hread, hkeeps⟩ := h
  exact ⟨read, hread, fun us hlen => (hfg read hread us).trans (hkeeps us hlen)⟩

theorem member_keeps {s : Scope} {rest : List Item} (hclean : (member s rest).1.clean = true)
    (eof n : Nat) : EndsItself n rest (member s rest) (member (s.endingAt eof)) := by
  cases rest with
  | nil => cases hclean
  | cons j next =>
    rw [member] at hclean ⊢
    split at hclean
    case isTrue hj =>
      rw [if_pos hj]
      exact ⟨[j], rfl, fun us _ => if_pos hj⟩
    case isFalse => cases hclean

/-- A list in brackets. -/
theorem collection_keeps {s : Scope} {n : Nat} {kind : NodeKind} {one one' : List Item → Parsed}
    {s' : Scope} (hone : Keeps s' n one one') {closer : Token.Kind} {opener : Item}
    {rest : List Item} (hclean : (Rules.collection kind one closer s opener rest).1.clean = true)
    (eof : Nat) :
    EndsItself n rest (Rules.collection kind one closer s opener rest)
      (Rules.collection kind one' closer (s.endingAt eof) opener) := by
  simp only [Rules.collection, Tree.clean_enclose, Tree.cleanAll_append, cleanAll,
    Bool.and_eq_true] at hclean
  obtain ⟨-, ⟨-, hparts⟩, hclose, -⟩ := hclean
  obtain ⟨j, after, hleft, hj, hexpect⟩ := expect_clean hclose
  obtain ⟨read, hread, hkeeps⟩ := separated_keeps hone hparts hleft hj
  simp only [Rules.collection, hexpect]
  refine ⟨read ++ [j], by rw [hread, List.append_assoc]; rfl, fun us hlen => ?_⟩
  rw [List.append_assoc, List.singleton_append] at hlen ⊢
  have hthis := hkeeps us (read ++ j :: us).length hlen (by rw [List.length_append]; omega)
  simp only [Rules.collection, hthis, expect_found hj]
  rfl

section

variable {n : Nat} {expr expr' : ExprParser} (hexpr : KeepsExpr n expr expr')
include hexpr

theorem index_keeps {s : Scope} {i : Item} {rest : List Item}
    (hclean : cleanAll (index expr s i rest).1 = true) (eof : Nat) :
    EndsItself n rest (index expr s i rest) (index expr' (s.endingAt eof) i) := by
  obtain ⟨hvalue, hclose⟩ := Tree.cleanAll_cons.mp (Tree.cleanAll_cons.mp hclean).2
  obtain ⟨j, read, hread, hkeeps⟩ := (hexpr s.bracketed eof assignLevel).expected hvalue
    (Tree.cleanAll_cons.mp hclose).1 eof
  refine ⟨j :: read, hread, fun us hlen => ?_⟩
  obtain ⟨left, hthis, hfound⟩ := hkeeps us hlen
  rw [List.cons_append]
  simp only [index, bracketed_endingAt, hthis, hfound]

theorem arguments_keep {s : Scope} {i : Item} {rest : List Item}
    (hclean : (arguments expr s i rest).1.clean = true) (eof : Nat) :
    EndsItself n rest (arguments expr s i rest) (arguments expr' (s.endingAt eof) i) :=
  collection_keeps (hexpr s.bracketed eof assignLevel) hclean eof

theorem part_keeps {s : Scope} {i : Item} {rest : List Item} {q : NodeKind × ParsedList}
    (h : part expr s i rest = some q) (hclean : cleanAll q.2.1 = true) (eof : Nat) :
    ∃ read, rest = read ++ q.2.2 ∧ ∀ us, (read ++ us).length < n →
      part expr' (s.endingAt eof) i (read ++ us) = some (q.1, q.2.1, us) := by
  unfold part at h
  split at h
  · cases h
  case isFalse hstops =>
    simp only [part, stops_endingAt, if_neg hstops]
    split at h
    case isTrue hi =>
      cases h
      have hname := (Tree.cleanAll_cons.mp (Tree.cleanAll_cons.mp hclean).2).1
      obtain ⟨read, hread, hkeeps⟩ := member_keeps hname eof n
      exact ⟨read, hread, fun us hlen => by simp only [if_pos hi, hkeeps us hlen]⟩
    case isFalse hdot =>
      simp only [if_neg hdot]
      split at h
      case isTrue hi =>
        cases h
        obtain ⟨read, hread, hkeeps⟩ := index_keeps hexpr hclean eof
        exact ⟨read, hread, fun us hlen => by simp only [if_pos hi, hkeeps us hlen]⟩
      case isFalse hbracket =>
        simp only [if_neg hbracket]
        split at h
        case isTrue hi =>
          cases h
          have hargs := (Tree.cleanAll_cons.mp hclean).1
          obtain ⟨read, hread, hkeeps⟩ := arguments_keep hexpr hargs eof
          exact ⟨read, hread, fun us hlen => by simp only [if_pos hi, hkeeps us hlen]⟩
        case isFalse => cases h

end

/-- Whether an item goes on with an operand is told from the item alone. -/
theorem part_eq_none_iff {expr : ExprParser} {s : Scope} {i : Item} {rest : List Item} :
    part expr s i rest = none ↔ s.stops i = true ∨
      (i.kind ≠ .mark .dot ∧ i.kind ≠ .mark .lbracket ∧ i.kind ≠ .mark .lparen) := by
  unfold part
  split
  case isTrue hstops => exact iff_of_true rfl (.inl hstops)
  split
  case isTrue hi => simp_all
  split
  case isTrue hi => simp_all
  split
  case isTrue hi => simp_all
  case isFalse => simp_all

theorem Ends.part_eq_none {s : Scope} {i : Item} {rest : List Item} (h : Ends s (i :: rest))
    (expr : ExprParser) (eof : Nat) : part expr (s.endingAt eof) i rest = none := by
  refine part_eq_none_iff.mpr (h.stops_or.imp_right fun hi => ?_)
  rcases hi with hi | hi
  · exact ⟨fun hk => by simp [hk, Token.Kind.isCloser] at hi,
      fun hk => by simp [hk, Token.Kind.isCloser] at hi,
      fun hk => by simp [hk, Token.Kind.isCloser] at hi⟩
  · rw [hi]
    decide

theorem references_ended {s : Scope} {us : List Item} (h : Ends s us) (expr : ExprParser)
    (eof rounds : Nat) (base : Tree) :
    references expr (s.endingAt eof) rounds base us = (base, us) := by
  cases us with
  | nil => exact references_nil expr _ rounds base
  | cons i rest => exact references_none (h.part_eq_none expr eof) rounds base

theorem references_keep {n : Nat} {expr expr' : ExprParser} (hexpr : KeepsExpr n expr expr')
    (s : Scope) {rounds : Nat} {base : Tree} {ts : List Item} (hrounds : ts.length ≤ rounds)
    (hclean : (references expr s rounds base ts).1.clean = true) (eof : Nat) :
    ∃ read, ts = read ++ (references expr s rounds base ts).2 ∧ ∀ us rounds',
      (read ++ us).length ≤ n → Replaces s (references expr s rounds base ts).2 us →
      (read ++ us).length ≤ rounds' →
      references expr' (s.endingAt eof) rounds' base (read ++ us) =
        ((references expr s rounds base ts).1, us) := by
  -- On the rounds: what one round reads stands in front of what the others do.
  induction rounds generalizing base ts with
  | zero =>
    obtain rfl := List.eq_nil_of_length_eq_zero (Nat.le_zero.mp hrounds)
    exact ⟨[], rfl, fun us rounds' _ hus _ => references_ended hus.of_nil expr' eof rounds' base⟩
  | succ rounds ih =>
    cases ts with
    | nil =>
      exact ⟨[], rfl, fun us rounds' _ hus _ => references_ended hus.of_nil expr' eof rounds' base⟩
    | cons i rest =>
      rcases hpart : part expr s i rest with _ | q
      · rw [references_none hpart]
        refine ⟨[], rfl, fun us rounds' _ hus _ => ?_⟩
        rcases hus.of_cons with ⟨us, rfl⟩ | hus
        · have hends := part_eq_none_iff.mp hpart
          have hnone : part expr' (s.endingAt eof) i us = none := part_eq_none_iff.mpr hends
          exact references_none hnone rounds' base
        · exact references_ended hus expr' eof rounds' base
      · rw [references_some hpart] at hclean ⊢
        have hparts := (Tree.cleanAll_cons.mp
          (Tree.cleanAll_of_clean_enclose (clean_of_references hclean))).2
        obtain ⟨read, rfl, hread⟩ := part_keeps hexpr hpart hparts eof
        simp only [List.length_cons, List.length_append] at hrounds
        obtain ⟨later, hq, hlater⟩ := ih (by omega) hclean
        refine ⟨i :: (read ++ later), ?_, fun us rounds' hlen hus hrounds' => ?_⟩
        · rw [List.cons_append, List.append_assoc, ← hq]
        rw [List.cons_append, List.append_assoc] at hlen hrounds' ⊢
        simp only [List.length_cons, List.length_append] at hlen hrounds'
        obtain ⟨m, rfl⟩ : ∃ m, rounds' = m + 1 := ⟨rounds' - 1, by omega⟩
        have hthis := hread (later ++ us) (by simp only [List.length_append]; omega)
        have hmore := hlater us m (by rw [List.length_append]; omega) hus
          (by rw [List.length_append]; omega)
        rw [references_some hthis]
        exact hmore

theorem unaryWith_keeps {s : Scope} {n eof : Nat} {operand operand' : List Item → Parsed}
    (hoperand : Keeps s n operand operand') :
    Keeps s n (unaryWith operand s) (unaryWith operand' (s.endingAt eof)) := by
  intro ts hclean
  induction ts with
  | nil =>
    obtain ⟨i, read, hread, -⟩ := hoperand [] hclean
    cases hread
  | cons i rest ih =>
    rw [unaryWith] at hclean ⊢
    split at hclean
    case isTrue hi =>
      rw [if_pos hi]
      have hnode := (Tree.cleanAll_cons.mp
        (Tree.cleanAll_cons.mp (Tree.cleanAll_of_clean_enclose hclean)).2).1
      obtain ⟨j, read, hread, hkeeps⟩ := ih hnode
      refine ⟨i, j :: read, congrArg (i :: ·) hread, fun us hlen hus => ?_⟩
      rw [List.cons_append] at hlen ⊢
      have hthis := hkeeps us (Nat.lt_of_succ_lt hlen) hus
      rw [unaryWith, stops_endingAt, if_pos hi, hthis]
      rfl
    case isFalse hi =>
      rw [if_neg hi]
      obtain ⟨j, read, hread, hkeeps⟩ := hoperand (i :: rest) hclean
      obtain rfl : i = j := (List.cons.inj hread).1
      refine ⟨i, read, hread, fun us hlen hus => ?_⟩
      rw [unaryWith, stops_endingAt, if_neg hi]
      exact hkeeps us hlen hus

section

variable {s : Scope} {level : Nat} {i : Item}

/-- What makes a binary operator end an expression: it binds too loosely, or a bar or a line break
ends what is read. -/
def EndsAtOperator (s : Scope) (level : Nat) (i : Item) (b : Binding) : Prop :=
  (b.level < level || (i.kind == .operator .pipe && s.bars) || s.stops i) = true

theorem binaryTail_stops (h : ∀ b, binding? i.kind = some b → EndsAtOperator s level i b)
    (expr : ExprParser) (rounds : Nat) (left : Tree) (rest : List Item) :
    binaryTail expr s level rounds left (i :: rest) = (left, i :: rest) := by
  cases rounds with
  | zero => rfl
  | succ rounds =>
    rw [binaryTail]
    split
    · rfl
    case h_2 b hb => exact if_pos (h b hb)

theorem binaryTail_goes {b : Binding} (hb : binding? i.kind = some b)
    (h : ¬ EndsAtOperator s level i b) (expr : ExprParser) (rounds : Nat) (left : Tree)
    (rest : List Item) :
    binaryTail expr s level (rounds + 1) left (i :: rest) =
      binaryTail expr s level rounds (.enclose b.node (s.here (expr s (b.level + 1) rest).2)
        [left, i.leaf, (expr s (b.level + 1) rest).1]) (expr s (b.level + 1) rest).2 := by
  rw [binaryTail, hb]
  exact if_neg h

end

theorem binaryTail_ended {s : Scope} {us : List Item} (h : Ends s us) (expr : ExprParser)
    (eof level rounds : Nat) (left : Tree) :
    binaryTail expr (s.endingAt eof) level rounds left us = (left, us) := by
  cases us with
  | nil => cases rounds <;> rfl
  | cons i rest =>
    refine binaryTail_stops (fun b hb => ?_) expr rounds left rest
    rcases h.stops_or with hi | hi
    · rw [EndsAtOperator, stops_endingAt, hi, Bool.or_true]
    · have hnone : binding? i.kind = none := by
        rcases hi with hi | hi
        · unfold Token.Kind.isCloser at hi
          split at hi
          case h_4 => cases hi
          all_goals
            rename_i hk
            rw [hk]
            rfl
        · rw [hi]
          rfl
      rw [hnone] at hb
      cases hb

theorem binaryTail_keeps {n : Nat} {expr expr' : ExprParser} (hexpr : KeepsExpr n expr expr')
    (s : Scope) (level : Nat) {rounds : Nat} {left : Tree} {ts : List Item}
    (hrounds : ts.length ≤ rounds)
    (hclean : (binaryTail expr s level rounds left ts).1.clean = true) (eof : Nat) :
    ∃ read, ts = read ++ (binaryTail expr s level rounds left ts).2 ∧ ∀ us rounds',
      (read ++ us).length ≤ n → Replaces s (binaryTail expr s level rounds left ts).2 us →
      (read ++ us).length ≤ rounds' →
      binaryTail expr' (s.endingAt eof) level rounds' left (read ++ us) =
        ((binaryTail expr s level rounds left ts).1, us) := by
  induction rounds generalizing left ts with
  | zero =>
    obtain rfl := List.eq_nil_of_length_eq_zero (Nat.le_zero.mp hrounds)
    refine ⟨[], rfl, fun us rounds' _ hus _ => ?_⟩
    exact binaryTail_ended hus.of_nil expr' eof level rounds' left
  | succ rounds ih =>
    cases ts with
    | nil =>
      exact ⟨[], rfl, fun us rounds' _ hus _ =>
        binaryTail_ended hus.of_nil expr' eof level rounds' left⟩
    | cons i rest =>
      by_cases hstop : ∀ b, binding? i.kind = some b → EndsAtOperator s level i b
      · rw [binaryTail_stops hstop]
        refine ⟨[], rfl, fun us rounds' _ hus _ => ?_⟩
        rcases hus.of_cons with ⟨us, rfl⟩ | hus
        · have hstop' : ∀ b, binding? i.kind = some b →
              EndsAtOperator (s.endingAt eof) level i b := hstop
          exact binaryTail_stops hstop' expr' rounds' left us
        · exact binaryTail_ended hus expr' eof level rounds' left
      simp only [Classical.not_forall] at hstop
      obtain ⟨b, hb, hgoes⟩ := hstop
      rw [binaryTail_goes hb hgoes] at hclean ⊢
      have hparts := (Tree.cleanAll_cons.mp
        (Tree.cleanAll_of_clean_enclose (clean_of_binaryTail hclean))).2
      have hright := (Tree.cleanAll_cons.mp (Tree.cleanAll_cons.mp hparts).2).1
      obtain ⟨j, read, hrest, hread⟩ := hexpr s eof (b.level + 1) rest hright
      have hlength := congrArg List.length hrest
      simp only [List.length_cons, List.length_append] at hlength hrounds
      obtain ⟨later, hleft, hlater⟩ := ih (by omega) hclean
      refine ⟨i :: j :: (read ++ later), ?_, fun us rounds' hlen hus hrounds' => ?_⟩
      · simp only [List.cons_append, List.append_assoc, ← hleft]
        exact congrArg (i :: ·) hrest
      simp only [List.cons_append, List.append_assoc] at hlen hrounds' ⊢
      simp only [List.length_cons, List.length_append] at hlen hrounds'
      obtain ⟨m, rfl⟩ : ∃ m, rounds' = m + 1 := ⟨rounds' - 1, by omega⟩
      have hthis := hread (later ++ us)
        (by simp only [List.length_cons, List.length_append]; omega)
        (by rw [hleft]; exact hus.append later)
      have hmore := hlater us m (by rw [List.length_append]; omega) hus
        (by rw [List.length_append]; omega)
      have hgoes' : ¬ EndsAtOperator (s.endingAt eof) level i b := hgoes
      rw [binaryTail_goes hb hgoes', hthis]
      exact hmore

end PolicyEditor.Grammar
