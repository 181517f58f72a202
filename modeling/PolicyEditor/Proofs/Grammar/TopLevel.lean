import PolicyEditor.Proofs.Grammar.Nesting

/-!
What a bracket opens, told from the items at its top level: those outside nested brackets, and these
brackets themselves. The look ahead counts brackets and keeps flags as it goes; what it finds is
decided by the top level alone, so what nested brackets hold never matters.
-/

namespace PolicyEditor.Grammar

/-- The items outside the brackets that open among these, with the brackets themselves, up to the
first closing bracket that closes none of them. All three kinds of bracket count alike; `depth` of
them are open in front. -/
def topLevel : (depth : Nat) → List Item → List Item
  | _, [] => []
  | 0, i :: rest =>
    if i.kind.isCloser then []
    else i :: topLevel (if i.kind.isOpener then 1 else 0) rest
  | depth + 1, i :: rest =>
    if i.kind.isOpener then topLevel (depth + 2) rest
    else if i.kind.isCloser then if depth = 0 then i :: topLevel 0 rest else topLevel depth rest
    else topLevel (depth + 1) rest

def isBar (i : Item) : Bool :=
  i.kind == .operator .pipe

def isColon (i : Item) : Bool :=
  i.kind == .mark .colon

/-- An operand may end with the first item and another one begin, on a new line, with the second. -/
def partsStatements (i j : Item) : Bool :=
  endsOperand i.kind && startsOperand j.kind && j.newline

/-- What the items at the top level of braces make of these. -/
def openedBy (top : List Item) : NodeKind :=
  if top.any isBar then
    if (top.takeWhile fun i => !isBar i).any isColon then .objectComprehension
    else .setComprehension
  else if top.any isColon || top.isEmpty then .object
  else if (top.any fun i => marksStatement i.kind) ||
      (top.zip top.tail).any fun p => partsStatements p.1 p.2 then .body
  else .set

theorem isBar_iff {i : Item} : isBar i = true ↔ i.kind = .operator .pipe :=
  beq_iff_eq

/-! ### From the scan to the top level -/

namespace BraceScan

def survey (s : BraceScan) : List Item → NodeKind
  | [] => s.verdict
  | i :: top =>
    if isBar i then if s.colon then .objectComprehension else .setComprehension
    else (s.note i).survey top

def Entered (s : BraceScan) : Prop :=
  0 < s.depth → s.content = true

theorem survey_depth (s : BraceScan) (depth : Nat) (top : List Item) :
    survey { s with depth := depth } top = s.survey top := by
  induction top generalizing s with
  | nil => rfl
  | cons i top ih =>
    simp only [survey]
    split
    · rfl
    · exact ih (s.note i)

theorem startsOperand_of_isCloser {k : Token.Kind} (h : k.isCloser = true) :
    startsOperand k = false := by
  unfold Token.Kind.isCloser at h
  split at h <;> first | rfl | cases h

theorem marksStatement_of_isCloser {k : Token.Kind} (h : k.isCloser = true) :
    marksStatement k = false := by
  unfold Token.Kind.isCloser at h
  split at h <;> first | rfl | cases h

/-- A bracket that closes a nested one tells nothing but that it stands there. -/
theorem note_closer {i : Item} (hi : i.kind.isCloser = true) {s : BraceScan}
    (hs : s.content = true) : s.note i = { s with last := some i.kind } := by
  have hcolon : (i.kind == .mark .colon) = false := by
    apply beq_eq_false_iff_ne.mpr
    intro hkind
    rw [hkind] at hi
    cases hi
  simp only [note, hcolon, marksStatement_of_isCloser hi, startsOperand_of_isCloser hi,
    Bool.or_false, Bool.and_false, ← hs]

theorem not_bar_of_isCloser {i : Item} (hi : i.kind.isCloser = true) : isBar i = false := by
  apply beq_eq_false_iff_ne.mpr
  intro hkind
  rw [hkind] at hi
  cases hi

/-- One step of the scan at the top level, at an item that does not end it. -/
theorem nest_note {i : Item} (hclose : ¬ i.kind.isCloser = true) {s : BraceScan}
    (hdepth : s.depth = 0) :
    (s.note i).nest i = { s.note i with depth := if i.kind.isOpener then 1 else 0 } := by
  rw [nest, if_neg hclose]
  have hnote : (s.note i).depth = 0 := hdepth
  split
  · rw [hnote]
  · rw [← hnote]

/-- One step of the scan within nested brackets: behind the last of them that closes, the scan is
what it would be had this bracket been noted at the top level. -/
theorem nest_inside (i : Item) {s : BraceScan} {depth : Nat} (hdepth : s.depth = depth + 1)
    (hs : s.content = true) :
    s.nest i = if i.kind.isOpener then { s with depth := depth + 2 }
      else if i.kind.isCloser then
        if depth = 0 then { s.note i with depth := 0 } else { s with depth := depth }
      else s := by
  rw [nest, hdepth]
  split
  · rfl
  split
  · rename_i hclose
    by_cases hlast : depth = 0
    · rw [if_pos (by omega), if_pos hlast, note_closer hclose hs]
    · rw [if_neg (by omega), if_neg hlast, Nat.add_sub_cancel]
  · rfl

/-- The scan comes to what a survey of the top level comes to. -/
theorem run_eq_survey (s : BraceScan) (hs : s.Entered) (rest : List Item) :
    s.run rest = s.survey (topLevel s.depth rest) := by
  induction rest generalizing s with
  | nil => cases s.depth <;> rfl
  | cons i rest ih =>
    rcases hdepth : s.depth with _ | depth
    -- At the top level the item is noted, unless it ends the look ahead.
    · rw [run, if_pos hdepth, topLevel]
      by_cases hclose : i.kind.isCloser = true
      · rw [if_pos hclose, if_pos hclose, survey]
      rw [if_neg hclose, if_neg hclose, survey, nest_note hclose hdepth]
      by_cases hbar : i.kind = .operator .pipe
      · rw [if_pos hbar, if_pos (isBar_iff.mpr hbar)]
      · have hcontent : Entered { s.note i with depth := if i.kind.isOpener then 1 else 0 } :=
          fun _ => rfl
        rw [if_neg hbar, if_neg (mt isBar_iff.mp hbar), ih _ hcontent, survey_depth]
    -- Inside nested brackets only the depth changes, until the outermost of them closes.
    · have hcontent : s.content = true := hs (by omega)
      have henter : ∀ d, Entered { s with depth := d } := fun _ _ => hcontent
      rw [run, if_neg (by omega), nest_inside i hdepth hcontent, topLevel]
      split
      · rw [ih _ (henter _), survey_depth]
      split
      · rename_i hclose
        split
        · rw [ih _ (fun _ => rfl), survey_depth, survey, if_neg]
          rw [not_bar_of_isCloser hclose]
          decide
        · rw [ih _ (henter _), survey_depth]
      · rw [ih s hs, hdepth]

/-! ### From a survey to what it finds -/

/-- Whether statements part somewhere among items that follow one of kind `last`. -/
def partsAfter (last : Option Token.Kind) : List Item → Bool
  | [] => false
  | i :: top =>
    (i.newline && last.any endsOperand && startsOperand i.kind) || partsAfter (some i.kind) top

theorem partsAfter_some (i : Item) (top : List Item) :
    partsAfter (some i.kind) top = ((i :: top).zip top).any fun p => partsStatements p.1 p.2 := by
  induction top generalizing i with
  | nil => rfl
  | cons j top ih =>
    rw [partsAfter, List.zip_cons_cons, List.any_cons, ih j]
    congr 1
    simp only [Option.any_some, partsStatements]
    ac_rfl

theorem partsAfter_none (top : List Item) :
    partsAfter none top = (top.zip top.tail).any fun p => partsStatements p.1 p.2 := by
  cases top with
  | nil => rfl
  | cons i top =>
    simp only [partsAfter, Option.any_none, Bool.and_false, Bool.false_and, Bool.false_or,
      partsAfter_some, List.tail_cons]

/-- What a survey finds, from what is known in front and from the items. -/
theorem survey_eq (s : BraceScan) (top : List Item) : s.survey top =
    if top.any isBar then
      if s.colon || (top.takeWhile fun i => !isBar i).any isColon then .objectComprehension
      else .setComprehension
    else if (s.colon || top.any isColon) || !(s.content || !top.isEmpty) then .object
    else if s.statement || ((top.any fun i => marksStatement i.kind) || partsAfter s.last top) then
      .body
    else .set := by
  induction top generalizing s with
  | nil =>
    simp only [survey, verdict, partsAfter, List.any_nil, List.takeWhile_nil, List.isEmpty_nil,
      Bool.or_false, Bool.not_true, Bool.false_eq_true, if_false]
  | cons i top ih =>
    rw [survey]
    by_cases hbar : isBar i = true
    · simp only [hbar, List.any_cons, List.takeWhile_cons, Bool.true_or, Bool.not_true, if_true,
        Bool.false_eq_true, if_false, List.any_nil, Bool.or_false]
    · have hcolon : (i.kind == .mark .colon) = isColon i := rfl
      have hpast : (if isBar i = true then
          if s.colon = true then NodeKind.objectComprehension else .setComprehension
          else (s.note i).survey top) = (s.note i).survey top := if_neg hbar
      rw [hpast, ih (s.note i)]
      simp only [note, hcolon, hbar, List.any_cons, List.takeWhile_cons, partsAfter,
        Bool.not_false, if_true, Bool.false_or, Bool.or_assoc, List.isEmpty_cons,
        Bool.true_or, Bool.or_true, Bool.not_true]
      -- The flags of the two sides hold the same parts in another order.
      congr 3
      ac_rfl

end BraceScan

theorem classifyBrace_eq_openedBy (rest : List Item) :
    classifyBrace rest = openedBy (topLevel 0 rest) := by
  have hscan := BraceScan.run_eq_survey {} nofun rest
  rw [classifyBrace, hscan, BraceScan.survey_eq, openedBy]
  simp only [Bool.false_or, Bool.not_not, BraceScan.partsAfter_none]

/-! ### Square brackets -/

theorem barBeforeClose_eq_any (depth : Nat) (rest : List Item) :
    barBeforeClose depth rest = (topLevel depth rest).any isBar := by
  induction rest generalizing depth with
  | nil => cases depth <;> rfl
  | cons i rest ih =>
    have hbar : (i.kind == .operator .pipe) = isBar i := rfl
    cases depth with
    | zero =>
      rw [barBeforeClose.eq_def, topLevel]
      simp only [ih, hbar, decide_true, Bool.true_and]
      split
      case isTrue hopen =>
        have hclose : ¬ i.kind.isCloser = true := fun hclose => by
          rw [isOpener_of_isCloser hclose] at hopen
          cases hopen
        have hnotBar : isBar i = false := beq_eq_false_iff_ne.mpr (ne_pipe_of_isOpener hopen)
        rw [if_neg hclose, List.any_cons, hnotBar, Bool.false_or]
      case isFalse =>
        split
        · rfl
        · rw [List.any_cons]
          cases isBar i <;> rfl
    | succ depth =>
      rw [barBeforeClose.eq_def, topLevel]
      simp only [ih, Nat.succ_ne_zero, decide_false, Bool.false_and, Bool.false_eq_true, if_false]
      split
      · rfl
      split
      case isTrue hclose =>
        split
        · subst depth
          rw [List.any_cons, BraceScan.not_bar_of_isCloser hclose, Bool.false_or]
        · rfl
      case isFalse => rfl

/-! ### What nested brackets hold -/

/-- Nested brackets are passed over, whatever pairs up within them. -/
theorem topLevel_inside {P : Item → Prop} {inside : List Item} (h : Nests P inside) (depth : Nat)
    (rest : List Item) : topLevel (depth + 1) (inside ++ rest) = topLevel (depth + 1) rest := by
  induction h generalizing depth rest with
  | nil => rfl
  | plain hopen hclose _ _ ih =>
    rw [List.cons_append, topLevel, if_neg (ne_true_of_eq_false hopen),
      if_neg (ne_true_of_eq_false hclose), ih]
  | group hopen hclose _ _ _ ihInside ih =>
    rw [List.cons_append, List.append_assoc, List.cons_append, topLevel, if_pos hopen, ihInside,
      topLevel, if_neg (ne_true_of_eq_false (isOpener_of_isCloser hclose)), if_pos hclose,
      if_neg (Nat.succ_ne_zero depth), ih]

theorem topLevel_congr {a b : List Item} (h : ∀ depth, topLevel depth a = topLevel depth b)
    (front : List Item) (depth : Nat) : topLevel depth (front ++ a) = topLevel depth (front ++ b) := by
  induction front generalizing depth with
  | nil => exact h depth
  | cons i front ih => cases depth <;> simp only [List.cons_append, topLevel, ih]

theorem topLevel_group {opener : Item} {inside inside' : List Item}
    (hopen : opener.kind.isOpener = true) (hinside : Balanced inside)
    (hinside' : Balanced inside') (closer : Item) (after : List Item) (depth : Nat) :
    topLevel depth (opener :: (inside ++ closer :: after)) =
      topLevel depth (opener :: (inside' ++ closer :: after)) := by
  cases depth with
  | zero => simp only [topLevel, hopen, if_true, topLevel_inside hinside, topLevel_inside hinside']
  | succ depth =>
    simp only [topLevel, hopen, if_true, topLevel_inside hinside, topLevel_inside hinside']

/-- What braces and square brackets open is told by the items at their top level, and what stands
between nested brackets may be replaced by anything whose brackets pair up. -/
theorem brackets_told_at_top_level (rest : List Item) :
    classifyBrace rest = openedBy (topLevel 0 rest) ∧
    classifyBracket rest =
      (if (topLevel 0 rest).any isBar then .arrayComprehension else .array) ∧
    ∀ front opener inside closer after, rest = front ++ opener :: (inside ++ closer :: after) →
      opener.kind.isOpener = true → closer.kind.isCloser = true → Balanced inside →
      ∀ inside', Balanced inside' →
        classifyBrace (front ++ opener :: (inside' ++ closer :: after)) = classifyBrace rest ∧
        classifyBracket (front ++ opener :: (inside' ++ closer :: after)) =
          classifyBracket rest := by
  have hbracket : ∀ ts, classifyBracket ts =
      if (topLevel 0 ts).any isBar then .arrayComprehension else .array := fun ts => by
    rw [classifyBracket, barBeforeClose_eq_any]
  refine ⟨classifyBrace_eq_openedBy rest, hbracket rest, ?_⟩
  rintro front opener inside closer after rfl hopen - hinside inside' hinside'
  have hsame := topLevel_congr (topLevel_group hopen hinside' hinside closer after) front 0
  constructor
  · rw [classifyBrace_eq_openedBy, classifyBrace_eq_openedBy, hsame]
  · rw [hbracket, hbracket, hsame]

def itemOf (k : Token.Kind) (newline : Bool) : Item :=
  ⟨⟨k, [], 0⟩, newline, newline⟩

/-- The items after the brace of `{ f(:)`, a line break and `[|] }`: a call and a bracket on two
lines are statements, and neither the nested colon nor the nested bar counts. -/
theorem brackets_told_at_top_level_nested :
    let name := itemOf .identifier false
    let call := itemOf (.mark .lparen) false
    let close := itemOf (.mark .rparen) false
    let bracket := [itemOf (.mark .lbracket) true, itemOf (.operator .pipe) false,
      itemOf (.mark .rbracket) false, itemOf (.mark .rbrace) false]
    classifyBrace (name :: call :: itemOf (.mark .colon) false :: close :: bracket) = .body ∧
    classifyBrace (name :: call :: close :: bracket) = .body := by
  intro name call close bracket
  have htold := brackets_told_at_top_level
    (name :: call :: itemOf (.mark .colon) false :: close :: bracket)
  have hinside : Balanced [itemOf (.mark .colon) false] := .plain rfl rfl trivial .nil
  have hsame := htold.2.2 [name] call [itemOf (.mark .colon) false] close bracket rfl rfl rfl hinside
    [] .nil
  have hbody : classifyBrace (name :: call :: itemOf (.mark .colon) false :: close :: bracket) =
      .body := htold.1.trans rfl
  exact ⟨hbody, hsame.1.trans hbody⟩

end PolicyEditor.Grammar
