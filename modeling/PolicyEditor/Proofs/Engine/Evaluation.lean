import PolicyEditor.Engine.Opa
import PolicyEditor.Proofs.Json.Nesting

/-!
What an evaluator's output is read as. Where the first expression of the first result tells a value,
that is the answer, and most other outputs are answered as they are; but a value in the place of a
list or of an expression stops the reading, and so does output that nests too deep; an expression
without a value is answered by null.
-/

namespace PolicyEditor.Engine.Opa

/-! ### Shapes of outputs -/

def HasValue (output value : Json) : Prop :=
  ∃ row rows expression expressions,
    Json.member? "result" output = some (.arr (row :: rows)) ∧
    Json.member? "expressions" row = some (.arr (expression :: expressions)) ∧
    Json.member? "value" expression = some value

/-- The first expression of the first result is an object that tells no value. -/
def LacksValue (output : Json) : Prop :=
  ∃ row rows members expressions,
    Json.member? "result" output = some (.arr (row :: rows)) ∧
    Json.member? "expressions" row = some (.arr (.obj members :: expressions)) ∧
    Json.find? "value" members = none

/-- A value that does not count as nothing and has no first element: an object, which has keys, or a
truth value or number. -/
inductive Unlisted : Json → Malformed → Prop where
  | object (m : String × Json) (members : List (String × Json)) :
    Unlisted (.obj (m :: members)) .keyed
  | truth : Unlisted (.bool true) .elementless
  | integer {n : Int} (hn : n ≠ 0) : Unlisted (.int n) .elementless
  | float {x : Decimal.Binary64} (hx : ∀ negative power, x ≠ .finite negative 0 power) :
    Unlisted (.float x) .elementless

/-- Something stands where the list of results, the list of expressions or an expression belongs. -/
inductive Obstructed (output : Json) : Malformed → Prop where
  | results {v : Json} {fault : Malformed} (hresults : Json.member? "result" output = some v)
    (hv : Unlisted v fault) : Obstructed output fault
  | expressions {row v : Json} {rows : List Json} {fault : Malformed}
    (hresults : Json.member? "result" output = some (.arr (row :: rows)))
    (hexpressions : Json.member? "expressions" row = some v) (hv : Unlisted v fault) :
    Obstructed output fault
  | text {row : Json} {rows : List Json} {s : String}
    (hresults : Json.member? "result" output = some (.arr (row :: rows)))
    (hexpressions : Json.member? "expressions" row = some (.str s)) (hs : s ≠ "") :
    Obstructed output .memberless
  | expression {row v : Json} {rows rest : List Json}
    (hresults : Json.member? "result" output = some (.arr (row :: rows)))
    (hexpressions : Json.member? "expressions" row = some (.arr (v :: rest)))
    (hv : ∀ members, v ≠ .obj members) : Obstructed output .memberless

/-- What a run wrote; nothing stands for an empty object. -/
def Writes [Json.Nesting] (stdout : String) (output : Json) : Prop :=
  stdout = "" ∧ output = .obj [] ∨ Json.load? stdout.toList = some output

/-! ### First elements -/

theorem isEmpty_float_eq_false_iff {x : Decimal.Binary64} :
    (Json.float x).isEmpty = false ↔ ∀ negative power, x ≠ .finite negative 0 power := by
  cases x with
  | finite negative significand power =>
    rw [Json.isEmpty, beq_eq_false_iff_ne]
    exact ⟨fun h _ _ heq => h (by cases heq; rfl), fun h hzero => h negative power (by rw [hzero])⟩
  | nan | infinite => exact iff_of_true rfl nofun

theorem Unlisted.isEmpty_eq_false {v : Json} {fault : Malformed} (h : Unlisted v fault) :
    v.isEmpty = false := by
  cases h with
  | object | truth => rfl
  | integer hn => exact beq_eq_false_iff_ne.mpr hn
  | float hx => exact isEmpty_float_eq_false_iff.mpr hx

theorem Unlisted.firstElement_eq {v : Json} {fault : Malformed} (h : Unlisted v fault) :
    firstElement v = .error fault := by
  cases h <;> rfl

theorem isEmpty_str_eq_false_iff {s : String} : (Json.str s).isEmpty = false ↔ s ≠ "" :=
  String.isEmpty_eq_false_iff

/-- The first element of a text is a text. -/
theorem exists_firstElement_str {s : String} (hs : s ≠ "") :
    ∃ c, firstElement (.str s) = .ok (.str c) := by
  cases hchars : s.toList with
  | nil => exact absurd (String.toList_eq_nil_iff.mp hchars) hs
  | cons c rest => exact ⟨String.ofList [c], by rw [firstElement, hchars]⟩

/-- What does not count as nothing is a list, a text or has no first element. -/
theorem listed_cases {v : Json} (hv : v.isEmpty = false) :
    (∃ w rest, v = .arr (w :: rest)) ∨ (∃ s, v = .str s ∧ s ≠ "") ∨ ∃ fault, Unlisted v fault := by
  cases v with
  | null => cases hv
  | bool b =>
    cases b with
    | false => cases hv
    | true => exact .inr (.inr ⟨_, .truth⟩)
  | int n => exact .inr (.inr ⟨_, .integer (beq_eq_false_iff_ne.mp hv)⟩)
  | float x => exact .inr (.inr ⟨_, .float (isEmpty_float_eq_false_iff.mp hv)⟩)
  | str s => exact .inr (.inl ⟨s, rfl, isEmpty_str_eq_false_iff.mp hv⟩)
  | arr elements =>
    cases elements with
    | nil => cases hv
    | cons w rest => exact .inl ⟨w, rest, rfl⟩
  | obj members =>
    cases members with
    | nil => cases hv
    | cons m members => exact .inr (.inr ⟨_, .object m members⟩)

/-! ### Reading an output -/

theorem member?_eq_some_iff {key : String} {output v : Json} :
    Json.member? key output = some v ↔
      ∃ members, output = .obj members ∧ Json.find? key members = some v := by
  cases output <;> simp [Json.member?]

theorem given?_of_find? {key : String} {members : List (String × Json)} {v : Json}
    (hv : Json.find? key members = some v) :
    given? key members = if v.isEmpty then none else some v := by
  rw [given?, hv, Option.filter_some]
  cases v.isEmpty <;> rfl

theorem given?_eq_none {key : String} {members : List (String × Json)}
    (h : ∀ v, Json.find? key members = some v → v.isEmpty = true) : given? key members = none := by
  cases hfound : Json.find? key members with
  | none => rw [given?, hfound, Option.filter_none]
  | some v => rw [given?_of_find? hfound, if_pos (h v hfound)]

def answerOf (output : Json) : Json → Except Malformed Json
  | .obj row =>
    match given? "expressions" row with
    | none => .ok output
    | some expressions => firstElement expressions >>= valueOf
  | _ => .ok output

theorem unwrap_of_results {output v : Json} (hresults : Json.member? "result" output = some v)
    (hv : v.isEmpty = false) : unwrap output = firstElement v >>= answerOf output := by
  obtain ⟨fields, rfl, hfound⟩ := member?_eq_some_iff.mp hresults
  have hgiven := given?_of_find? hfound
  rw [hv] at hgiven
  simp only [unwrap, firstExpression?, hgiven, Bool.false_eq_true, if_false]
  cases firstElement v with
  | error fault => rfl
  | ok w =>
    cases w with
    | obj row =>
      simp only [bind, Except.bind, answerOf]
      cases given? "expressions" row with
      | none => rfl
      | some expressions =>
        dsimp only
        cases firstElement expressions <;> rfl
    | _ => rfl

theorem unwrap_of_expressions {output row v : Json} {rows : List Json}
    (hresults : Json.member? "result" output = some (.arr (row :: rows)))
    (hexpressions : Json.member? "expressions" row = some v) (hv : v.isEmpty = false) :
    unwrap output = firstElement v >>= valueOf := by
  obtain ⟨fields, rfl, hfound⟩ := member?_eq_some_iff.mp hexpressions
  have hgiven := given?_of_find? hfound
  rw [hv] at hgiven
  rw [unwrap_of_results hresults rfl]
  show answerOf output (.obj fields) = _
  rw [answerOf, hgiven]
  rfl

/-- Without a list of results an output is answered as it is. -/
theorem unwrap_of_no_results {output : Json}
    (h : ∀ v, Json.member? "result" output = some v → v.isEmpty = true) :
    unwrap output = .ok output := by
  cases output with
  | obj fields =>
    rw [unwrap, firstExpression?, given?_eq_none h]
    rfl
  | _ => rfl

theorem answerOf_of_no_expressions {output row : Json}
    (h : ∀ v, Json.member? "expressions" row = some v → v.isEmpty = true) :
    answerOf output row = .ok output := by
  cases row with
  | obj fields => rw [answerOf, given?_eq_none h]
  | _ => rfl

/-! ### Answers -/

theorem HasValue.unwrap_eq {output value : Json} (h : HasValue output value) :
    unwrap output = .ok value := by
  obtain ⟨row, rows, expression, expressions, hresults, hexpressions, hvalue⟩ := h
  obtain ⟨members, rfl, hfound⟩ := member?_eq_some_iff.mp hvalue
  rw [unwrap_of_expressions hresults hexpressions rfl]
  show valueOf (.obj members) = _
  rw [valueOf, hfound, Option.getD_some]

theorem LacksValue.unwrap_eq {output : Json} (h : LacksValue output) :
    unwrap output = .ok .null := by
  obtain ⟨row, rows, members, expressions, hresults, hexpressions, hvalue⟩ := h
  rw [unwrap_of_expressions hresults hexpressions rfl]
  show valueOf (.obj members) = _
  rw [valueOf, hvalue, Option.getD_none]

theorem Obstructed.unwrap_eq {output : Json} {fault : Malformed} (h : Obstructed output fault) :
    unwrap output = .error fault := by
  cases h with
  | results hresults hv =>
    rw [unwrap_of_results hresults hv.isEmpty_eq_false, hv.firstElement_eq]
    rfl
  | expressions hresults hexpressions hv =>
    rw [unwrap_of_expressions hresults hexpressions hv.isEmpty_eq_false, hv.firstElement_eq]
    rfl
  | text hresults hexpressions hs =>
    obtain ⟨c, hc⟩ := exists_firstElement_str hs
    rw [unwrap_of_expressions hresults hexpressions (isEmpty_str_eq_false_iff.mpr hs), hc]
    rfl
  | @expression row v rows rest hresults hexpressions hv =>
    rw [unwrap_of_expressions hresults hexpressions rfl]
    show valueOf v = _
    cases v with
    | obj members => exact absurd rfl (hv members)
    | _ => rfl

/-- An output whose results have expressions has a value, lacks one or stops the reading. -/
theorem shape_of_expressions {output row v : Json} {rows : List Json}
    (hresults : Json.member? "result" output = some (.arr (row :: rows)))
    (hexpressions : Json.member? "expressions" row = some v) (hv : v.isEmpty = false) :
    (∃ value, HasValue output value) ∨ LacksValue output ∨ ∃ fault, Obstructed output fault := by
  rcases listed_cases hv with ⟨w, rest, rfl⟩ | ⟨s, rfl, hs⟩ | ⟨fault, hfault⟩
  · cases w with
    | obj members =>
      cases hvalue : Json.find? "value" members with
      | none => exact .inr (.inl ⟨row, rows, members, rest, hresults, hexpressions, hvalue⟩)
      | some value =>
        exact .inl ⟨value, row, rows, .obj members, rest, hresults, hexpressions, hvalue⟩
    | _ => exact .inr (.inr ⟨_, .expression hresults hexpressions nofun⟩)
  · exact .inr (.inr ⟨_, .text hresults hexpressions hs⟩)
  · exact .inr (.inr ⟨fault, .expressions hresults hexpressions hfault⟩)

/-- Every output of another shape is answered as it is. -/
theorem unwrap_of_other_shape {output : Json} (hvalue : ∀ value, ¬ HasValue output value)
    (hlacks : ¬ LacksValue output) (hfault : ∀ fault, ¬ Obstructed output fault) :
    unwrap output = .ok output := by
  by_cases hresults : ∃ v, Json.member? "result" output = some v ∧ v.isEmpty = false
  · obtain ⟨v, hresults, hv⟩ := hresults
    rw [unwrap_of_results hresults hv]
    rcases listed_cases hv with ⟨row, rows, rfl⟩ | ⟨s, rfl, hs⟩ | ⟨fault, hunlisted⟩
    · refine answerOf_of_no_expressions fun e he => ?_
      refine (Bool.not_eq_false _).mp fun hempty => ?_
      rcases shape_of_expressions hresults he hempty with ⟨value, h⟩ | h | ⟨fault, h⟩
      · exact hvalue value h
      · exact hlacks h
      · exact hfault fault h
    · -- The first result would be a text of one character, which has no expressions.
      obtain ⟨c, hc⟩ := exists_firstElement_str hs
      rw [hc]
      rfl
    · exact absurd (.results hresults hunlisted) (hfault fault)
  · refine unwrap_of_no_results fun v hv => ?_
    exact (Bool.not_eq_false _).mp fun hempty => hresults ⟨v, hv, hempty⟩

theorem obstructed_iff {output : Json} {fault : Malformed} :
    Obstructed output fault ↔ unwrap output = .error fault := by
  refine ⟨Obstructed.unwrap_eq, fun h => Classical.byContradiction fun hnot => ?_⟩
  -- A shape that is answered gives no fault, and an obstruction gives its own one.
  have hplain : unwrap output = .ok output := by
    refine unwrap_of_other_shape (fun value hvalue => ?_) (fun hlacks => ?_) fun other hother => ?_
    · exact nomatch hvalue.unwrap_eq.symm.trans h
    · exact nomatch hlacks.unwrap_eq.symm.trans h
    · cases hother.unwrap_eq.symm.trans h
      exact hnot hother
  exact nomatch hplain.symm.trans h

section

variable [Json.Nesting]

theorem readOutput_of_writes {stdout : String} {output : Json} (h : Writes stdout output) :
    readOutput stdout = (unwrap output).mapError .malformed := by
  rcases h with ⟨rfl, rfl⟩ | hload
  · rfl
  · have hne : stdout ≠ "" := by
      rintro rfl
      obtain ⟨hdecode, -⟩ := Json.load?_eq_some_iff.mp hload
      cases hdecode
    rw [Json.load?] at hload
    cases hread : Json.load stdout.toList with
    | error e => rw [hread] at hload; cases hload
    | ok v =>
      rw [hread] at hload
      cases hload
      rw [readOutput, String.isEmpty_eq_false_iff.mpr hne, hread]
      rfl

theorem readOutput_of_tooDeep {stdout : String} (h : Json.TooDeep stdout.toList) :
    readOutput stdout = .error .tooDeep := by
  have hne : stdout ≠ "" := by
    rintro rfl
    exact Json.not_tooDeep_of_openings (Nat.zero_le _) h
  obtain ⟨offset, hload⟩ := h
  rw [readOutput, String.isEmpty_eq_false_iff.mpr hne, hload]
  rfl

theorem readOutput_eq_tooDeep_iff {stdout : String} :
    readOutput stdout = .error .tooDeep ↔ Json.TooDeep stdout.toList := by
  refine ⟨fun h => ?_, readOutput_of_tooDeep⟩
  unfold readOutput at h
  split at h
  · cases h
  split at h
  · rename_i e hload
    split at h
    · rename_i hfault
      exact ⟨e.offset, by rw [hload, ← hfault]⟩
    · cases h
  · rename_i output _
    cases hunwrap : unwrap output <;> rw [hunwrap] at h <;> cases h

theorem evaluation_failure_iff {stdout : String} :
    (∃ why, readOutput stdout = .error (.evaluation why)) ↔
      stdout ≠ "" ∧ Json.decode? stdout.toList = none ∧ ¬ Json.TooDeep stdout.toList := by
  by_cases hdeep : Json.TooDeep stdout.toList
  · rw [readOutput_of_tooDeep hdeep]
    exact iff_of_false nofun fun h => h.2.2 hdeep
  rw [Json.decode?, ← Json.load_eq_decode_of_not_tooDeep hdeep]
  constructor
  · rintro ⟨why, hwhy⟩
    have hunread : ∀ output, ¬ Writes stdout output := by
      intro output hwrites
      rw [readOutput_of_writes hwrites] at hwhy
      cases hunwrap : unwrap output <;> rw [hunwrap] at hwhy <;> cases hwhy
    exact ⟨fun hempty => hunread _ (.inl ⟨hempty, rfl⟩),
      Option.eq_none_iff_forall_ne_some.mpr fun output h => hunread output (.inr h), hdeep⟩
  · rintro ⟨hne, hload, -⟩
    cases hread : Json.load stdout.toList with
    | error e =>
      have hfault : e.fault ≠ .tooDeep := fun h => hdeep ⟨e.offset, by rw [hread, ← h]⟩
      rw [readOutput, String.isEmpty_eq_false_iff.mpr hne, hread]
      exact ⟨_, if_neg hfault⟩
    | ok v => rw [hread] at hload; cases hload

/-- An output that is there and cannot be decoded is the only evaluation failure, and only output that
nests too deep is not read at all. Of what is read the value in the first expression of the first result is the answer, and what has another shape is
answered as it is, except that an expression without a value is answered by null and that something
else in the place of a list or of an expression is a fault. -/
theorem readOutput_unwraps (stdout : String) :
    ((∃ why, readOutput stdout = .error (.evaluation why)) ↔
      stdout ≠ "" ∧ Json.decode? stdout.toList = none ∧ ¬ Json.TooDeep stdout.toList) ∧
    (readOutput stdout = .error .tooDeep ↔ Json.TooDeep stdout.toList) ∧
    ∀ output, Writes stdout output →
      (∀ value, HasValue output value → readOutput stdout = .ok value) ∧
      (LacksValue output → readOutput stdout = .ok .null) ∧
      (∀ fault, Obstructed output fault ↔ readOutput stdout = .error (.malformed fault)) ∧
      ((∀ value, ¬ HasValue output value) → ¬ LacksValue output →
        (∀ fault, ¬ Obstructed output fault) → readOutput stdout = .ok output) := by
  refine ⟨evaluation_failure_iff, readOutput_eq_tooDeep_iff, fun output hwrites => ?_⟩
  rw [readOutput_of_writes hwrites]
  refine ⟨fun value h => ?_, fun h => ?_, fun fault => ?_, fun hvalue hlacks hfault => ?_⟩
  · rw [h.unwrap_eq]
    rfl
  · rw [h.unwrap_eq]
    rfl
  · rw [obstructed_iff]
    cases unwrap output with
    | ok v => exact iff_of_false nofun nofun
    | error e => exact ⟨fun h => by cases h; rfl, fun h => by cases h; rfl⟩
  · rw [unwrap_of_other_shape hvalue hlacks hfault]
    rfl

end

section

open scoped Json.UsualNesting

/-- The first expression of the first result is taken, whatever follows it. -/
theorem readOutput_unwraps_first :
    HasValue (.obj [("result", .arr [.obj [("expressions", .arr [.obj [("value", .int 1)],
      .int 2])], .null])]) (.int 1) ∧
    readOutput "\x7b\"result\": [\x7b\"expressions\": [\x7b\"value\": 1\x7d, 2]\x7d, null]\x7d" =
      .ok (.int 1) := by
  have hvalue : HasValue (.obj [("result", .arr [.obj [("expressions",
      .arr [.obj [("value", .int 1)], .int 2])], .null])]) (.int 1) :=
    ⟨_, _, _, _, rfl, rfl, rfl⟩
  exact ⟨hvalue, ((readOutput_unwraps _).2.2 _ (.inr rfl)).1 _ hvalue⟩

/-- Results and expressions that are no lists and expressions that are no objects are faults, and an
expression without a value is answered by null. -/
theorem other_shapes_not_answered :
    (Json.decode? "\x7b\"result\": \x7b\"a\": 1\x7d\x7d".toList =
        some (.obj [("result", .obj [("a", .int 1)])]) ∧
      readOutput "\x7b\"result\": \x7b\"a\": 1\x7d\x7d" = .error (.malformed .keyed)) ∧
    (Json.decode? "\x7b\"result\": 5\x7d".toList = some (.obj [("result", .int 5)]) ∧
      readOutput "\x7b\"result\": 5\x7d" = .error (.malformed .elementless)) ∧
    (Json.decode? "\x7b\"result\": [\x7b\"expressions\": [5]\x7d]\x7d".toList =
        some (.obj [("result", .arr [.obj [("expressions", .arr [.int 5])]])]) ∧
      readOutput "\x7b\"result\": [\x7b\"expressions\": [5]\x7d]\x7d" =
        .error (.malformed .memberless)) ∧
    Json.decode? "\x7b\"result\": [\x7b\"expressions\": [\x7b\x7d]\x7d]\x7d".toList =
        some (.obj [("result", .arr [.obj [("expressions", .arr [.obj []])]])]) ∧
      readOutput "\x7b\"result\": [\x7b\"expressions\": [\x7b\x7d]\x7d]\x7d" = .ok .null :=
  ⟨⟨rfl, rfl⟩, ⟨rfl, rfl⟩, ⟨rfl, rfl⟩, rfl, rfl⟩

end

end PolicyEditor.Engine.Opa
