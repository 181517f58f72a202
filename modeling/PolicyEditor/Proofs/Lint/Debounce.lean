import PolicyEditor.Lint.Timeline
import PolicyEditor.Proofs.Lint.Bookkeeping

/-!
When a scheduler under a clock calls the linter: one call at a time, each for the latest text, and
none within a quiet period. A call may be started by a timer or by the answer to the call before it;
an answer starts one only where the timer of the latest text has already gone off.
-/

namespace PolicyEditor.Lint.Timeline

open Scheduler

/-- What can happen to a timeline that nobody closes. That a quiet period whose time has come ends
is a move of its own, so edits and answers may come in between. -/
inductive Move where
  | edit (text : String)
  | pass (ms : Nat)
  | settle
  | answer (call : Nat) (report : Option Report)

def move (t : Timeline) : Move → Timeline
  | .edit text => (t.edit text).1
  | .pass ms => { t with now := t.now + ms }
  | .settle => t.settle.1
  | .answer call report => (t.answer call report).1

/-- Lapse of time is two moves: the clock goes on, then the quiet period may end. -/
theorem elapse_eq_moves (t : Timeline) (ms : Nat) :
    (t.elapse ms).1 = (t.move (.pass ms)).move .settle := rfl

def event? (t : Timeline) : Move → Option Event
  | .edit text => some (.edit text)
  | .pass _ => none
  | .settle => if t.scheduler.waiting && t.due ≤ t.now then some .quiet else none
  | .answer call report => if t.openCall? = some call then some (.answer report) else none

def seen (t : Timeline) (m : Move) : List (Int × Occurrence) :=
  match t.event? m with
  | some e => (occurrences t.rules t.scheduler e).map fun x => (t.now, x)
  | none => []

def log (t : Timeline) : List Move → List (Int × Occurrence)
  | [] => []
  | m :: rest => seen t m ++ log (t.move m) rest

def editTimes (l : List (Int × Occurrence)) : List Int :=
  l.filterMap fun entry => entry.2.edited?.map fun _ => entry.1

def untimed (l : List (Int × Occurrence)) : List Occurrence :=
  l.map Prod.snd

variable {t : Timeline} {l : List (Int × Occurrence)}

theorem untimed_append (l l' : List (Int × Occurrence)) :
    untimed (l ++ l') = untimed l ++ untimed l' :=
  List.map_append

theorem untimed_at (now : Int) (h : List Occurrence) :
    untimed (h.map fun x => (now, x)) = h := by
  rw [untimed, List.map_map]
  exact List.map_id h

theorem editTimes_append (l l' : List (Int × Occurrence)) :
    editTimes (l ++ l') = editTimes l ++ editTimes l' :=
  List.filterMap_append

theorem eq_of_mem_editTimes_at {now time : Int} {h : List Occurrence}
    (hmem : time ∈ editTimes (h.map fun x => (now, x))) : time = now := by
  obtain ⟨entry, hentry, htime⟩ := List.mem_filterMap.mp hmem
  obtain ⟨x, -, rfl⟩ := List.mem_map.mp hentry
  cases hx : x.edited? with
  | none => rw [hx] at htime; exact nomatch htime
  | some text =>
    rw [hx] at htime
    exact (Option.some.inj htime).symm

theorem editTimes_at_of_no_edit (now : Int) {h : List Occurrence}
    (hno : h.filterMap Occurrence.edited? = []) : editTimes (h.map fun x => (now, x)) = [] := by
  rw [editTimes, List.filterMap_map, List.filterMap_eq_nil_iff]
  intro x hx
  have hnone := List.filterMap_eq_nil_iff.mp hno x hx
  simp only [Function.comp_apply, hnone, Option.map_none]

/-! ## What a move leaves behind -/

/-- A quiet period whose time has come ends; otherwise nothing happens. -/
theorem settle_cases (t : Timeline) :
    (t.scheduler.waiting = true ∧ t.due ≤ t.now ∧ t.event? .settle = some .quiet ∧
      t.move .settle = (t.event .quiet).1) ∨
    (t.event? .settle = none ∧ t.move .settle = t) := by
  by_cases hover : (t.scheduler.waiting && t.due ≤ t.now) = true
  · have hboth := Bool.and_eq_true_iff.mp hover
    exact .inl ⟨hboth.1, of_decide_eq_true hboth.2, if_pos hover, congrArg Prod.fst (if_pos hover)⟩
  · exact .inr ⟨if_neg hover, congrArg Prod.fst (if_neg hover)⟩

/-- Only the open call is answered. -/
theorem answer_cases (t : Timeline) (call : Nat) (report : Option Report) :
    (t.openCall? = some call ∧ t.event? (.answer call report) = some (.answer report) ∧
      t.move (.answer call report) = (t.event (.answer report)).1) ∨
    (t.event? (.answer call report) = none ∧ t.move (.answer call report) = t) := by
  by_cases hcall : t.openCall? = some call
  · exact .inl ⟨hcall, if_pos hcall, congrArg Prod.fst (if_pos hcall)⟩
  · exact .inr ⟨if_neg hcall, congrArg Prod.fst (if_neg hcall)⟩

theorem seen_event {m : Move} {e : Event} (he : t.event? m = some e) :
    seen t m = (occurrences t.rules t.scheduler e).map fun x => (t.now, x) := by
  rw [seen, he]

theorem seen_nothing {m : Move} (he : t.event? m = none) : seen t m = [] := by
  rw [seen, he]

theorem move_setup (t : Timeline) (m : Move) :
    (t.move m).rules = t.rules ∧ (t.move m).debounce = t.debounce := by
  cases m with
  | edit text => exact ⟨rfl, rfl⟩
  | pass ms => exact ⟨rfl, rfl⟩
  | settle =>
    rcases t.settle_cases with ⟨-, -, -, hmove⟩ | ⟨-, hmove⟩
    · rw [hmove]
      exact ⟨rfl, rfl⟩
    · rw [hmove]
      exact ⟨rfl, rfl⟩
  | answer call report =>
    rcases t.answer_cases call report with ⟨-, -, hmove⟩ | ⟨-, hmove⟩
    · rw [hmove]
      exact ⟨rfl, rfl⟩
    · rw [hmove]
      exact ⟨rfl, rfl⟩

/-- The scheduler goes through a transition, and all that is seen is seen at the present time. -/
theorem move_transition (hopen : t.scheduler.closed = false) (m : Move) :
    ∃ new, Transition t.rules t.scheduler new (t.move m).scheduler ∧
      seen t m = new.map fun x => (t.now, x) := by
  cases m with
  | edit text => exact ⟨_, edit_transition t.rules t.scheduler text, rfl⟩
  | pass ms => exact ⟨[], .idle, rfl⟩
  | settle =>
    rcases t.settle_cases with ⟨-, -, he, hmove⟩ | ⟨he, hmove⟩
    · rw [hmove, seen_event he]
      exact ⟨_, quiet_transition t.rules t.scheduler, rfl⟩
    · rw [hmove, seen_nothing he]
      exact ⟨[], .idle, rfl⟩
  | answer call report =>
    rcases t.answer_cases call report with ⟨-, he, hmove⟩ | ⟨he, hmove⟩
    · rw [hmove, seen_event he]
      exact ⟨_, answer_transition hopen report, rfl⟩
    · rw [hmove, seen_nothing he]
      exact ⟨[], .idle, rfl⟩

/-! ## The quiet period -/

structure Timed (t : Timeline) (l : List (Int × Occurrence)) : Prop where
  past : ∀ time ∈ editTimes l, time ≤ t.now
  due : t.scheduler.waiting = true → ∀ time ∈ editTimes l, time + t.debounce ≤ t.due
  -- A long text for which no timer runs has been left alone for a quiet period.
  lapsed : t.scheduler.waiting = false → t.rules.lintable t.scheduler.text = true →
    ∀ time ∈ editTimes l, time + t.debounce ≤ t.now

theorem Timed.edit (ht : Timed t l) (text : String) :
    Timed (t.move (.edit text)) (l ++ seen t (.edit text)) := by
  have hpast : ∀ time ∈ editTimes (l ++ seen t (.edit text)), time ≤ t.now := by
    intro time hmem
    rw [editTimes_append] at hmem
    rcases List.mem_append.mp hmem with hmem | hmem
    · exact ht.past time hmem
    · exact Int.le_of_eq (eq_of_mem_editTimes_at hmem)
  refine ⟨hpast, fun _ time hmem => ?_, fun hwaiting hlong => ?_⟩
  · change time + t.debounce ≤ t.now + t.debounce
    have hle := hpast time hmem
    omega
  · change (t.scheduler.edit t.rules text).1.waiting = false at hwaiting
    change t.rules.lintable (t.scheduler.edit t.rules text).1.text = true at hlong
    cases hl : t.rules.lintable text with
    | true =>
      rw [edit_long hl] at hwaiting
      exact nomatch hwaiting
    | false =>
      rw [edit_short hl, rest_text] at hlong
      change t.rules.lintable text = true at hlong
      rw [hl] at hlong
      exact nomatch hlong

theorem Timed.pass (ht : Timed t l) (ms : Nat) : Timed (t.move (.pass ms)) l := by
  have hlater : t.now ≤ t.now + ms := by omega
  exact ⟨fun time hmem => Int.le_trans (ht.past time hmem) hlater, ht.due,
    fun hwaiting hlong time hmem => Int.le_trans (ht.lapsed hwaiting hlong time hmem) hlater⟩

theorem Timed.event (ht : Timed t l) {e : Event} (he : ∀ text, e ≠ .edit text)
    (htext : (t.scheduler.step t.rules e).1.text = t.scheduler.text)
    (hwaiting : (t.scheduler.step t.rules e).1.waiting = true → t.scheduler.waiting = true)
    (hover : (t.scheduler.step t.rules e).1.waiting = false →
      t.scheduler.waiting = false ∨ t.scheduler.waiting = true ∧ t.due ≤ t.now) :
    Timed (t.event e).1
      (l ++ (occurrences t.rules t.scheduler e).map fun x => (t.now, x)) := by
  have hedits : editTimes (l ++ (occurrences t.rules t.scheduler e).map fun x => (t.now, x)) =
      editTimes l := by
    rw [editTimes_append, editTimes_at_of_no_edit _ (occurrences_no_edit _ _ he), List.append_nil]
  refine ⟨?_, ?_, ?_⟩
  · rw [hedits]
    exact ht.past
  · rw [hedits]
    exact fun hw => ht.due (hwaiting hw)
  · rw [hedits]
    intro hw hl time hmem
    change t.rules.lintable (t.scheduler.step t.rules e).1.text = true at hl
    rw [htext] at hl
    rcases hover hw with hold | ⟨hold, hdue⟩
    · exact ht.lapsed hold hl time hmem
    · exact Int.le_trans (ht.due hold time hmem) hdue

theorem Timed.move (ht : Timed t l) (m : Move) : Timed (t.move m) (l ++ seen t m) := by
  cases m with
  | edit text => exact ht.edit text
  | pass ms =>
    have hpassed := ht.pass ms
    rwa [← List.append_nil l] at hpassed
  | settle =>
    rcases t.settle_cases with ⟨hwaiting, hover, he, hmove⟩ | ⟨he, hmove⟩
    · rw [hmove, seen_event he]
      refine ht.event (fun _ heq => nomatch heq) (quiet_text _) (fun hw => ?_)
        fun _ => .inr ⟨hwaiting, hover⟩
      change t.scheduler.quiet.1.waiting = true at hw
      rw [quiet_waiting] at hw
      exact nomatch hw
    · rw [hmove, seen_nothing he, List.append_nil]
      exact ht
  | answer call report =>
    rcases t.answer_cases call report with ⟨-, he, hmove⟩ | ⟨he, hmove⟩
    · obtain ⟨hwaiting, htext⟩ := answer_waiting_text t.rules t.scheduler report
      rw [hmove, seen_event he]
      exact ht.event (fun _ heq => nomatch heq) htext (fun hw => hwaiting.symm.trans hw)
        fun hw => .inl (hwaiting.symm.trans hw)
    · rw [hmove, seen_nothing he, List.append_nil]
      exact ht

/-- Where a move starts a call, no edit lies within the quiet period before it. -/
theorem Timed.calm (ht : Timed t l) (hopen : t.scheduler.closed = false) {m : Move} {call : Call}
    {h : List Occurrence} (hseen : seen t m = h.map fun x => (t.now, x))
    (hstarted : .started call ∈ h) : ∀ edited ∈ editTimes l, edited + t.debounce ≤ t.now := by
  have hh : untimed (seen t m) = h := by rw [hseen, untimed_at]
  rw [← hh] at hstarted
  cases m with
  | edit text =>
    rw [seen, event?, untimed_at] at hstarted
    exact absurd hstarted (started_not_mem_edit _ _ _ _)
  | pass ms => exact absurd hstarted List.not_mem_nil
  | settle =>
    rcases t.settle_cases with ⟨hwaiting, hover, -⟩ | ⟨he, -⟩
    · exact fun edited hmem => Int.le_trans (ht.due hwaiting edited hmem) hover
    · rw [seen_nothing he] at hstarted
      exact absurd hstarted List.not_mem_nil
  | answer n report =>
    rcases t.answer_cases n report with ⟨hn, he, -⟩ | ⟨he, -⟩
    · rw [seen_event he, untimed_at] at hstarted
      -- No timer and a long text that is not sent yet: its quiet period has gone by.
      rcases (answer_transition hopen report).started_cases hstarted with ⟨-, hnone⟩ | ⟨hw, hlong⟩
      · rw [openCall?, hnone] at hn
        exact nomatch hn
      · exact ht.lapsed hw hlong
    · rw [seen_nothing he] at hstarted
      exact absurd hstarted List.not_mem_nil

/-! ## Calls -/

/-- At most one call is open, and a call that starts has the latest version and text and comes
after a quiet period. -/
structure CallWell (debounce : Int) (before : List (Int × Occurrence)) (x : Int × Occurrence) :
    Prop where
  single : (outstanding (untimed before)).length ≤ 1
  version : ∀ call, x.2 = .started call → call.version = editCount (untimed before)
  text : ∀ call, x.2 = .started call → call.text = latestText (untimed before)
  calm : ∀ call, x.2 = .started call → ∀ edited ∈ editTimes before, edited + debounce ≤ x.1

theorem callWell_of_unstarted {debounce : Int} {before : List (Int × Occurrence)}
    {x : Int × Occurrence} (hsingle : (outstanding (untimed before)).length ≤ 1)
    (hx : x.2.started? = none) : CallWell debounce before x := by
  have hno : ∀ call, x.2 ≠ .started call := by
    intro call heq
    rw [heq] at hx
    exact nomatch hx
  exact ⟨hsingle, fun call heq => absurd heq (hno call), fun call heq => absurd heq (hno call),
    fun call heq => absurd heq (hno call)⟩

theorem outstanding_length_le {r : Rules} {h : List Occurrence} {s : Scheduler}
    (ht : Tracks r h s) : (outstanding h).length ≤ 1 := by
  rw [ht.calls]
  cases s.call with
  | none => exact Nat.zero_le 1
  | some call => exact Nat.le_refl 1

theorem outstanding_answered {r : Rules} {s : Scheduler} {now : Int}
    (ht : Tracks r (untimed l) s) {call : Call} (hcall : s.call = some call)
    (report : Option Report) :
    (outstanding (untimed (l ++ [(now, .answered call report)]))).length ≤ 1 := by
  have hnone : outstanding (untimed (l ++ [(now, .answered call report)])) = [] := by
    rw [untimed_append, outstanding_append, ht.calls, hcall]
    exact openCalls_answered call report
  rw [hnone]
  exact Nat.zero_le 1

theorem callWell_transition {r : Rules} {s s' : Scheduler} {new : List Occurrence}
    {debounce now : Int} (ht : Tracks r (untimed l) s) (htr : Transition r s new s')
    (hcalm : ∀ call, .started call ∈ new → ∀ edited ∈ editTimes l, edited + debounce ≤ now)
    (hsofar : Throughout (CallWell debounce) l) :
    Throughout (CallWell debounce) (l ++ new.map fun x => (now, x)) := by
  have hsingle := outstanding_length_le ht
  cases htr with
  | idle | held => rwa [List.map_nil, List.append_nil]
  | typed | dropped => exact hsofar.concat (callWell_of_unstarted hsingle rfl)
  | cleared text hshort =>
    have hedited : (outstanding (untimed (l ++ [(now, .edited text)]))).length ≤ 1 := by
      rw [untimed_append, outstanding_append]
      exact hsingle
    exact hsofar.pair (callWell_of_unstarted hsingle rfl) (callWell_of_unstarted hedited rfl)
  | sent hwaiting hcall =>
    refine hsofar.concat ⟨hsingle, ?_, ?_, fun call _ => hcalm _ List.mem_cons_self⟩
    · rintro call ⟨⟩
      exact ht.version.symm
    · rintro call ⟨⟩
      exact ht.text.symm
  | fresh call report hcall hversion =>
    exact hsofar.pair (callWell_of_unstarted hsingle rfl)
      (callWell_of_unstarted (outstanding_answered ht hcall report) rfl)
  | resent call report hcall hversion hwaiting hlong =>
    have hedits : editTimes (l ++ [(now, .answered call report)]) = editTimes l := by
      rw [editTimes_append]
      exact List.append_nil _
    refine hsofar.pair (callWell_of_unstarted hsingle rfl)
      ⟨outstanding_answered ht hcall report, ?_, ?_, ?_⟩
    · rintro call ⟨⟩
      rw [untimed_append, editCount_append, ht.version]
      rfl
    · rintro call ⟨⟩
      rw [untimed_append, latestText_append_of_no_edit _ _ rfl, ht.text]
    · rintro call ⟨⟩
      rw [hedits]
      exact hcalm _ (List.mem_cons_of_mem _ List.mem_cons_self)

structure Kept (debounce : Int) (t : Timeline) (l : List (Int × Occurrence)) : Prop where
  debounce_eq : t.debounce = debounce
  closed : t.scheduler.closed = false
  books : Books t.rules (untimed l) t.scheduler
  timed : Timed t l
  calls : Throughout (CallWell debounce) l

theorem kept_start (rules : Rules) (debounce now : Int) :
    Kept debounce { rules := rules, debounce := debounce, now := now } [] where
  debounce_eq := rfl
  closed := rfl
  books := books_start rules
  timed := ⟨fun _ hmem => absurd hmem List.not_mem_nil, fun hw => absurd hw Bool.false_ne_true,
    fun _ _ _ hmem => absurd hmem List.not_mem_nil⟩
  calls := .nil

theorem Kept.move {debounce : Int} (hk : Kept debounce t l) (m : Move) :
    Kept debounce (t.move m) (l ++ seen t m) := by
  obtain ⟨new, htr, hseen⟩ := move_transition hk.closed m
  obtain ⟨hrules, hdebounce⟩ := t.move_setup m
  have huntimed : untimed (l ++ seen t m) = untimed l ++ new := by
    rw [untimed_append, hseen, untimed_at]
  refine ⟨?_, ?_, ?_, hk.timed.move m, ?_⟩
  · rw [hdebounce, hk.debounce_eq]
  · rw [htr.closed_eq, hk.closed]
  · rw [hrules, huntimed]
    exact hk.books.transition htr
  · rw [hseen]
    refine callWell_transition hk.books.tracks htr (fun call hstarted edited hmem => ?_) hk.calls
    have hcalm := hk.timed.calm hk.closed hseen hstarted edited hmem
    rwa [hk.debounce_eq] at hcalm

theorem kept_log {debounce : Int} (hk : Kept debounce t l) (moves : List Move) :
    ∃ t', Kept debounce t' (l ++ log t moves) := by
  -- On the moves; the log so far is carried along.
  induction moves generalizing t l with
  | nil => exact ⟨t, by rwa [log, List.append_nil]⟩
  | cons m rest ih =>
    obtain ⟨t', hlater⟩ := ih (hk.move m)
    exact ⟨t', by rwa [log, ← List.append_assoc]⟩

/-- At every moment at most one call is open. Every call that starts, by a timer or by an answer,
has the version and text that are the latest, and the last edit is a quiet period ago. No version
is sent twice. -/
theorem calls_single_and_debounced (rules : Rules) (debounce now : Int) (moves : List Move) :
    let l := log { rules := rules, debounce := debounce, now := now } moves
    (∀ before after, l = before ++ after → (outstanding (untimed before)).length ≤ 1) ∧
    (∀ before time call after, l = before ++ (time, .started call) :: after →
      call.version = editCount (untimed before) ∧ call.text = latestText (untimed before) ∧
        ∀ edited ∈ editTimes before, edited + debounce ≤ time) ∧
    (startedCalls (untimed l)).Pairwise fun c d => c.version < d.version := by
  intro l
  obtain ⟨t', hk⟩ := kept_log (kept_start rules debounce now) moves
  rw [List.nil_append] at hk
  refine ⟨?_, ?_, hk.books.calls.sorted⟩
  · intro before after heq
    cases after with
    | nil =>
      rw [List.append_nil] at heq
      rw [← heq]
      exact outstanding_length_le hk.books.tracks
    | cons x after => exact (hk.calls before x after heq).single
  · intro before time call after heq
    have hcall := hk.calls before _ after heq
    exact ⟨hcall.version call rfl, hcall.text call rfl, hcall.calm call rfl⟩

end PolicyEditor.Lint.Timeline
