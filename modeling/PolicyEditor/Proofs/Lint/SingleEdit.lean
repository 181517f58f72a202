import PolicyEditor.Proofs.Lint.Debounce
import PolicyEditor.Proofs.Lint.Publication
import PolicyEditor.Session

/-!
One edit of a fresh scheduler. A text that is too short is settled at once. A longer one is waited
for, sent and answered, in this order and once each, however time passes in between; so one list is
published, and it is the one that the text should have.
-/

namespace PolicyEditor.Lint.Timeline

open Scheduler

/-- Nothing is edited, and a call that is answered is given this report. -/
def Move.Answers (report : Option Report) : Move → Prop
  | .edit _ => False
  | .pass _ | .settle => True
  | .answer _ given => given = report

/-- How far one edit has come, with all that was seen of it. -/
inductive Stage (r : Rules) (text : String) (report : Option Report) :
    List Occurrence → Scheduler → Prop where
  | short {s : Scheduler} : r.lintable text = false → s.waiting = false → s.call = none →
      Stage r text report [.edited text, .published []] s
  | waiting {s : Scheduler} : r.lintable text = true → s.waiting = true → s.call = none →
      s.version = 1 → s.text = text → Stage r text report [.edited text] s
  | called {s : Scheduler} : r.lintable text = true → s.waiting = false →
      s.call = some ⟨1, text⟩ → s.version = 1 →
      Stage r text report [.edited text, .started ⟨1, text⟩] s
  | done {s : Scheduler} : r.lintable text = true → s.waiting = false → s.call = none →
      Stage r text report [.edited text, .started ⟨1, text⟩, .answered ⟨1, text⟩ report,
        .published (outcome r text report)] s

variable {r : Rules} {text : String} {report : Option Report} {h : List Occurrence} {s : Scheduler}

namespace Stage

theorem edit (r : Rules) (text : String) (report : Option Report) :
    Stage r text report (occurrences r {} (.edit text)) (Scheduler.step r {} (.edit text)).1 := by
  by_cases hlong : r.lintable text = true
  · simp only [occurrences, Scheduler.step, edit_long hlong]
    exact .waiting hlong rfl rfl rfl rfl
  · rw [Bool.not_eq_true] at hlong
    simp only [occurrences, Scheduler.step, edit_short hlong]
    apply Stage.short hlong
    · rw [rest_waiting]
      rfl
    · rw [rest_call]
      rfl

theorem quiet (hs : Stage r text report h s) :
    Stage r text report (h ++ occurrences r s .quiet) (s.step r .quiet).1 := by
  by_cases hwaiting : s.waiting = true
  · cases hs with
    | waiting hlong _ hcall hversion htext =>
      simp only [occurrences, Scheduler.step, quiet_sent hwaiting hcall]
      rw [hversion, htext]
      exact .called hlong rfl rfl rfl
    | short _ hover => rw [hover] at hwaiting; cases hwaiting
    | called _ hover => rw [hover] at hwaiting; cases hwaiting
    | done _ hover => rw [hover] at hwaiting; cases hwaiting
  · rw [Bool.not_eq_true] at hwaiting
    simp only [occurrences, Scheduler.step, quiet_over hwaiting]
    rw [show cause s .quiet ++ ([] : List Effect).map Effect.occurrence = [] from rfl,
      List.append_nil]
    exact hs

theorem answer (hs : Stage r text report h s) :
    Stage r text report (h ++ occurrences r s (.answer report)) (s.step r (.answer report)).1 := by
  by_cases hcall : s.call = none
  · simp only [occurrences, Scheduler.step, cause, hcall, answer_none hcall]
    rw [show (none : Option Call).toList.map (fun call => Occurrence.answered call report) ++
      ([] : List Effect).map Effect.occurrence = [] from rfl, List.append_nil]
    exact hs
  · cases hs with
    -- The only call is the one for this edit, so its answer is never too late.
    | called hlong hwaiting hopen hversion =>
      simp only [occurrences, Scheduler.step, cause, hopen, answer_fresh hopen hversion.symm]
      apply Stage.done hlong
      · rw [rest_waiting]
        exact hwaiting
      · rw [rest_call]
    | short _ _ hnone => exact absurd hnone hcall
    | waiting _ _ hnone => exact absurd hnone hcall
    | done _ _ hnone => exact absurd hnone hcall

/-- Once the scheduler is at rest its one list is published, and a text that is long enough has been
sent once. -/
theorem at_rest (hs : Stage r text report h s) (hrest : s.phase = .idle) :
    publishedLists h = [verdict r (fun _ => report) text] ∧
      startedCalls h = if r.lintable text then [⟨1, text⟩] else [] := by
  obtain ⟨hwaiting, hcall⟩ := (phase_eq_idle_iff s).mp hrest
  cases hs with
  | short hshort =>
    rw [verdict_short hshort, hshort]
    exact ⟨rfl, rfl⟩
  | waiting _ hw => rw [hw] at hwaiting; cases hwaiting
  | called _ _ hopen => rw [hopen] at hcall; cases hcall
  | done hlong =>
    rw [verdict_long hlong, hlong]
    exact ⟨rfl, rfl⟩

/-- A text that is too short is settled by its edit. -/
theorem of_short (hs : Stage r text report h s) (hshort : r.lintable text = false) :
    h = [.edited text, .published []] ∧ s.phase = .idle := by
  cases hs with
  | short _ hwaiting hcall => exact ⟨rfl, (phase_eq_idle_iff s).mpr ⟨hwaiting, hcall⟩⟩
  | waiting hlong => rw [hlong] at hshort; cases hshort
  | called hlong => rw [hlong] at hshort; cases hshort
  | done hlong => rw [hlong] at hshort; cases hshort

/-- One move that is no edit goes on with the edit that was made. -/
theorem move {t : Timeline} {l : List (Int × Occurrence)}
    (hs : Stage t.rules text report (untimed l) t.scheduler) {m : Move} (hm : m.Answers report) :
    Stage (t.move m).rules text report (untimed (l ++ seen t m)) (t.move m).scheduler := by
  rw [(t.move_setup m).1, untimed_append]
  cases m with
  | edit text => cases hm
  | pass ms =>
    rw [show untimed (seen t (.pass ms)) = [] from rfl, List.append_nil]
    exact hs
  | settle =>
    rcases t.settle_cases with ⟨-, -, he, hmove⟩ | ⟨he, hmove⟩
    · rw [hmove, seen_event he, untimed_at]
      exact hs.quiet
    · rw [hmove, seen_nothing he, show untimed [] = [] from rfl, List.append_nil]
      exact hs
  | answer call given =>
    obtain rfl : given = report := hm
    rcases t.answer_cases call given with ⟨-, he, hmove⟩ | ⟨he, hmove⟩
    · rw [hmove, seen_event he, untimed_at]
      exact hs.answer
    · rw [hmove, seen_nothing he, show untimed [] = [] from rfl, List.append_nil]
      exact hs

/-- Any number of such moves does. -/
theorem moves {t : Timeline} {l : List (Int × Occurrence)}
    (hs : Stage t.rules text report (untimed l) t.scheduler) {ms : List Move}
    (hms : ∀ m ∈ ms, m.Answers report) :
    Stage t.rules text report (untimed (l ++ log t ms)) (ms.foldl Timeline.move t).scheduler := by
  induction ms generalizing t l with
  | nil =>
    rw [log, List.append_nil]
    exact hs
  | cons m rest ih =>
    obtain ⟨hm, hrest⟩ := List.forall_mem_cons.mp hms
    have hlater := ih (hs.move hm) hrest
    rw [(t.move_setup m).1] at hlater
    rw [log, ← List.append_assoc]
    exact hlater

end Stage

/-! ## Under settings -/

def edited (s : Settings) (text : String) : Timeline :=
  (Session.timelineFor s).move (.edit text)

/-- All that is seen of a fresh timeline that is edited once and then goes through these moves. -/
def singleEdit (s : Settings) (text : String) (moves : List Move) : List Occurrence :=
  untimed (log (Session.timelineFor s) (.edit text :: moves))

/-- After one edit these moves, which answer calls with this report, bring the scheduler to rest. -/
structure Settles (s : Settings) (text : String) (report : Option Report) (moves : List Move) :
    Prop where
  answers : ∀ m ∈ moves, m.Answers report
  idle : (moves.foldl Timeline.move (edited s text)).scheduler.phase = .idle

variable {settings : Settings} {moves : List Move}

theorem stage_singleEdit (hmoves : ∀ m ∈ moves, m.Answers report) :
    Stage settings.lintRules text report (singleEdit settings text moves)
      (moves.foldl Timeline.move (edited settings text)).scheduler := by
  have hedit : Stage (edited settings text).rules text report
      (untimed (seen (Session.timelineFor settings) (.edit text)))
      (edited settings text).scheduler := by
    rw [seen_event (e := .edit text) rfl, untimed_at]
    exact Stage.edit settings.lintRules text report
  exact hedit.moves hmoves

/-- A scheduler comes to rest: the quiet period passes, and the call is answered. -/
theorem settles (s : Settings) (text : String) (report : Option Report) :
    Settles s text report [.pass s.lintDebounceMs.toNat, .settle, .answer 0 report] := by
  have hanswers : ∀ m ∈ [.pass s.lintDebounceMs.toNat, .settle, .answer 0 report],
      Move.Answers report m := by
    simp only [List.forall_mem_cons, Move.Answers, List.not_mem_nil, false_implies, implies_true,
      and_self]
  refine ⟨hanswers, ?_⟩
  by_cases hlong : s.lintRules.lintable text = true
  · have hdue : (0 : Int) + s.lintDebounceMs ≤ 0 + (s.lintDebounceMs.toNat : Int) := by omega
    rw [phase_eq_idle_iff]
    -- The three moves one by one: the clock reaches the due time, the call starts, and it ends.
    simp only [List.foldl_cons, List.foldl_nil, edited, Session.timelineFor, Timeline.move,
      Timeline.edit, Timeline.event, Scheduler.step, edit_long hlong, settle, hdue,
      decide_true, Bool.and_self, if_true, quiet_sent, retyped, Timeline.answer, openCall?,
      callCount, List.countP_nil, List.countP_cons, Option.map_some]
    exact ⟨rfl, rfl⟩
  · rw [Bool.not_eq_true] at hlong
    exact ((stage_singleEdit hanswers).of_short hlong).2

end PolicyEditor.Lint.Timeline
