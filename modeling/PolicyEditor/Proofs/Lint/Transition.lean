import PolicyEditor.Proofs.Lint.History

/-!
All that an event can do to a scheduler that is not closed, with what is seen of it. What holds at
the start and is kept by each of these transitions holds after every run.
-/

namespace PolicyEditor.Lint.Scheduler

@[simp] theorem rest_version (s : Scheduler) : s.rest.version = s.version := by
  unfold rest; split <;> rfl

@[simp] theorem rest_text (s : Scheduler) : s.rest.text = s.text := by
  unfold rest; split <;> rfl

@[simp] theorem rest_waiting (s : Scheduler) : s.rest.waiting = s.waiting := by
  unfold rest; split <;> rfl

@[simp] theorem rest_call (s : Scheduler) : s.rest.call = s.call := by
  unfold rest; split <;> rfl

@[simp] theorem rest_closed (s : Scheduler) : s.rest.closed = s.closed := by
  unfold rest; split <;> rfl

/-- The scheduler after an edit, before it is known whether the new text is long enough. -/
def retyped (s : Scheduler) (text : String) : Scheduler :=
  { s with version := s.version + 1, text := text, waiting := false }

inductive Transition (r : Rules) (s : Scheduler) : List Occurrence → Scheduler → Prop where
  -- No quiet period was running, or no call was open.
  | idle : Transition r s [] s
  -- A text that is long enough begins a quiet period.
  | typed (text : String) (hlong : r.lintable text = true) :
      Transition r s [.edited text] { retyped s text with waiting := true, idle := false }
  -- A text that is too short has no diagnostics.
  | cleared (text : String) (hshort : r.lintable text = false) :
      Transition r s [.edited text, .published []] (retyped s text).rest
  -- The quiet period ends while a call is open.
  | held (call : Call) (hwaiting : s.waiting = true) (hcall : s.call = some call) :
      Transition r s [] { s with waiting := false }
  -- The quiet period ends and the latest text is sent.
  | sent (hwaiting : s.waiting = true) (hcall : s.call = none) :
      Transition r s [.started ⟨s.version, s.text⟩]
        { s with waiting := false, call := some ⟨s.version, s.text⟩, idle := false }
  -- The answer is for the latest version.
  | fresh (call : Call) (report : Option Report) (hcall : s.call = some call)
      (hversion : call.version = s.version) :
      Transition r s [.answered call report, .published (outcome r call.text report)]
        { s with call := none }.rest
  -- The answer comes too late, and the end of the quiet period has gone by.
  | resent (call : Call) (report : Option Report) (hcall : s.call = some call)
      (hversion : call.version ≠ s.version) (hwaiting : s.waiting = false)
      (hlong : r.lintable s.text = true) :
      Transition r s [.answered call report, .started ⟨s.version, s.text⟩]
        { s with call := some ⟨s.version, s.text⟩, idle := false }
  -- The answer comes too late, and nothing is to be done about it now.
  | dropped (call : Call) (report : Option Report) (hcall : s.call = some call)
      (hversion : call.version ≠ s.version)
      (hwaiting : s.waiting = true ∨ r.lintable s.text = false) :
      Transition r s [.answered call report] { s with call := none }.rest

variable {r : Rules} {s s' : Scheduler} {new : List Occurrence}

theorem edit_long {text : String} (hlong : r.lintable text = true) :
    s.edit r text = ({ retyped s text with waiting := true, idle := false }, []) := by
  rw [edit, if_pos hlong]
  rfl

theorem edit_short {text : String} (hshort : r.lintable text = false) :
    s.edit r text = ((retyped s text).rest, [.publish []]) := by
  rw [edit, if_neg (by rw [hshort]; exact Bool.false_ne_true)]
  rfl

theorem quiet_over (hwaiting : s.waiting = false) : s.quiet = (s, []) := by
  rw [quiet, if_neg (by rw [hwaiting]; exact Bool.false_ne_true)]

theorem quiet_held {call : Call} (hwaiting : s.waiting = true) (hcall : s.call = some call) :
    s.quiet = ({ s with waiting := false }, []) := by
  rw [quiet, if_pos hwaiting]
  exact if_pos (by rw [hcall]; rfl)

theorem quiet_sent (hwaiting : s.waiting = true) (hcall : s.call = none) :
    s.quiet = ({ s with waiting := false, call := some ⟨s.version, s.text⟩, idle := false },
      [.lint ⟨s.version, s.text⟩]) := by
  rw [quiet, if_pos hwaiting]
  exact if_neg (by rw [hcall]; exact Bool.false_ne_true)

theorem answer_none (hcall : s.call = none) (report : Option Report) :
    s.answer r report = (s, []) := by
  rw [answer, hcall]

theorem answer_fresh {call : Call} (hcall : s.call = some call)
    (hversion : call.version = s.version) (report : Option Report) :
    s.answer r report =
      ({ s with call := none }.rest, [.publish (outcome r call.text report)]) := by
  have hkeep : (!s.closed && s.version != call.version && !s.waiting && r.lintable s.text) ≠
      true := by
    simp [hversion]
  rw [answer, hcall]
  simp only [hversion, if_true]
  exact if_neg (by simpa only [hversion] using hkeep)

theorem answer_resent {call : Call} (hopen : s.closed = false) (hcall : s.call = some call)
    (hversion : call.version ≠ s.version) (hwaiting : s.waiting = false)
    (hlong : r.lintable s.text = true) (report : Option Report) :
    s.answer r report =
      ({ s with call := some ⟨s.version, s.text⟩, idle := false },
        [.lint ⟨s.version, s.text⟩]) := by
  have hsend : (!s.closed && s.version != call.version && !s.waiting && r.lintable s.text) =
      true := by
    simp [hopen, hversion.symm, hwaiting, hlong]
  rw [answer, hcall]
  simp only [hversion, if_false, hsend, if_true]
  rfl

theorem answer_dropped {call : Call} (hcall : s.call = some call)
    (hversion : call.version ≠ s.version)
    (hkeep : s.waiting = true ∨ r.lintable s.text = false) (report : Option Report) :
    s.answer r report = ({ s with call := none }.rest, []) := by
  have hkeep : (!s.closed && s.version != call.version && !s.waiting && r.lintable s.text) ≠
      true := by
    rcases hkeep with h | h <;> simp [h]
  rw [answer, hcall]
  simp only [hversion, if_false, hkeep]
  rfl

theorem quiet_waiting (s : Scheduler) : s.quiet.1.waiting = false := by
  cases hwaiting : s.waiting with
  | false => rw [quiet_over hwaiting, hwaiting]
  | true =>
    cases hcall : s.call with
    | none => rw [quiet_sent hwaiting hcall]
    | some call => rw [quiet_held hwaiting hcall]

theorem quiet_text (s : Scheduler) : s.quiet.1.text = s.text := by
  cases hwaiting : s.waiting with
  | false => rw [quiet_over hwaiting]
  | true =>
    cases hcall : s.call with
    | none => rw [quiet_sent hwaiting hcall]
    | some call => rw [quiet_held hwaiting hcall]

theorem answer_waiting_text (r : Rules) (s : Scheduler) (report : Option Report) :
    (s.answer r report).1.waiting = s.waiting ∧ (s.answer r report).1.text = s.text := by
  rw [answer]
  split
  · exact ⟨rfl, rfl⟩
  · simp only
    split
    · exact ⟨rfl, rfl⟩
    · exact ⟨rest_waiting _, rest_text _⟩

theorem edit_transition (r : Rules) (s : Scheduler) (text : String) :
    Transition r s (occurrences r s (.edit text)) (s.step r (.edit text)).1 := by
  cases hlong : r.lintable text with
  | true =>
    simp only [occurrences, step, edit_long hlong]
    exact .typed text hlong
  | false =>
    simp only [occurrences, step, edit_short hlong]
    exact .cleared text hlong

theorem quiet_transition (r : Rules) (s : Scheduler) :
    Transition r s (occurrences r s .quiet) (s.step r .quiet).1 := by
  cases hwaiting : s.waiting with
  | false =>
    simp only [occurrences, step, quiet_over hwaiting]
    exact .idle
  | true =>
    cases hcall : s.call with
    | none =>
      simp only [occurrences, step, quiet_sent hwaiting hcall]
      exact .sent hwaiting hcall
    | some call =>
      simp only [occurrences, step, quiet_held hwaiting hcall]
      exact .held call hwaiting hcall

theorem answer_transition (hopen : s.closed = false) (report : Option Report) :
    Transition r s (occurrences r s (.answer report)) (s.step r (.answer report)).1 := by
  cases hcall : s.call with
  | none =>
    simp only [occurrences, step, cause, hcall, answer_none hcall]
    exact .idle
  | some call =>
    by_cases hversion : call.version = s.version
    · simp only [occurrences, step, cause, hcall, answer_fresh hcall hversion]
      exact .fresh call report hcall hversion
    · by_cases hkeep : s.waiting = true ∨ r.lintable s.text = false
      · simp only [occurrences, step, cause, hcall, answer_dropped hcall hversion hkeep]
        exact .dropped call report hcall hversion hkeep
      · have hwaiting : s.waiting = false := by
          simpa using fun h => hkeep (Or.inl h)
        have hlong : r.lintable s.text = true := by
          simpa using fun h => hkeep (Or.inr h)
        simp only [occurrences, step, cause, hcall,
          answer_resent hopen hcall hversion hwaiting hlong]
        exact .resent call report hcall hversion hwaiting hlong

/-- Every event but the closing one is one of the transitions. -/
theorem step_transition (hopen : s.closed = false) {e : Event} (he : e ≠ .close) :
    Transition r s (occurrences r s e) (s.step r e).1 := by
  cases e with
  | edit text => exact edit_transition r s text
  | quiet => exact quiet_transition r s
  | answer report => exact answer_transition hopen report
  | close => exact absurd rfl he

theorem Transition.closed_eq (h : Transition r s new s') : s'.closed = s.closed := by
  cases h <;> simp only [rest_closed, retyped]

/-- A call starts when a quiet period ends and no call is open, or where none is running and the
text is long enough. -/
theorem Transition.started_cases (h : Transition r s new s') {call : Call}
    (hstarted : .started call ∈ new) :
    s.waiting = true ∧ s.call = none ∨ s.waiting = false ∧ r.lintable s.text = true := by
  cases h with
  | sent hwaiting hcall => exact .inl ⟨hwaiting, hcall⟩
  | resent _ _ _ _ hwaiting hlong => exact .inr ⟨hwaiting, hlong⟩
  | _ => simp at hstarted

theorem started_not_mem_edit (r : Rules) (s : Scheduler) (text : String) (call : Call) :
    .started call ∉ occurrences r s (.edit text) := by
  cases hlong : r.lintable text with
  | true => simp [occurrences, cause, step, edit_long hlong]
  | false => simp [occurrences, cause, step, edit_short hlong, Effect.occurrence]

/-- What every transition keeps, every run keeps. -/
theorem run_keeps {P : List Occurrence → Scheduler → Prop}
    (hkeep : ∀ {h s new s'}, P h s → Transition r s new s' → P (h ++ new) s')
    {h : List Occurrence} (hP : P h s) (hopen : s.closed = false) {events : List Event}
    (hevents : .close ∉ events) :
    P (h ++ history r s events) (run r s events).1 := by
  -- On the events; the history so far is carried along.
  induction events generalizing h s with
  | nil => simpa only [history, run, List.append_nil] using hP
  | cons e rest ih =>
    simp only [List.mem_cons, not_or] at hevents
    have hstep := step_transition (r := r) hopen (Ne.symm hevents.1)
    have hlater := ih (hkeep hP hstep) (hstep.closed_eq.trans hopen) hevents.2
    rwa [List.append_assoc] at hlater

end PolicyEditor.Lint.Scheduler
