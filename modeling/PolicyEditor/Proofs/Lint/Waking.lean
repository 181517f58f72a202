import PolicyEditor.Lint.Scheduler
import PolicyEditor.Proofs.Lint.Publication

/-!
No waiter sleeps on while the scheduler is at rest. The flag that waiters look at is up exactly when
no quiet period runs and no call is open, so that a waiter finds the scheduler idle or falls asleep,
and the event that brings the scheduler to rest wakes everyone.
-/

namespace PolicyEditor.Lint

namespace Scheduler

def FlagTells (s : Scheduler) : Prop :=
  s.idle = true ↔ s.waiting = false ∧ s.call = none

variable {r : Rules} {s s' : Scheduler} {new : List Occurrence}

theorem flagTells_iff_phase : s.FlagTells ↔ (s.idle = true ↔ s.phase = .idle) := by
  rw [FlagTells, phase_eq_idle_iff]

theorem flagTells_down (hidle : s.idle = false) (hbusy : s.waiting = true ∨ s.call.isSome = true) :
    s.FlagTells := by
  have hdown : ¬ s.idle = true := by
    rw [hidle]
    exact Bool.false_ne_true
  apply iff_of_false hdown
  rintro ⟨hwaiting, hcall⟩
  rw [hwaiting, hcall] at hbusy
  simp only [Bool.false_eq_true, Option.isSome_none, or_self] at hbusy

/-- The flag is raised if nothing is left to wait for. If it is up already, nothing may be left. -/
theorem flagTells_rest (hup : s.idle = true → s.waiting = false ∧ s.call = none) :
    s.rest.FlagTells := by
  by_cases hbusy : (s.waiting || s.call.isSome) = true
  · have hidle : s.idle = false := by
      apply Bool.eq_false_iff.mpr
      intro hidle
      obtain ⟨hwaiting, hcall⟩ := hup hidle
      rw [hwaiting, hcall] at hbusy
      exact Bool.false_ne_true hbusy
    rw [rest, if_pos hbusy]
    exact flagTells_down hidle (Bool.or_eq_true_iff.mp hbusy)
  · have hdone : s.waiting = false ∧ s.call = none := by
      simpa using hbusy
    rw [rest, if_neg hbusy]
    exact iff_of_true rfl hdone

/-- Every transition keeps the flag true to the state. -/
theorem FlagTells.transition (h : s.FlagTells) (ht : Transition r s new s') : s'.FlagTells := by
  cases ht with
  | idle => exact h
  | typed => exact flagTells_down rfl (.inl rfl)
  -- The quiet period is over either way; a call that is open keeps the flag down.
  | cleared => exact flagTells_rest fun hidle => ⟨rfl, (h.mp hidle).2⟩
  | held call hwaiting hcall =>
    have hidle : s.idle = false := by
      apply Bool.eq_false_iff.mpr
      intro hidle
      rw [(h.mp hidle).1] at hwaiting
      exact Bool.false_ne_true hwaiting
    exact flagTells_down hidle (.inr (Option.isSome_of_eq_some hcall))
  | sent => exact flagTells_down rfl (.inr rfl)
  | fresh => exact flagTells_rest fun hidle => ⟨(h.mp hidle).1, rfl⟩
  | resent => exact flagTells_down rfl (.inr rfl)
  | dropped => exact flagTells_rest fun hidle => ⟨(h.mp hidle).1, rfl⟩

/-- A waiter returns at rest and otherwise sleeps; none spins. -/
theorem FlagTells.look_eq (h : s.FlagTells) :
    s.look = if s.phase = .idle then .returns else .sleeps := by
  by_cases hphase : s.phase = .idle
  · rw [look, if_pos hphase, if_pos hphase]
  · have hidle : ¬ s.idle = true := fun hidle => hphase ((flagTells_iff_phase.mp h).mp hidle)
    rw [look, if_neg hphase, if_neg hphase, if_neg hidle]

end Scheduler

namespace Waiters

open Scheduler (Event FlagTells)

/-- What holds of waiters at all times before the scheduler is closed: the flag is true to the state,
and while it is up nobody sleeps. -/
structure Awake (w : Waiters) : Prop where
  flag : w.scheduler.FlagTells
  asleep : w.scheduler.idle = true → w.asleep = []
  opened : w.scheduler.closed = false

variable {r : Rules} {w : Waiters}

theorem awake_start : Awake {} where
  flag := iff_of_true rfl ⟨rfl, rfl⟩
  asleep _ := rfl
  opened := rfl

theorem Awake.happens (h : w.Awake) {e : Event} (he : e ≠ .close) :
    (w.step r (.happens e)).1.Awake := by
  have ht := Scheduler.step_transition (r := r) h.opened he
  have hflag := h.flag.transition ht
  have hopened := ht.closed_eq.trans h.opened
  show (w.follow (w.scheduler.step r e).1).Awake
  by_cases hidle : (w.scheduler.step r e).1.idle = true
  · rw [follow, if_pos hidle]
    exact ⟨hflag, fun _ => rfl, hopened⟩
  · rw [follow, if_neg hidle]
    exact ⟨hflag, fun hup => absurd hup hidle, hopened⟩

theorem Awake.look (h : w.Awake) (waiter : Nat) :
    (w.look waiter).1.Awake ∧
      (w.look waiter).2 = if w.scheduler.phase = .idle then [.returned waiter] else [] := by
  by_cases hphase : w.scheduler.phase = .idle
  · simp only [Waiters.look, h.flag.look_eq, if_pos hphase, and_true]
    exact h
  · have hidle : ¬ w.scheduler.idle = true := fun hidle =>
      hphase ((Scheduler.flagTells_iff_phase.mp h.flag).mp hidle)
    simp only [Waiters.look, h.flag.look_eq, if_neg hphase, and_true]
    exact ⟨h.flag, fun hup => absurd hup hidle, h.opened⟩

/-- Whether a waiter is among the woken ones does not matter to those who sleep. -/
theorem Awake.withWoken (h : w.Awake) (woken : List Nat) : Awake { w with woken := woken } :=
  ⟨h.flag, h.asleep, h.opened⟩

theorem Awake.step (h : w.Awake) {m : Move} (hm : m ≠ .happens .close) : (w.step r m).1.Awake := by
  cases m with
  | happens e => exact h.happens fun he => hm (he ▸ rfl)
  | comes waiter => exact (h.look waiter).1
  | goesOn waiter =>
    by_cases hwoken : waiter ∈ w.woken
    · simp only [Waiters.step, if_pos hwoken]
      exact ((h.withWoken (w.woken.erase waiter)).look waiter).1
    · simp only [Waiters.step, if_neg hwoken]
      exact h

theorem Awake.run (h : w.Awake) {moves : List Move} (hmoves : .happens .close ∉ moves) :
    (w.run r moves).Awake := by
  induction moves generalizing w with
  | nil => exact h
  | cons m rest ih =>
    simp only [List.mem_cons, not_or] at hmoves
    exact ih (h.step (Ne.symm hmoves.1)) hmoves.2

/-- A look ends the waiting of one waiter at most, and only at rest. -/
theorem Awake.look_fates (h : w.Awake) {waiter : Nat} {fate : Fate}
    (hfate : fate ∈ (w.look waiter).2) :
    w.scheduler.phase = .idle ∧ fate = .returned waiter := by
  rw [(h.look waiter).2] at hfate
  by_cases hphase : w.scheduler.phase = .idle
  · rw [if_pos hphase] at hfate
    exact ⟨hphase, List.mem_singleton.mp hfate⟩
  · rw [if_neg hphase] at hfate
    exact absurd hfate List.not_mem_nil

theorem Awake.fates (h : w.Awake) {m : Move} {fate : Fate} (hfate : fate ∈ (w.step r m).2) :
    w.scheduler.phase = .idle ∧ ∃ waiter, fate = .returned waiter := by
  cases m with
  | happens e => exact absurd hfate List.not_mem_nil
  | comes waiter =>
    obtain ⟨hphase, hfate⟩ := h.look_fates hfate
    exact ⟨hphase, waiter, hfate⟩
  | goesOn waiter =>
    by_cases hwoken : waiter ∈ w.woken
    · simp only [Waiters.step, if_pos hwoken] at hfate
      obtain ⟨hphase, hfate⟩ := (h.withWoken (w.woken.erase waiter)).look_fates hfate
      exact ⟨hphase, waiter, hfate⟩
    · simp only [Waiters.step, if_neg hwoken] at hfate
      exact absurd hfate List.not_mem_nil

theorem Awake.answered (h : w.Awake) (hphase : w.scheduler.phase = .idle) {waiter : Nat}
    (hwoken : waiter ∈ w.woken) : (w.step r (.goesOn waiter)).2 = [.returned waiter] := by
  simp only [Waiters.step, if_pos hwoken]
  rw [((h.withWoken (w.woken.erase waiter)).look waiter).2]
  exact if_pos hphase

/-- Who sleeps goes on sleeping or is woken, whatever happens. -/
theorem step_keeps_asleep (r : Rules) (w : Waiters) (m : Move) {waiter : Nat}
    (hmem : waiter ∈ w.asleep) :
    waiter ∈ (w.step r m).1.asleep ∨ waiter ∈ (w.step r m).1.woken := by
  have hlook : ∀ (v : Waiters) (other : Nat), waiter ∈ v.asleep → waiter ∈ (v.look other).1.asleep := by
    intro v other hv
    rw [look]
    split
    · exact hv
    · exact List.mem_append_left _ hv
    · exact hv
  cases m with
  | happens e =>
    simp only [step, follow]
    split
    · exact .inr (List.mem_append_right _ hmem)
    · exact .inl hmem
  | comes other => exact .inl (hlook w other hmem)
  | goesOn other =>
    simp only [step]
    split
    · exact .inl (hlook _ other hmem)
    · exact .inl hmem

/-- What waiters can rely on, at any time. -/
structure Reliable (r : Rules) (w : Waiters) : Prop where
  /-- The flag is up exactly when no quiet period runs and no call is open. -/
  flag : w.scheduler.idle = true ↔ w.scheduler.waiting = false ∧ w.scheduler.call = none
  /-- At rest nobody sleeps. -/
  rested : w.scheduler.phase = .idle → w.asleep = []
  /-- Waiting ends only at rest, and nobody looks again and again. -/
  returns : ∀ m fate, fate ∈ (w.step r m).2 →
    w.scheduler.phase = .idle ∧ ∃ waiter, fate = .returned waiter
  /-- The event that brings the scheduler to rest wakes all who sleep. -/
  released : ∀ e, e ≠ .close → (w.step r (.happens e)).1.scheduler.phase = .idle →
    ∀ waiter ∈ w.asleep, waiter ∈ (w.step r (.happens e)).1.woken
  /-- Who was woken returns if the scheduler is still at rest. -/
  answered : w.scheduler.phase = .idle → ∀ waiter ∈ w.woken,
    (w.step r (.goesOn waiter)).2 = [.returned waiter]
  /-- Nobody is forgotten. -/
  kept : ∀ m, ∀ waiter ∈ w.asleep,
    waiter ∈ (w.step r m).1.asleep ∨ waiter ∈ (w.step r m).1.woken

theorem Awake.rested (h : w.Awake) (hphase : w.scheduler.phase = .idle) : w.asleep = [] :=
  h.asleep ((Scheduler.flagTells_iff_phase.mp h.flag).mpr hphase)

/-- No wake-up is lost: whatever the order in which edits, timers, answers and waiters come, until the
scheduler is closed. -/
theorem no_wakeup_lost (r : Rules) (moves : List Move) (hopen : .happens .close ∉ moves) :
    Reliable r (run r {} moves) := by
  have h : (run r {} moves).Awake := awake_start.run hopen
  refine ⟨h.flag, h.rested, fun m fate hfate => h.fates hfate, ?_,
    fun hphase waiter hwoken => h.answered hphase hwoken,
    fun m waiter hmem => step_keeps_asleep r _ m hmem⟩
  -- Nobody sleeps at rest, and who slept before and does not now has been woken.
  intro e he hphase waiter hmem
  have hnobody := (h.happens (r := r) he).rested hphase
  rcases step_keeps_asleep r _ (.happens e) hmem with hasleep | hwoken
  · rw [hnobody] at hasleep
    exact absurd hasleep List.not_mem_nil
  · exact hwoken

/-- Two waiters come while a call is open. The call is overtaken by a text that is too short, so that
its answer brings the scheduler to rest; before the second waiter goes on there is another edit. -/
def interrupted : List Move :=
  [.happens (.edit "package first"), .comes 0, .happens .quiet, .comes 1, .happens (.edit "short"),
    .happens (.answer none), .goesOn 0, .happens (.edit "package second"), .goesOn 1]

theorem no_wakeup_lost_interrupted :
    .happens .close ∉ interrupted ∧
      (run ⟨10, []⟩ {} interrupted).asleep = [1] ∧
      Reliable ⟨10, []⟩ (run ⟨10, []⟩ {} interrupted) := by
  have hopen : .happens .close ∉ interrupted := by simp [interrupted]
  exact ⟨hopen, rfl, no_wakeup_lost ⟨10, []⟩ interrupted hopen⟩

end Waiters

end PolicyEditor.Lint
