import PolicyEditor.Proofs.Lint.Transition

/-!
Closing a scheduler step by step. The one event `close` stands for a wait: the call under way is
cancelled at once, but its last block runs later, and what happens in between finds a scheduler that
has no call. A call that is sent in between can lose its place to that block; it then runs on and
answers although the scheduler does not know of it.

No order of these steps brings anything out that was there before the end: what a closed scheduler
still does is owed to the edits that it got afterwards. It does not refuse those.
-/

namespace PolicyEditor.Lint

namespace Scheduler

/-- The last block of a call for a version: the call gives up its place, and the latest text is sent
if nothing else is going to send it. -/
def finish (r : Rules) (s : Scheduler) (version : Nat) : Scheduler × List Effect :=
  let s := { s with call := none }
  if !s.closed && s.version != version && !s.waiting && r.lintable s.text then s.dispatch
  else (s.rest, [])

/-- What an answer to a call has published, before the call's last block. -/
def reported (r : Rules) (s : Scheduler) (call : Call) (report : Option Report) : List Effect :=
  if call.version = s.version then [.publish (outcome r call.text report)] else []

theorem answer_eq_finish {r : Rules} {s : Scheduler} {call : Call} (hcall : s.call = some call)
    (report : Option Report) : s.answer r report =
      ((s.finish r call.version).1, s.reported r call report ++ (s.finish r call.version).2) := by
  rw [answer, hcall]
  simp only [finish, reported]
  split <;> simp only [List.append_nil]

theorem finish_of_closed {r : Rules} {s : Scheduler} (hclosed : s.closed = true) (version : Nat) :
    s.finish r version = ({ s with call := none }.rest, []) := by
  simp only [finish, hclosed, Bool.not_true, Bool.false_and, Bool.false_eq_true, if_false]

end Scheduler

/-- A scheduler with the calls that it does not hold any more: those that run on, and those that are
cancelled and have not come to their last block. -/
structure Closing where
  scheduler : Scheduler
  astray : List Call := []
  ending : List Call := []

namespace Closing

open Scheduler (Effect outcome finish reported)

/-- What can happen. Closing begins with `close` and is over with `returned`; a cancelled call comes
to its last block with `ended`. -/
inductive Event where
  | edit (text : String)
  | quiet
  | answer (report : Option Report)
  | close
  | ended (place : Nat)
  | strayed (place : Nat) (report : Option Report)
  | returned

/-- The last block of a call that has lost its place: whichever call is there now loses it too. -/
def unseat (r : Rules) (c : Closing) (version : Nat) : Closing × List Effect :=
  ({ c with
      scheduler := (c.scheduler.finish r version).1
      astray := c.astray ++ c.scheduler.call.toList }, (c.scheduler.finish r version).2)

def within (c : Closing) (moved : Scheduler × List Effect) : Closing × List Effect :=
  ({ c with scheduler := moved.1 }, moved.2)

def step (r : Rules) (c : Closing) : Event → Closing × List Effect
  | .edit text => c.within (c.scheduler.edit r text)
  | .quiet => c.within c.scheduler.quiet
  | .answer report => c.within (c.scheduler.answer r report)
  | .close =>
    ({ c with
        scheduler := { c.scheduler with closed := true, waiting := false, call := none }
        ending := c.ending ++ c.scheduler.call.toList }, [])
  | .ended place =>
    match c.ending[place]? with
    | some call => { c with ending := c.ending.eraseIdx place }.unseat r call.version
    | none => (c, [])
  | .strayed place report =>
    match c.astray[place]? with
    | some call =>
      let left := { c with astray := c.astray.eraseIdx place }.unseat r call.version
      (left.1, c.scheduler.reported r call report ++ left.2)
    | none => (c, [])
  | .returned => c.within ({ c.scheduler with idle := true }, [])

def run (r : Rules) (c : Closing) : List Event → Closing × List Effect
  | [] => (c, [])
  | e :: rest => (((c.step r e).1.run r rest).1, (c.step r e).2 ++ ((c.step r e).1.run r rest).2)

theorem run_append (r : Rules) (c : Closing) (events events' : List Event) :
    c.run r (events ++ events') = (((c.run r events).1.run r events').1,
      (c.run r events).2 ++ ((c.run r events).1.run r events').2) := by
  induction events generalizing c with
  | nil => rfl
  | cons e rest ih => simp only [List.cons_append, run, ih, List.append_assoc]

/-! ### Closing at once -/

/-- How the events of a scheduler are spelled out. Nothing comes in between while it is closed. -/
def spelled : Scheduler.Event → List Event
  | .edit text => [.edit text]
  | .quiet => [.quiet]
  | .answer report => [.answer report]
  | .close => [.close, .ended 0, .returned]

theorem run_spelled_close (r : Rules) (s : Scheduler) :
    run r { scheduler := s } (spelled .close) = ({ scheduler := s.close }, []) := by
  cases hcall : s.call with
  | none => simp [spelled, run, step, within, hcall, Scheduler.close]
  | some call =>
    simp [spelled, run, step, within, unseat, hcall, Scheduler.finish_of_closed, Scheduler.rest,
      Scheduler.close]

theorem run_spelled (r : Rules) (s : Scheduler) (e : Scheduler.Event) :
    run r { scheduler := s } (spelled e) = ({ scheduler := (s.step r e).1 }, (s.step r e).2) := by
  cases e with
  | close => exact run_spelled_close r s
  | edit | quiet | answer => simp only [spelled, run, step, within, Scheduler.step, List.append_nil]

/-- A scheduler does what its spelled out events do. -/
theorem run_flatMap_spelled (r : Rules) (s : Scheduler) (events : List Scheduler.Event) :
    run r { scheduler := s } (events.flatMap spelled) =
      ({ scheduler := (Scheduler.run r s events).1 }, (Scheduler.run r s events).2) := by
  induction events generalizing s with
  | nil => rfl
  | cons e rest ih => rw [List.flatMap_cons, run_append, run_spelled, ih, Scheduler.run]

/-! ### What is owed to later edits -/

def Event.text? : Event → Option String
  | .edit text => some text
  | _ => none

/-- The call sends one of these texts, which came one by one after a version. -/
def OwedCall (version : Nat) (texts : List String) (call : Call) : Prop :=
  ∃ i, texts[i]? = some call.text ∧ call.version = version + i + 1

/-- The effect comes of one of these texts: it sends one, publishes what the linter found in one, or
publishes that one is too short. -/
inductive Owed (r : Rules) (version : Nat) (texts : List String) : Effect → Prop where
  | lint {call : Call} : OwedCall version texts call → Owed r version texts (.lint call)
  | found {call : Call} (report : Option Report) : OwedCall version texts call →
      Owed r version texts (.publish (outcome r call.text report))
  | short {text : String} : text ∈ texts → r.lintable text = false →
      Owed r version texts (.publish [])

variable {r : Rules} {version : Nat} {texts more : List String}

theorem OwedCall.append {call : Call} (h : OwedCall version texts call) (more : List String) :
    OwedCall version (texts ++ more) call := by
  obtain ⟨i, htext, hversion⟩ := h
  obtain ⟨hlt, -⟩ := List.getElem?_eq_some_iff.mp htext
  exact ⟨i, by rw [List.getElem?_append_left hlt, htext], hversion⟩

theorem Owed.append {e : Effect} (h : Owed r version texts e) (more : List String) :
    Owed r version (texts ++ more) e := by
  cases h with
  | lint hcall => exact .lint (hcall.append more)
  | found report hcall => exact .found report (hcall.append more)
  | short htext hshort => exact .short (List.mem_append_left _ htext) hshort

theorem Owed.ne_nil {e : Effect} (h : Owed r version texts e) : texts ≠ [] := by
  rintro rfl
  cases h with
  | lint hcall | found _ hcall =>
    obtain ⟨i, htext, -⟩ := hcall
    cases htext
  | short htext => cases htext

/-- Since the scheduler was closed, at a version, it got these texts, and every call that runs was
sent for one of them. -/
structure Since (version : Nat) (texts : List String) (c : Closing) : Prop where
  closed : c.scheduler.closed = true
  version_eq : c.scheduler.version = version + texts.length
  latest : c.scheduler.waiting = true → texts.getLast? = some c.scheduler.text
  call : ∀ call ∈ c.scheduler.call, OwedCall version texts call
  astray : ∀ call ∈ c.astray, OwedCall version texts call

theorem since_close (s : Scheduler) (r : Rules) :
    Since s.version [] (step r { scheduler := s } .close).1 where
  closed := rfl
  version_eq := rfl
  latest := nofun
  call := nofun
  astray := nofun

/-- A step that keeps the books and brings out nothing but what is owed to these texts. -/
structure Keeps (r : Rules) (version : Nat) (texts : List String) (done : Closing × List Effect) :
    Prop where
  since : Since version texts done.1
  owed : ∀ e ∈ done.2, Owed r version texts e

variable {c : Closing}

theorem Since.edit (h : Since version texts c) (text : String) :
    Keeps r version (texts ++ [text]) (c.step r (.edit text)) := by
  have hversion : c.scheduler.version + 1 = version + (texts ++ [text]).length := by
    rw [h.version_eq, List.length_append, List.length_singleton, Nat.add_assoc]
  have hcall := fun call hc => (h.call call hc).append [text]
  have hastray := fun call hc => (h.astray call hc).append [text]
  rw [step, within]
  cases hlong : r.lintable text with
  | true =>
    rw [Scheduler.edit_long hlong]
    exact ⟨⟨h.closed, hversion, fun _ => List.getLast?_concat, hcall, hastray⟩, nofun⟩
  | false =>
    rw [Scheduler.edit_short hlong]
    refine ⟨⟨?_, ?_, ?_, ?_, hastray⟩, ?_⟩
    · exact (Scheduler.rest_closed _).trans h.closed
    · exact (Scheduler.rest_version _).trans hversion
    · exact fun hwaiting => absurd ((Scheduler.rest_waiting _).symm.trans hwaiting) nofun
    · intro call hc
      rw [Scheduler.rest_call] at hc
      exact hcall call hc
    · intro e he
      obtain rfl := List.mem_singleton.mp he
      exact .short (List.mem_append_right _ List.mem_cons_self) hlong

/-- The latest text is one of the texts since, while a quiet period is running. -/
theorem Since.owedCall (h : Since version texts c) (hwaiting : c.scheduler.waiting = true) :
    OwedCall version texts ⟨c.scheduler.version, c.scheduler.text⟩ := by
  have hlast := h.latest hwaiting
  have hne : texts ≠ [] := by
    rintro rfl
    cases hlast
  refine ⟨texts.length - 1, (List.getLast?_eq_getElem? ▸ hlast), ?_⟩
  have hpos := List.length_pos_iff.mpr hne
  change c.scheduler.version = version + (texts.length - 1) + 1
  rw [h.version_eq]
  omega

theorem Since.quiet (h : Since version texts c) : Keeps r version texts (c.step r .quiet) := by
  rw [step, within]
  cases hwaiting : c.scheduler.waiting with
  | false =>
    rw [Scheduler.quiet_over hwaiting]
    exact ⟨h, nofun⟩
  | true =>
    cases hcall : c.scheduler.call with
    | some call =>
      rw [Scheduler.quiet_held hwaiting hcall]
      exact ⟨⟨h.closed, h.version_eq, nofun, h.call, h.astray⟩, nofun⟩
    | none =>
      rw [Scheduler.quiet_sent hwaiting hcall]
      have howed := h.owedCall hwaiting
      -- What is sent is the latest text, which came since closing or no quiet period would run.
      refine ⟨⟨h.closed, h.version_eq, nofun, ?_, h.astray⟩, ?_⟩
      · rintro call ⟨⟩
        exact howed
      · intro e he
        obtain rfl := List.mem_singleton.mp he
        exact .lint howed

/-- A call's last block sends nothing once the scheduler is closed. -/
theorem Since.finish (h : Since version texts c) (old : Nat) {astray : List Call}
    (ending : List Call) (hastray : ∀ call ∈ astray, OwedCall version texts call) :
    Keeps r version texts (⟨(c.scheduler.finish r old).1, astray, ending⟩,
      (c.scheduler.finish r old).2) := by
  rw [Scheduler.finish_of_closed h.closed]
  refine ⟨⟨?_, ?_, ?_, ?_, hastray⟩, nofun⟩
  · exact (Scheduler.rest_closed _).trans h.closed
  · exact (Scheduler.rest_version _).trans h.version_eq
  · intro hwaiting
    rw [Scheduler.rest_waiting] at hwaiting
    rw [Scheduler.rest_text]
    exact h.latest hwaiting
  · intro call hcall
    rw [Scheduler.rest_call] at hcall
    cases hcall

theorem owed_reported (s : Scheduler) {call : Call} (hcall : OwedCall version texts call)
    (report : Option Report) : ∀ e ∈ s.reported r call report, Owed r version texts e := by
  intro e he
  rw [Scheduler.reported] at he
  split at he
  · obtain rfl := List.mem_singleton.mp he
    exact .found report hcall
  · cases he

theorem Since.answer (h : Since version texts c) (report : Option Report) :
    Keeps r version texts (c.step r (.answer report)) := by
  rw [step, within]
  cases hcall : c.scheduler.call with
  | none =>
    rw [Scheduler.answer_none hcall]
    exact ⟨h, nofun⟩
  | some call =>
    obtain ⟨hsince, howed⟩ := h.finish (r := r) call.version c.ending h.astray
    rw [Scheduler.answer_eq_finish hcall]
    exact ⟨hsince, List.forall_mem_append.mpr ⟨owed_reported _ (h.call call hcall) report, howed⟩⟩

theorem Since.unseat (h : Since version texts c) (old : Nat) :
    Keeps r version texts (c.unseat r old) := by
  -- The call that loses its place was sent since closing too.
  refine h.finish old c.ending (List.forall_mem_append.mpr ⟨h.astray, fun call hcall => ?_⟩)
  exact h.call call (Option.mem_toList.mp hcall)

theorem Since.strayed (h : Since version texts c) (place : Nat) (report : Option Report) :
    Keeps r version texts (c.step r (.strayed place report)) := by
  rw [step]
  split
  case h_2 => exact ⟨h, nofun⟩
  case h_1 call hplace =>
    have hcall := h.astray call (List.mem_of_getElem? hplace)
    have hleft : Since version texts { c with astray := c.astray.eraseIdx place } :=
      ⟨h.closed, h.version_eq, h.latest, h.call, fun call hc =>
        h.astray call (List.mem_of_mem_eraseIdx hc)⟩
    obtain ⟨hsince, howed⟩ := hleft.unseat (r := r) call.version
    exact ⟨hsince, List.forall_mem_append.mpr ⟨owed_reported _ hcall report, howed⟩⟩

theorem Since.ended (h : Since version texts c) (place : Nat) :
    Keeps r version texts (c.step r (.ended place)) := by
  rw [step]
  split
  case h_2 => exact ⟨h, nofun⟩
  case h_1 call _ =>
    have hleft : Since version texts { c with ending := c.ending.eraseIdx place } :=
      ⟨h.closed, h.version_eq, h.latest, h.call, h.astray⟩
    exact hleft.unseat call.version

theorem Since.step (h : Since version texts c) (e : Event) :
    Keeps r version (texts ++ [e].filterMap Event.text?) (c.step r e) := by
  cases e with
  | edit text => exact h.edit text
  | quiet => exact (List.append_nil texts).symm ▸ h.quiet
  | answer report => exact (List.append_nil texts).symm ▸ h.answer report
  | ended place => exact (List.append_nil texts).symm ▸ h.ended place
  | strayed place report => exact (List.append_nil texts).symm ▸ h.strayed place report
  | close =>
    exact (List.append_nil texts).symm ▸ ⟨⟨rfl, h.version_eq, nofun, nofun, h.astray⟩, nofun⟩
  | returned =>
    exact (List.append_nil texts).symm ▸
      ⟨⟨h.closed, h.version_eq, h.latest, h.call, h.astray⟩, nofun⟩

theorem Since.run (h : Since version texts c) (later : List Event) :
    ∀ e ∈ (c.run r later).2, Owed r version (texts ++ later.filterMap Event.text?) e := by
  -- On the events; the texts so far are carried along.
  induction later generalizing texts c with
  | nil => exact nofun
  | cons e rest ih =>
    obtain ⟨hsince, howed⟩ := h.step (r := r) e
    have hsplit : texts ++ (e :: rest).filterMap Event.text? =
        texts ++ [e].filterMap Event.text? ++ rest.filterMap Event.text? := by
      rw [List.append_assoc, ← List.filterMap_append]
      rfl
    rw [hsplit, Closing.run]
    exact List.forall_mem_append.mpr ⟨fun x hx => (howed x hx).append _, ih hsince⟩

def laterTexts (later : List Scheduler.Event) : List String :=
  later.filterMap fun
    | .edit text => some text
    | _ => none

theorem laterTexts_eq (later : List Scheduler.Event) :
    (later.flatMap spelled).filterMap Event.text? = laterTexts later := by
  induction later with
  | nil => rfl
  | cons e rest ih =>
    rw [List.flatMap_cons, List.filterMap_append, ih]
    cases e <;> rfl

theorem eq_nil_of_owed {effects : List Effect} (h : ∀ e ∈ effects, Owed r version [] e) :
    effects = [] :=
  List.eq_nil_iff_forall_not_mem.mpr fun e he => (h e he).ne_nil rfl

/-- Once closing has begun, in whatever state, every effect is owed to an edit that came later,
whatever the order of the steps, so without one there is none. It is the same where closing is one
event. -/
theorem close_leaves_later_edits (r : Rules) (s : Scheduler) :
    (∀ later : List Event,
      let effects := ((step r { scheduler := s } .close).1.run r later).2
      (∀ e ∈ effects, Owed r s.version (later.filterMap Event.text?) e) ∧
        (later.filterMap Event.text? = [] → effects = [])) ∧
    ∀ later : List Scheduler.Event,
      let effects := (Scheduler.run r s.close later).2
      (∀ e ∈ effects, Owed r s.version (laterTexts later) e) ∧
        (laterTexts later = [] → effects = []) := by
  constructor
  · intro later effects
    have howed := (since_close s r).run (r := r) later
    rw [List.nil_append] at howed
    exact ⟨howed, fun hnone => eq_nil_of_owed (hnone ▸ howed)⟩
  · intro later effects
    have hclosed : Since s.version [] { scheduler := s.close } :=
      ⟨rfl, rfl, nofun, nofun, nofun⟩
    have howed := hclosed.run (r := r) (later.flatMap spelled)
    rw [List.nil_append, laterTexts_eq, run_flatMap_spelled] at howed
    exact ⟨howed, fun hnone => eq_nil_of_owed (hnone ▸ howed)⟩

/-- Closing is not the end of it: an edit that comes later still publishes. -/
theorem close_not_final :
    ¬ ∀ (r : Rules) (before later : List Scheduler.Event),
      (Scheduler.run r (Scheduler.run r {} before).1.close later).2 = [] := by
  intro h
  have heffects := h ⟨10, []⟩ [] [.edit ""]
  revert heffects
  decide

end Closing

end PolicyEditor.Lint
