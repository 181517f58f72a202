import PolicyEditor.Lint.Diagnostic

/-!
Linting in the background. Every edit begins a new version; after a quiet period the latest text is
sent to the linter, at most one call at a time. What a call gives is published only if no edit came
in the meantime; otherwise the latest text is linted instead.

The scheduler is a state that events change. It does not know the time: that the quiet period is
over is an event as well.

Waiters wait until it is at rest. A waiter looks at the phase, and while the scheduler is not idle it
asks the scheduler's flag: one that is down puts the waiter to sleep, one that is up lets it look
again at once. Raising the flag wakes all who sleep; each of them goes on with another look, and
something else may happen before it does.
-/

namespace PolicyEditor.Lint

open PolicyEditor.Validation

/-- What a scheduler is set up with. Texts that have fewer than `minLength` characters between their
outer blanks are not linted. -/
structure Rules where
  minLength : Int
  suppressed : List String
  deriving DecidableEq, Repr

def Rules.lintable (r : Rules) (text : String) : Bool :=
  r.minLength ≤ ((Text.strip text.toList).length : Int)

structure Call where
  version : Nat
  text : String
  deriving DecidableEq, Repr

structure Scheduler where
  version : Nat := 0
  text : String := ""
  /-- A quiet period is running. -/
  waiting : Bool := false
  /-- The call that is not answered yet. -/
  call : Option Call := none
  /-- What those who wait for the scheduler to come to rest look at. -/
  idle : Bool := true
  closed : Bool := false
  deriving DecidableEq, Repr

namespace Scheduler

/-- What can happen to a scheduler. A call that fails answers with nothing. -/
inductive Event where
  | edit (text : String)
  | quiet
  | answer (report : Option Report)
  | close
  deriving Repr

inductive Effect where
  | publish (diagnostics : List Diagnostic)
  | lint (call : Call)
  deriving DecidableEq, Repr

inductive Phase where
  | idle | pending | inFlight
  deriving DecidableEq, Repr

def Phase.name : Phase → String
  | .idle => "idle"
  | .pending => "pending"
  | .inFlight => "in_flight"

/-- A call goes before a quiet period. -/
def phase (s : Scheduler) : Phase :=
  if s.call.isSome then .inFlight else if s.waiting then .pending else .idle

/-- Those who wait are released once neither a quiet period nor a call is left. -/
def rest (s : Scheduler) : Scheduler :=
  if s.waiting || s.call.isSome then s else { s with idle := true }

def dispatch (s : Scheduler) : Scheduler × List Effect :=
  let call : Call := ⟨s.version, s.text⟩
  ({ s with call := some call, idle := false }, [.lint call])

/-- A new text begins a quiet period. One that is too short has no diagnostics, and makes the call
under way worthless. -/
def edit (r : Rules) (s : Scheduler) (text : String) : Scheduler × List Effect :=
  let s := { s with version := s.version + 1, text := text, waiting := false }
  if r.lintable text then ({ s with waiting := true, idle := false }, [])
  else (s.rest, [.publish []])

/-- The end of a quiet period. A call that is under way sends the latest text itself when it is
done. -/
def quiet (s : Scheduler) : Scheduler × List Effect :=
  if s.waiting then
    let s := { s with waiting := false }
    -- A call under way looks at the version itself when it is answered.
    if s.call.isSome then (s, []) else s.dispatch
  else (s, [])

def outcome (r : Rules) (text : String) : Option Report → List Diagnostic
  | some report => diagnostics r.suppressed text.toList report.violations
  | none => []

/-- The answer to a call is published if its version is the latest. If it is not, and no quiet
period is running, the latest text is sent. -/
def answer (r : Rules) (s : Scheduler) (report : Option Report) : Scheduler × List Effect :=
  match s.call with
  | none => (s, [])
  | some call =>
    let published :=
      if call.version = s.version then [Effect.publish (outcome r call.text report)] else []
    let s := { s with call := none }
    -- The text has moved on and nothing else is going to send it.
    if !s.closed && s.version != call.version && !s.waiting && r.lintable s.text then
      let (s, effects) := s.dispatch
      (s, published ++ effects)
    else (s.rest, published)

def close (s : Scheduler) : Scheduler :=
  { s with closed := true, waiting := false, call := none, idle := true }

def step (r : Rules) (s : Scheduler) : Event → Scheduler × List Effect
  | .edit text => s.edit r text
  | .quiet => s.quiet
  | .answer report => s.answer r report
  | .close => (s.close, [])

def run (r : Rules) (s : Scheduler) : List Event → Scheduler × List Effect
  | [] => (s, [])
  | e :: rest =>
    let (s, first) := s.step r e
    let (s, more) := run r s rest
    (s, first ++ more)

end Scheduler

/-- What a waiter does that looks at a scheduler. One that spins looks again and again and lets
nothing else happen. -/
inductive Look where
  | returns | sleeps | spins
  deriving DecidableEq, Repr

def Scheduler.look (s : Scheduler) : Look :=
  if s.phase = .idle then .returns else if s.idle then .spins else .sleeps

/-- A scheduler with its waiters: those who sleep, and those who were woken and have not gone on. -/
structure Waiters where
  scheduler : Scheduler := {}
  asleep : List Nat := []
  woken : List Nat := []
  deriving DecidableEq, Repr

namespace Waiters

/-- What can happen: an event of the scheduler, a waiter who comes, or one who was woken and goes
on. -/
inductive Move where
  | happens (e : Scheduler.Event)
  | comes (waiter : Nat)
  | goesOn (waiter : Nat)
  deriving Repr

inductive Fate where
  | returned (waiter : Nat)
  | stuck (waiter : Nat)
  deriving DecidableEq, Repr

def look (w : Waiters) (waiter : Nat) : Waiters × List Fate :=
  match w.scheduler.look with
  | .returns => (w, [.returned waiter])
  | .sleeps => ({ w with asleep := w.asleep ++ [waiter] }, [])
  | .spins => (w, [.stuck waiter])

/-- The waiters when the scheduler has moved on. Its flag is raised or lowered at most once in an
event, so that they wake if it is up afterwards. -/
def follow (w : Waiters) (s : Scheduler) : Waiters :=
  if s.idle then { scheduler := s, asleep := [], woken := w.woken ++ w.asleep }
  else { w with scheduler := s }

def step (r : Rules) (w : Waiters) : Move → Waiters × List Fate
  | .happens e => (w.follow (w.scheduler.step r e).1, [])
  | .comes waiter => w.look waiter
  | .goesOn waiter =>
    if waiter ∈ w.woken then { w with woken := w.woken.erase waiter }.look waiter else (w, [])

def run (r : Rules) (w : Waiters) : List Move → Waiters
  | [] => w
  | m :: rest => (w.step r m).1.run r rest

end Waiters

end PolicyEditor.Lint
