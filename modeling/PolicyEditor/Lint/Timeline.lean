import PolicyEditor.Lint.Scheduler

/-!
A scheduler under a clock. Quiet periods end at a time; calls of the linter are numbered in the
order in which they start. Time passes only by `elapse`; a quiet period of no length ends when
`settle` is next asked for.
-/

namespace PolicyEditor.Lint

structure Timeline where
  rules : Rules
  /-- The length of a quiet period, in milliseconds. -/
  debounce : Int
  scheduler : Scheduler := {}
  /-- The time in milliseconds. -/
  now : Int := 0
  /-- When the last quiet period ends. -/
  due : Int := 0
  /-- How many calls have started. -/
  started : Nat := 0
  deriving DecidableEq, Repr

namespace Timeline

open Scheduler (Event Effect)

def callCount (effects : List Effect) : Nat :=
  effects.countP fun
    | .lint _ => true
    | .publish _ => false

def event (t : Timeline) (e : Event) : Timeline × List Effect :=
  let (s, effects) := t.scheduler.step t.rules e
  ({ t with scheduler := s, started := t.started + callCount effects }, effects)

def settle (t : Timeline) : Timeline × List Effect :=
  if t.scheduler.waiting && t.due ≤ t.now then t.event .quiet else (t, [])

def edit (t : Timeline) (text : String) : Timeline × List Effect :=
  { t with due := t.now + t.debounce }.event (.edit text)

def elapse (t : Timeline) (ms : Int) : Timeline × List Effect :=
  { t with now := t.now + ms }.settle

def openCall? (t : Timeline) : Option Nat :=
  t.scheduler.call.map fun _ => t.started - 1

/-- Answers a call. Nothing happens unless it is the one that waits for an answer. -/
def answer (t : Timeline) (call : Nat) (report : Option Report) :
    Timeline × List Effect × Bool :=
  if t.openCall? = some call then
    let (t, effects) := t.event (.answer report)
    (t, effects, true)
  else (t, [], false)

def close (t : Timeline) : Timeline × List Effect :=
  t.event .close

end Timeline

end PolicyEditor.Lint
