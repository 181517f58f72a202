import PolicyEditor.FrontEnd.Http
import PolicyEditor.FrontEnd.Tools
import PolicyEditor.Proofs.Lint.SingleEdit

/-!
The ways to lint a policy agree. A request, a tool and a scheduler each look at the length of the
text, ask the linter, leave out rules and answer for a failure by themselves; what they make of a
report is the same list.
-/

namespace PolicyEditor.FrontEnd

open PolicyEditor.Engine (Call Evaluator Failure Linter)
open PolicyEditor.Lint (Diagnostic Report Timeline)
open PolicyEditor.Lint.Scheduler (publishedLists startedCalls verdict)
open PolicyEditor.Validation

def diagnosticsMember? : Json → Option Json
  | .obj members => Json.find? "diagnostics" members
  | _ => none

def shown (ds : List Diagnostic) : Json :=
  .arr (ds.map Diagnostic.toJson)

def outcomeOf (linter : Linter) (policy : String) : Option Report :=
  (linter.lint policy).toOption

def expected (s : Settings) (linter : Linter) (policy : String) : List Diagnostic :=
  verdict s.lintRules (fun _ => outcomeOf linter policy) policy

def ready (s : Settings) (linter : Linter) (evaluator : Checked Evaluator) : Setup :=
  ⟨.valid s, .valid linter, evaluator⟩

def requested [Json.Nesting] (setup : Setup) (body : Option Json) : Except Fault Http.Response × List Call :=
  (Http.answer setup ⟨"POST", "/lint", body⟩).run setup.engines

def tooled [Json.Nesting] (setup : Setup) (s : Settings) (policy : String) : Except Fault Json × List Call :=
  (Tools.answer s (.lint policy)).run setup.engines

variable {s : Settings} {linter : Linter} {evaluator : Checked Evaluator} {policy : String}
  {body : Option Json}

theorem expected_short (hshort : s.lintRules.lintable policy = false) :
    expected s linter policy = [] :=
  Lint.Scheduler.verdict_short hshort

theorem expected_reported (hlong : s.lintRules.lintable policy = true) {report : Report}
    (hreport : linter.lint policy = .ok report) :
    expected s linter policy = diagnosticsOf s policy report := by
  rw [expected, Lint.Scheduler.verdict_long hlong, outcomeOf, hreport]
  rfl

theorem expected_failed {failure : Failure} (hfailure : linter.lint policy = .error failure) :
    expected s linter policy = [] := by
  by_cases hlong : s.lintRules.lintable policy = true
  · rw [expected, Lint.Scheduler.verdict_long hlong, outcomeOf, hfailure]
    rfl
  · exact expected_short (Bool.not_eq_true _ ▸ hlong)

/-! ## What each front end answers -/

def failureStatus : Failure → Nat
  | .notFound _ _ => 503
  | _ => 500

theorem failureStatus_ne (failure : Failure) : failureStatus failure ≠ 200 := by
  unfold failureStatus
  split <;> decide

section

variable [Json.Nesting]

theorem requested_eq (hbody : Http.readBody Http.policyField body = .valid policy) :
    requested (ready s linter evaluator) body =
      (Http.lintReply s policy).run (ready s linter evaluator).engines := by
  have hroute : Http.answer (ready s linter evaluator) ⟨"POST", "/lint", body⟩ =
      Http.withBody Http.policyField body (Http.lintReply s) := rfl
  rw [requested, hroute, Http.withBody, hbody]

theorem requested_short (hbody : Http.readBody Http.policyField body = .valid policy)
    (hshort : s.lintRules.lintable policy = false) :
    requested (ready s linter evaluator) body = (.ok ⟨200, .obj (lintMembers [] none)⟩, []) := by
  rw [requested_eq hbody, Http.lintReply, if_neg (by rw [hshort]; decide)]
  rfl

theorem requested_reported (hbody : Http.readBody Http.policyField body = .valid policy)
    (hlong : s.lintRules.lintable policy = true) {report : Report}
    (hreport : linter.lint policy = .ok report) :
    requested (ready s linter evaluator) body =
      (.ok ⟨200, .obj (lintMembers (diagnosticsOf s policy report) report.parseError)⟩,
        [.lint policy]) := by
  rw [requested_eq hbody, Http.lintReply, if_pos hlong, Engine.Work.run,
    show (ready s linter evaluator).engines.linter = linter from rfl, hreport]
  rfl

theorem requested_failed (hbody : Http.readBody Http.policyField body = .valid policy)
    (hlong : s.lintRules.lintable policy = true) {failure : Failure}
    (hfailure : linter.lint policy = .error failure) (hours : failure.isReported = true) :
    requested (ready s linter evaluator) body =
      (.ok ⟨failureStatus failure, .obj [("detail", .str failure.message)]⟩, [.lint policy]) := by
  rw [requested_eq hbody, Http.lintReply, if_pos hlong, Engine.Work.run,
    show (ready s linter evaluator).engines.linter = linter from rfl, hfailure]
  cases failure with
  | notFound | linter | evaluation => rfl
  | timeout | system | malformed | tooDeep => cases hours

theorem tooled_short (hshort : s.lintRules.lintable policy = false) :
    tooled (ready s linter evaluator) s policy = (.ok (.obj (lintMembers [] none)), []) := by
  rw [tooled, Tools.answer, Tools.lint, if_neg (by rw [hshort]; decide)]
  rfl

theorem tooled_reported (hlong : s.lintRules.lintable policy = true) {report : Report}
    (hreport : linter.lint policy = .ok report) :
    tooled (ready s linter evaluator) s policy =
      (.ok (.obj (lintMembers (diagnosticsOf s policy report) report.parseError)),
        [.lint policy]) := by
  rw [tooled, Tools.answer, Tools.lint, if_pos hlong, Engine.Work.run,
    show (ready s linter evaluator).engines.linter = linter from rfl, hreport]
  rfl

theorem tooled_failed (hlong : s.lintRules.lintable policy = true) {failure : Failure}
    (hfailure : linter.lint policy = .error failure) (hours : failure.isReported = true) :
    tooled (ready s linter evaluator) s policy =
      (.ok (.obj (lintMembers [] none ++ [("error", .str failure.message)])), [.lint policy]) := by
  rw [tooled, Tools.answer, Tools.lint, if_pos hlong, Engine.Work.run,
    show (ready s linter evaluator).engines.linter = linter from rfl, hfailure]
  simp only [hours, if_true]
  rfl

end

/-! ## All of them -/

def statusOf (s : Settings) (linter : Linter) (policy : String) : Nat :=
  match s.lintRules.lintable policy, linter.lint policy with
  | true, .error failure => failureStatus failure
  | _, _ => 200

/-- A request, a tool and a scheduler under the same settings have the same diagnostics for a
policy. -/
structure Agree (s : Settings) (linter : Linter) (policy : String)
    (request : Except Fault Http.Response × List Call) (tool : Except Fault Json × List Call)
    (ds : List Diagnostic) : Prop where
  -- The request is answered, with an error just where the linter is asked and fails.
  requested : ∃ response, request.1 = .ok response ∧
    (response.status = 200 → diagnosticsMember? response.body = some (shown ds)) ∧
    response.status = statusOf s linter policy
  -- The tool shows the list in any case.
  tooled : ∃ answer, tool.1 = .ok answer ∧ diagnosticsMember? answer = some (shown ds)
  -- A scheduler that is edited once can come to rest, and then the list is what it published last.
  settles : ∃ moves, Timeline.Settles s policy (outcomeOf linter policy) moves
  published : ∀ moves, Timeline.Settles s policy (outcomeOf linter policy) moves →
    (publishedLists (Timeline.singleEdit s policy moves)).getLast? = some ds
  failed : ∀ failure, linter.lint policy = .error failure → ds = []
  -- Nobody asks the linter about a text that is too short.
  short : s.lintRules.lintable policy = false → ds = [] ∧ request.2 = [] ∧ tool.2 = [] ∧
    ∀ moves : List Timeline.Move, (∀ m ∈ moves, m.Answers (outcomeOf linter policy)) →
      startedCalls (Timeline.singleEdit s policy moves) = []
  -- About any other text each asks once.
  long : s.lintRules.lintable policy = true →
    request.2 = [.lint policy] ∧ tool.2 = [.lint policy] ∧
      ∀ moves, Timeline.Settles s policy (outcomeOf linter policy) moves →
        (startedCalls (Timeline.singleEdit s policy moves)).map (·.text) = [policy]

theorem published_expected {moves : List Timeline.Move}
    (h : Timeline.Settles s policy (outcomeOf linter policy) moves) :
    publishedLists (Timeline.singleEdit s policy moves) = [expected s linter policy] :=
  ((Timeline.stage_singleEdit h.answers).at_rest h.idle).1

theorem started_long {report : Option Report} (hlong : s.lintRules.lintable policy = true)
    {moves : List Timeline.Move} (h : Timeline.Settles s policy report moves) :
    (startedCalls (Timeline.singleEdit s policy moves)).map (·.text) = [policy] := by
  rw [((Timeline.stage_singleEdit h.answers).at_rest h.idle).2, if_pos hlong]
  rfl

theorem started_short {report : Option Report} (hshort : s.lintRules.lintable policy = false)
    {moves : List Timeline.Move} (h : ∀ m ∈ moves, m.Answers report) :
    startedCalls (Timeline.singleEdit s policy moves) = [] := by
  rw [((Timeline.stage_singleEdit h).of_short hshort).1]
  rfl

section

variable [Json.Nesting]

theorem requested_shows (hbody : Http.readBody Http.policyField body = .valid policy)
    (hours : ∀ failure, linter.lint policy = .error failure → failure.isReported = true) :
    ∃ response, (requested (ready s linter evaluator) body).1 = .ok response ∧
      (response.status = 200 →
        diagnosticsMember? response.body = some (shown (expected s linter policy))) ∧
      response.status = statusOf s linter policy := by
  by_cases hlong : s.lintRules.lintable policy = true
  · cases houtcome : linter.lint policy with
    | ok report =>
      rw [requested_reported hbody hlong houtcome, expected_reported hlong houtcome, statusOf, hlong,
        houtcome]
      exact ⟨_, rfl, fun _ => rfl, rfl⟩
    | error failure =>
      rw [requested_failed hbody hlong houtcome (hours failure houtcome), statusOf, hlong, houtcome]
      exact ⟨_, rfl, fun h => absurd h (failureStatus_ne failure), rfl⟩
  · rw [Bool.not_eq_true] at hlong
    rw [requested_short hbody hlong, expected_short hlong, statusOf, hlong]
    exact ⟨_, rfl, fun _ => rfl, rfl⟩

theorem tooled_shows
    (hours : ∀ failure, linter.lint policy = .error failure → failure.isReported = true) :
    ∃ answer, (tooled (ready s linter evaluator) s policy).1 = .ok answer ∧
      diagnosticsMember? answer = some (shown (expected s linter policy)) := by
  by_cases hlong : s.lintRules.lintable policy = true
  · cases houtcome : linter.lint policy with
    | ok report =>
      rw [tooled_reported hlong houtcome, expected_reported hlong houtcome]
      exact ⟨_, rfl, rfl⟩
    | error failure =>
      rw [tooled_failed hlong houtcome (hours failure houtcome), expected_failed houtcome]
      exact ⟨_, rfl, rfl⟩
  · rw [Bool.not_eq_true] at hlong
    rw [tooled_short hlong, expected_short hlong]
    exact ⟨_, rfl, rfl⟩

/-- Both front ends ask the linter once about a text that is long enough. -/
theorem asked_once (hbody : Http.readBody Http.policyField body = .valid policy)
    (hours : ∀ failure, linter.lint policy = .error failure → failure.isReported = true)
    (hlong : s.lintRules.lintable policy = true) :
    (requested (ready s linter evaluator) body).2 = [.lint policy] ∧
      (tooled (ready s linter evaluator) s policy).2 = [.lint policy] := by
  cases houtcome : linter.lint policy with
  | ok report =>
    rw [requested_reported hbody hlong houtcome, tooled_reported hlong houtcome]
    exact ⟨rfl, rfl⟩
  | error failure =>
    have hreported := hours failure houtcome
    rw [requested_failed hbody hlong houtcome hreported, tooled_failed hlong houtcome hreported]
    exact ⟨rfl, rfl⟩

/-- Whatever the linter makes of a policy, the ways to lint it agree. -/
theorem lint_front_ends_agree (s : Settings) (linter : Linter) (evaluator : Checked Evaluator)
    (policy : String) (body : Option Json)
    (hbody : Http.readBody Http.policyField body = .valid policy)
    (hours : ∀ failure, linter.lint policy = .error failure → failure.isReported = true) :
    Agree s linter policy (requested (ready s linter evaluator) body)
      (tooled (ready s linter evaluator) s policy) (expected s linter policy) := by
  constructor
  case requested => exact requested_shows hbody hours
  case tooled => exact tooled_shows hours
  case settles => exact ⟨_, Timeline.settles s policy _⟩
  case published =>
    intro moves hmoves
    rw [published_expected hmoves]
    rfl
  case failed => exact fun failure hfailure => expected_failed hfailure
  case short =>
    intro hshort
    rw [requested_short hbody hshort, tooled_short hshort]
    exact ⟨expected_short hshort, rfl, rfl, fun moves hmoves => started_short hshort hmoves⟩
  case long =>
    intro hlong
    obtain ⟨hrequest, htool⟩ := @asked_once s linter evaluator policy body _ hbody hours hlong
    exact ⟨hrequest, htool, fun moves hmoves => started_long hlong hmoves⟩

end

section

open scoped Json.UsualNesting

def unable : Linter where
  lint _ := .error (.linter "unreadable rules")
  version? := none

theorem lint_front_ends_agree_unable :
    let body : Json := .obj [("policy", .str "package demo")]
    Http.readBody Http.policyField (some body) = .valid "package demo" ∧
      (∀ failure, unable.lint "package demo" = .error failure → failure.isReported = true) ∧
      Agree {} unable "package demo" (requested (ready {} unable (.invalid [])) (some body))
        (tooled (ready {} unable (.invalid [])) {} "package demo")
        (expected {} unable "package demo") := by
  intro body
  have hbody : Http.readBody Http.policyField (some body) = .valid "package demo" := rfl
  have hours : ∀ failure, unable.lint "package demo" = .error failure →
      failure.isReported = true := by
    rintro failure ⟨⟩
    rfl
  exact ⟨hbody, hours, lint_front_ends_agree {} unable (.invalid []) "package demo" (some body)
    hbody hours⟩

end

end PolicyEditor.FrontEnd
