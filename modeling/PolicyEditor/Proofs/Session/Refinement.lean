import PolicyEditor.Session

/-!
What a session keeps agrees with what would be derived afresh. Its texts are those of the last
edits, its tree, if it has built one, is the tree of its policy, and its diagnostics are the list
that its linter published last. So every look at a session gives what the functions without a state
give on the latest texts, whatever was looked at before.
-/

namespace PolicyEditor

open PolicyEditor.Lint (Diagnostic Report Timeline)
open PolicyEditor.Lint.Scheduler (Effect)

namespace Session

/-- All that can be done with a session: edits, looks at what is derived from its texts, and what
time and the linter do. -/
inductive Action where
  | updatePolicy (text : String)
  | updateInput (text : Option String)
  | updateData (text : Option String)
  | tree
  | context
  | highlight
  | complete (offset : Int)
  | hover (offset : Int)
  | settle
  | elapse (ms : Int)
  | answer (call : Nat) (report : Option Report)
  | close

def act [Json.Nesting] (s : Session) : Action → Session × List Effect
  | .updatePolicy text => s.updatePolicy text
  | .updateInput text => (s.updateInput text, [])
  | .updateData text => (s.updateData text, [])
  | .tree => (s.tree.2, [])
  | .highlight => (s.highlight.2, [])
  | .complete offset => ((s.complete offset).2, [])
  | .context | .hover _ => (s, [])
  | .settle => s.settle
  | .elapse ms => s.elapse ms
  | .answer call report => (s.answer call report).1
  | .close => s.close

def run [Json.Nesting] (s : Session) : List Action → Session × List Effect
  | [] => (s, [])
  | a :: rest => (((s.act a).1.run rest).1, (s.act a).2 ++ ((s.act a).1.run rest).2)

/-! ### The latest texts -/

structure Texts where
  policy : String
  input : Option String
  data : Option String

def Action.policy? : Action → Option String
  | .updatePolicy text => some text
  | _ => none

def Action.input? : Action → Option (Option String)
  | .updateInput text => some text
  | _ => none

def Action.data? : Action → Option (Option String)
  | .updateData text => some text
  | _ => none

/-- The texts after some actions: of each kind the last one, or the one at the start. -/
def Texts.after (texts : Texts) (actions : List Action) : Texts where
  policy := (actions.filterMap Action.policy?).getLastD texts.policy
  input := (actions.filterMap Action.input?).getLastD texts.input
  data := (actions.filterMap Action.data?).getLastD texts.data

theorem Texts.after_cons (texts : Texts) (a : Action) (rest : List Action) :
    texts.after (a :: rest) = (texts.after [a]).after rest := by
  cases a <;> simp only [after, List.filterMap_cons, List.filterMap_nil, Action.policy?,
    Action.input?, Action.data?, List.getLastD_cons, List.getLastD_nil]

section

variable [Json.Nesting]

def Texts.context (texts : Texts) : Schema.Context :=
  .ofTexts texts.input texts.data

/-- The session keeps these texts, and nothing that does not belong to them. -/
structure Coherent (texts : Texts) (s : Session) : Prop where
  policy : s.policy = texts.policy
  context : s.context = texts.context
  built : ∀ t ∈ s.built, t = Grammar.parse texts.policy

theorem coherent_create (policy : String) (input data : Option String) (settings : Settings)
    (linted : Bool) :
    Coherent ⟨policy, input, data⟩ (create policy input data settings linted) where
  policy := rfl
  context := rfl
  built := nofun

variable {texts : Texts} {s : Session}

/-- What the linter does leaves the texts alone. -/
theorem Coherent.onTimeline (h : Coherent texts s) (move : Timeline → Timeline × List Effect) :
    Coherent texts (s.onTimeline move).1 := by
  rw [Session.onTimeline]
  split
  · exact ⟨h.policy, h.context, h.built⟩
  · exact h

theorem Coherent.answer (h : Coherent texts s) (call : Nat) (report : Option Report) :
    Coherent texts (s.answer call report).1.1 := by
  rw [Session.answer]
  split
  · exact ⟨h.policy, h.context, h.built⟩
  · exact h

/-- A look at the tree gives the tree of the latest policy, and keeps that tree at most. -/
theorem Coherent.tree (h : Coherent texts s) :
    s.tree.1 = Grammar.parse texts.policy ∧ Coherent texts s.tree.2 := by
  rw [Session.tree]
  split
  case h_1 t ht => exact ⟨h.built t ht, h⟩
  case h_2 =>
    have hparse : Grammar.parse s.policy = Grammar.parse texts.policy := by rw [h.policy]
    refine ⟨hparse, h.policy, h.context, ?_⟩
    rintro _ ⟨⟩
    exact hparse

theorem Coherent.act (h : Coherent texts s) (a : Action) :
    Coherent (texts.after [a]) (s.act a).1 := by
  cases a with
  | updatePolicy text =>
    have hedited : Coherent (texts.after [.updatePolicy text])
        { s with policy := text, version := s.version + 1, built := none } :=
      ⟨rfl, h.context, nofun⟩
    exact hedited.onTimeline _
  | updateInput text =>
    exact ⟨h.policy, by rw [Session.act, updateInput, h.context]; rfl, h.built⟩
  | updateData text =>
    exact ⟨h.policy, by rw [Session.act, updateData, h.context]; rfl, h.built⟩
  | tree | highlight | complete => exact h.tree.2
  | context | hover => exact h
  | settle | elapse | close => exact h.onTimeline _
  | answer call report => exact h.answer call report

theorem Coherent.run (h : Coherent texts s) (actions : List Action) :
    Coherent (texts.after actions) (s.run actions).1 := by
  induction actions generalizing texts s with
  | nil => exact h
  | cons a rest ih =>
    rw [Texts.after_cons]
    exact ih (h.act a)

end

/-! ### Versions and diagnostics -/

@[simp] theorem onTimeline_version (s : Session) (move : Timeline → Timeline × List Effect) :
    (s.onTimeline move).1.version = s.version := by
  rw [onTimeline]
  split <;> rfl

@[simp] theorem tree_version (s : Session) : s.tree.2.version = s.version := by
  rw [tree]
  split <;> rfl

theorem act_version [Json.Nesting] (s : Session) (a : Action) :
    (s.act a).1.version = s.version + ([a].filterMap Action.policy?).length := by
  cases a with
  | updatePolicy text => exact onTimeline_version _ _
  | updateInput | updateData | context | hover => rfl
  | tree | highlight | complete => exact tree_version s
  | settle | elapse | close => exact onTimeline_version s _
  | answer call report =>
    rw [act, answer]
    split <;> rfl

theorem run_version [Json.Nesting] (s : Session) (actions : List Action) :
    (s.run actions).1.version = s.version + (actions.filterMap Action.policy?).length := by
  induction actions generalizing s with
  | nil => rfl
  | cons a rest ih =>
    rw [run, ih, act_version, Nat.add_assoc, ← List.length_append, ← List.filterMap_append]
    rfl

def published (effects : List Effect) : List (List Diagnostic) :=
  effects.filterMap fun
    | .publish diagnostics => some diagnostics
    | .lint _ => none

theorem published_append (effects effects' : List Effect) :
    published (effects ++ effects') = published effects ++ published effects' :=
  List.filterMap_append

theorem lastPublished?_eq (effects : List Effect) :
    lastPublished? effects = (published effects).getLast? := by
  have hfrom : ∀ last : Option (List Diagnostic),
      effects.foldl (fun last e =>
        match e with
        | .publish diagnostics => some diagnostics
        | .lint _ => last) last = ((published effects).getLast?).or last := by
    induction effects with
    | nil => exact fun _ => rfl
    | cons e rest ih =>
      intro last
      cases e with
      | lint => exact ih last
      | publish diagnostics =>
        rw [List.foldl_cons, ih]
        change _ = ((diagnostics :: published rest).getLast?).or last
        rw [List.getLast?_cons]
        cases (published rest).getLast? <;> rfl
  exact (hfrom none).trans (Option.or_none)

def latest (before : List Diagnostic) (effects : List Effect) : List Diagnostic :=
  (published effects).getLast?.getD before

theorem latest_append (before : List Diagnostic) (effects effects' : List Effect) :
    latest before (effects ++ effects') = latest (latest before effects) effects' := by
  rw [latest, published_append, List.getLast?_append, Option.getD_or]
  rfl

@[simp] theorem follow_diagnostics (s : Session) (moved : Timeline × List Effect) :
    (s.follow moved).1.diagnostics = latest s.diagnostics moved.2 := by
  rw [follow, lastPublished?_eq, latest]

theorem onTimeline_diagnostics (s : Session) (move : Timeline → Timeline × List Effect) :
    (s.onTimeline move).1.diagnostics = latest s.diagnostics (s.onTimeline move).2 := by
  rw [onTimeline]
  split
  · exact follow_diagnostics s _
  · rfl

theorem act_diagnostics [Json.Nesting] (s : Session) (a : Action) :
    (s.act a).1.diagnostics = latest s.diagnostics (s.act a).2 := by
  cases a with
  | updatePolicy text => exact onTimeline_diagnostics _ _
  | updateInput | updateData | context | hover => rfl
  | tree | highlight | complete =>
    change s.tree.2.diagnostics = _
    rw [tree]
    split <;> rfl
  | settle | elapse | close => exact onTimeline_diagnostics s _
  | answer call report =>
    rw [act, answer]
    split
    · exact follow_diagnostics s _
    · rfl

theorem run_diagnostics [Json.Nesting] (s : Session) (actions : List Action) :
    (s.run actions).1.diagnostics = latest s.diagnostics (s.run actions).2 := by
  induction actions generalizing s with
  | nil => rfl
  | cons a rest ih => rw [run, ih, act_diagnostics, latest_append]

/-! ### The linter -/

/-- What an action does to a linter's timeline, without a session. -/
def Action.move (t : Timeline) : Action → Timeline × List Effect
  | .updatePolicy text => t.edit text
  | .settle => t.settle
  | .elapse ms => t.elapse ms
  | .answer call report => ((t.answer call report).1, (t.answer call report).2.1)
  | .close => t.close
  | _ => (t, [])

def linting (t : Timeline) : List Action → Timeline × List Effect
  | [] => (t, [])
  | a :: rest =>
    ((linting (a.move t).1 rest).1, (a.move t).2 ++ (linting (a.move t).1 rest).2)

theorem act_linted [Json.Nesting] {s : Session} {t : Timeline} (ht : s.timeline = some t)
    (a : Action) :
    (s.act a).1.timeline = some (a.move t).1 ∧ (s.act a).2 = (a.move t).2 := by
  have hon : ∀ (s : Session) (move : Timeline → Timeline × List Effect), s.timeline = some t →
      (s.onTimeline move).1.timeline = some (move t).1 ∧ (s.onTimeline move).2 = (move t).2 := by
    intro s move ht
    rw [onTimeline, ht]
    exact ⟨rfl, rfl⟩
  cases a with
  | updatePolicy text => exact hon _ _ ht
  | updateInput | updateData | context | hover => exact ⟨ht, rfl⟩
  | tree | highlight | complete =>
    refine ⟨?_, rfl⟩
    change s.tree.2.timeline = some t
    rw [tree]
    split <;> exact ht
  | settle | elapse | close => exact hon s _ ht
  | answer call report =>
    rw [act, answer, ht]
    exact ⟨rfl, rfl⟩

theorem run_linted [Json.Nesting] {s : Session} {t : Timeline} (ht : s.timeline = some t)
    (actions : List Action) : (s.run actions).1.timeline = some (linting t actions).1 ∧
      (s.run actions).2 = (linting t actions).2 := by
  induction actions generalizing s t with
  | nil => exact ⟨ht, rfl⟩
  | cons a rest ih =>
    obtain ⟨hnext, heffects⟩ := act_linted ht a
    obtain ⟨hlast, hmore⟩ := ih hnext
    exact ⟨hlast, by rw [run, linting, heffects, hmore]⟩

/-! ### Every look -/

variable [Json.Nesting] {texts : Texts} {s : Session}

/-- Each look at the session gives what the functions without a state give on these texts. -/
structure Shows (texts : Texts) (s : Session) : Prop where
  tree : s.tree.1 = Grammar.parse texts.policy
  context : s.context = .ofTexts texts.input texts.data
  highlight : s.highlight.1 = Highlight.spans (Grammar.parse texts.policy)
  complete : ∀ offset, (s.complete offset).1 = Completion.complete (Grammar.parse texts.policy)
    texts.policy.toList offset (.ofTexts texts.input texts.data)
  hover : ∀ offset,
    s.hover offset = Hover.at? texts.policy.toList offset (.ofTexts texts.input texts.data)

theorem Coherent.shows (h : Coherent texts s) : Shows texts s where
  tree := h.tree.1
  context := h.context
  highlight := congrArg Highlight.spans h.tree.1
  complete offset := by
    have hkept : (s.complete offset).1 = Completion.complete s.tree.1 s.tree.2.policy.toList offset
        s.tree.2.context := rfl
    rw [hkept, h.tree.1, h.tree.2.policy, h.tree.2.context, Texts.context]
  hover offset := by
    rw [Session.hover, h.policy, h.context, Texts.context]

/-- After any actions a session shows what belongs to its latest texts, has counted the edits of its
policy, and replaces one document without the other. With a linter its diagnostics are the list that
was published last, and the linter is driven by the edits of the policy alone. -/
theorem run_refines (policy : String) (input data : Option String) (settings : Settings)
    (linted : Bool) (actions : List Action) :
    let first := create policy input data settings linted
    let s := (first.run actions).1
    Shows (Texts.after ⟨policy, input, data⟩ actions) s ∧
      s.version = (actions.filterMap Action.policy?).length ∧
      (∀ text, (s.updateInput text).context.data = s.context.data ∧
        (s.updateData text).context.input = s.context.input) ∧
      s.diagnostics = latest [] (first.run actions).2 ∧
      (linted = true → (first.run actions).2 = (linting (timelineFor settings) actions).2) := by
  intro first s
  refine ⟨((coherent_create policy input data settings linted).run actions).shows, ?_,
    fun _ => ⟨rfl, rfl⟩, run_diagnostics first actions, ?_⟩
  · exact (run_version first actions).trans (Nat.zero_add _)
  · intro hlinted
    have htimeline : first.timeline = some (timelineFor settings) := if_pos hlinted
    exact (run_linted htimeline actions).2

end Session

end PolicyEditor
