import PolicyEditor.Proofs.Lint.Bookkeeping

/-!
What a scheduler publishes. Every list belongs to the version that is the latest when it is
published, and once the scheduler is at rest the last list is the one that the latest text should
have, whatever the order in which edits, timers and answers came.
-/

namespace PolicyEditor.Lint.Scheduler

/-- What may be published after the occurrences that end with its cause: nothing for a text that is
too short or that the linter failed on, else what the report for exactly the latest text comes to.
-/
inductive Entitled (r : Rules) : List Occurrence → List Diagnostic → Prop where
  | short (earlier : List Occurrence) (text : String) (hshort : r.lintable text = false) :
      Entitled r (earlier ++ [.edited text]) []
  | failed (earlier : List Occurrence) (call : Call) (hstarted : .started call ∈ earlier)
      (hversion : call.version = editCount earlier) (htext : call.text = latestText earlier) :
      Entitled r (earlier ++ [.answered call none]) []
  | reported (earlier : List Occurrence) (call : Call) (report : Report)
      (hstarted : .started call ∈ earlier) (hversion : call.version = editCount earlier)
      (htext : call.text = latestText earlier) :
      Entitled r (earlier ++ [.answered call (some report)])
        (diagnostics r.suppressed call.text.toList report.violations)

def PublishedWell (r : Rules) (before : List Occurrence) (x : Occurrence) : Prop :=
  ∀ ds, x = .published ds → Entitled r before ds

variable {r : Rules} {h new : List Occurrence} {s s' : Scheduler}

theorem mem_of_mem_startedCalls {call : Call} (hmem : call ∈ startedCalls h) :
    .started call ∈ h := by
  obtain ⟨x, hx, hcall⟩ := List.mem_filterMap.mp hmem
  cases x with
  | started c =>
    obtain rfl := Option.some.inj hcall
    exact hx
  | _ => exact nomatch hcall

theorem Books.entitled_of_fresh (hb : Books r h s) {call : Call} (hcall : s.call = some call)
    (hversion : call.version = s.version) (report : Option Report) :
    Entitled r (h ++ [.answered call report]) (outcome r call.text report) := by
  have hstarted := mem_of_mem_startedCalls (hb.calls.last call hcall).1
  have hcount : call.version = editCount h := hversion.trans hb.tracks.version.symm
  have htext : call.text = latestText h :=
    (hb.calls.latest call hcall hversion).1.trans hb.tracks.text.symm
  cases report with
  | none => exact .failed h call hstarted hcount htext
  | some report => exact .reported h call report hstarted hcount htext

theorem publishedWell_transition (hb : Books r h s) (ht : Transition r s new s')
    (hsofar : Throughout (PublishedWell r) h) : Throughout (PublishedWell r) (h ++ new) := by
  cases ht with
  | idle | held => rwa [List.append_nil]
  | typed | sent | dropped => exact hsofar.concat fun ds hx => nomatch hx
  | cleared text hshort =>
    refine hsofar.pair (fun ds hx => nomatch hx) fun ds hx => ?_
    obtain rfl := Occurrence.published.inj hx
    exact .short h text hshort
  | fresh call report hcall hversion =>
    refine hsofar.pair (fun ds hx => nomatch hx) fun ds hx => ?_
    obtain rfl := Occurrence.published.inj hx
    exact hb.entitled_of_fresh hcall hversion report
  | resent => exact hsofar.pair (fun ds hx => nomatch hx) fun ds hx => nomatch hx

/-- Published lists are never stale, and versions are published in order, none twice. -/
theorem publications_fresh (r : Rules) (events : List Event) (hopen : .close ∉ events) :
    let h := history r {} events
    (∀ before ds after, h = before ++ .published ds :: after → Entitled r before ds) ∧
    (publishedVersions 0 h).Pairwise fun v w => v < w := by
  have hrun := run_keeps (r := r) (s := {})
    (P := fun h s => Books r h s ∧ Throughout (PublishedWell r) h)
    (fun hP ht => ⟨hP.1.transition ht, publishedWell_transition hP.1 ht hP.2⟩)
    (h := []) ⟨books_start r, .nil⟩ rfl hopen
  obtain ⟨hbooks, hwell⟩ := hrun
  exact ⟨fun before ds after heq => hwell before _ after heq ds rfl, hbooks.lists.sorted⟩

/-- A call is overtaken twice before its answer comes: by a text that is too short and by a long
one. The next call fails. -/
def overtaken : List Event :=
  [.edit "package first", .quiet, .edit "short", .edit "package second", .quiet, .answer (some {}),
    .answer none]

theorem publications_fresh_overtaken :
    .close ∉ overtaken ∧
    (∀ before ds after, history ⟨10, []⟩ {} overtaken = before ++ .published ds :: after →
      Entitled ⟨10, []⟩ before ds) ∧
    (publishedVersions 0 (history ⟨10, []⟩ {} overtaken)).Pairwise fun v w => v < w := by
  have hopen : .close ∉ overtaken := by simp [overtaken]
  exact ⟨hopen, publications_fresh ⟨10, []⟩ overtaken hopen⟩

/-! ## At rest -/

def verdict (r : Rules) (lint : String → Option Report) (text : String) : List Diagnostic :=
  match r.lintable text, lint text with
  | true, some report => diagnostics r.suppressed text.toList report.violations
  | _, _ => []

/-- The linter's answers depend on the text alone. -/
def AnsweredBy (lint : String → Option Report) (h : List Occurrence) : Prop :=
  ∀ call report, .answered call report ∈ h → report = lint call.text

theorem verdict_short {lint : String → Option Report} {text : String}
    (hshort : r.lintable text = false) : verdict r lint text = [] := by
  rw [verdict, hshort]

theorem verdict_long {lint : String → Option Report} {text : String}
    (hlong : r.lintable text = true) : verdict r lint text = outcome r text (lint text) := by
  cases hl : lint text <;> simp only [verdict, hlong, hl, outcome]

theorem phase_eq_idle_iff (s : Scheduler) :
    s.phase = .idle ↔ s.waiting = false ∧ s.call = none := by
  cases hw : s.waiting <;> cases hc : s.call <;> simp [phase, hw, hc]

/-- The latest text has its diagnostics, or something is on its way that will give it them. -/
def Served (r : Rules) (lint : String → Option Report) (h : List Occurrence) (s : Scheduler) :
    Prop :=
  (publishedLists h).getLast? = some (verdict r lint s.text) ∨
    r.lintable s.text = true ∧ (s.waiting = true ∨ s.call.isSome = true)

section

variable {lint : String → Option Report}

theorem AnsweredBy.before (ha : AnsweredBy lint (h ++ new)) : AnsweredBy lint h :=
  fun call report hmem => ha call report (List.mem_append_left new hmem)

theorem getLast?_publishedLists_append {ds : List Diagnostic} (hnew : publishedLists new = [ds]) :
    (publishedLists (h ++ new)).getLast? = some ds := by
  rw [publishedLists_append, hnew, List.getLast?_concat]

theorem Served.kept (hserved : Served r lint h s) (hnew : publishedLists new = [])
    (htext : s'.text = s.text)
    (hwait : r.lintable s.text = true → s.waiting = true ∨ s.call.isSome = true →
      s'.waiting = true ∨ s'.call.isSome = true) : Served r lint (h ++ new) s' := by
  rw [Served, publishedLists_append, hnew, List.append_nil, htext]
  rcases hserved with hlast | ⟨hlong, hopen⟩
  · exact .inl hlast
  · exact .inr ⟨hlong, hwait hlong hopen⟩

theorem served_transition (hb : Books r h s) (ht : Transition r s new s')
    (hanswers : AnsweredBy lint (h ++ new)) (hserved : editCount h ≠ 0 → Served r lint h s)
    (hedited : editCount (h ++ new) ≠ 0) : Served r lint (h ++ new) s' := by
  cases ht with
  | idle =>
    rw [List.append_nil] at hedited ⊢
    exact hserved hedited
  | typed text hlong => exact .inr ⟨hlong, .inl rfl⟩
  | cleared text hshort =>
    refine .inl ?_
    rw [getLast?_publishedLists_append rfl, rest_text]
    exact congrArg some (verdict_short hshort).symm
  | held call hwaiting hcall =>
    have hold : editCount h ≠ 0 := by rwa [List.append_nil] at hedited
    refine (hserved hold).kept rfl rfl fun _ _ => .inr ?_
    change s.call.isSome = true
    rw [hcall]
    rfl
  | sent hwaiting hcall => exact .inr ⟨hb.tracks.waiting hwaiting, .inr rfl⟩
  -- The call was for the latest version, so the linter was asked about the latest text.
  | fresh call report hcall hversion =>
    obtain ⟨htext, hlong⟩ := hb.calls.latest call hcall hversion
    have hreport : report = lint call.text :=
      hanswers call report (List.mem_append_right h List.mem_cons_self)
    refine .inl ?_
    rw [getLast?_publishedLists_append rfl, rest_text]
    change some (outcome r call.text report) = some (verdict r lint s.text)
    rw [verdict_long hlong, hreport, htext]
  | resent call report hcall hversion hwaiting hlong => exact .inr ⟨hlong, .inr rfl⟩
  | dropped call report hcall hversion hkeep =>
    have hold : editCount h ≠ 0 := by rwa [editCount_append] at hedited
    refine (hserved hold).kept rfl (rest_text _) fun hlong _ => ?_
    rw [rest_waiting]
    rcases hkeep with hwaiting | hshort
    · exact .inl hwaiting
    · rw [hshort] at hlong
      exact absurd hlong Bool.false_ne_true

/-- No edit is lost: at rest the diagnostics are those of the latest text, whatever came before. -/
theorem last_published_at_rest (r : Rules) (lint : String → Option Report) (events : List Event)
    (hopen : .close ∉ events) (hanswers : AnsweredBy lint (history r {} events))
    (hedited : editCount (history r {} events) ≠ 0)
    (hrest : (run r {} events).1.phase = .idle) :
    (publishedLists (history r {} events)).getLast? =
      some (verdict r lint (latestText (history r {} events))) := by
  have hrun := run_keeps (r := r) (s := {})
    (P := fun h s => Books r h s ∧
      (AnsweredBy lint h → editCount h ≠ 0 → Served r lint h s))
    (fun hP ht => ⟨hP.1.transition ht, fun ha =>
      served_transition hP.1 ht ha (hP.2 ha.before)⟩)
    (h := []) ⟨books_start r, fun _ hcount => absurd rfl hcount⟩ rfl hopen
  rw [List.nil_append] at hrun
  obtain ⟨hbooks, hserved⟩ := hrun
  obtain ⟨hwaiting, hcall⟩ := (phase_eq_idle_iff _).mp hrest
  -- At rest nothing is on its way, so the latest text has its diagnostics already.
  rw [hbooks.tracks.text]
  rcases hserved hanswers hedited with hlast | ⟨-, hwait⟩
  · exact hlast
  · rw [hwaiting, hcall] at hwait
    simp only [Bool.false_eq_true, Option.isSome_none, or_self] at hwait

theorem last_published_at_rest_overtaken :
    let lint : String → Option Report := fun text =>
      if text = "package second" then none else some {}
    let h := history ⟨10, []⟩ {} overtaken
    .close ∉ overtaken ∧ AnsweredBy lint h ∧ editCount h ≠ 0 ∧
      (run ⟨10, []⟩ {} overtaken).1.phase = .idle ∧
      (publishedLists h).getLast? = some (verdict ⟨10, []⟩ lint (latestText h)) := by
  intro lint h
  have hopen : .close ∉ overtaken := by simp [overtaken]
  have hanswers : AnsweredBy lint h := by
    intro call report hmem
    have hh : h = [.edited "package first", .started ⟨1, "package first"⟩, .edited "short",
        .published [], .edited "package second", .answered ⟨1, "package first"⟩ (some {}),
        .started ⟨3, "package second"⟩, .answered ⟨3, "package second"⟩ none, .published []] := rfl
    rw [hh] at hmem
    simp only [List.mem_cons, reduceCtorEq, Occurrence.answered.injEq, false_or, or_false,
      List.not_mem_nil] at hmem
    rcases hmem with ⟨rfl, rfl⟩ | ⟨rfl, rfl⟩
    · exact (if_neg (by decide)).symm
    · exact (if_pos rfl).symm
  have hedited : editCount h ≠ 0 := by decide
  have hrest : (run ⟨10, []⟩ {} overtaken).1.phase = .idle := rfl
  exact ⟨hopen, hanswers, hedited, hrest,
    last_published_at_rest ⟨10, []⟩ lint overtaken hopen hanswers hedited hrest⟩

end

end PolicyEditor.Lint.Scheduler
