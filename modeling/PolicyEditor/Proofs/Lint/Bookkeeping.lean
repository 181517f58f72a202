import PolicyEditor.Proofs.Lint.Transition

/-!
A scheduler keeps true books: its version, text and call are those of the history, calls start in
the order of the versions, and so do publications.
-/

namespace PolicyEditor.Lint.Scheduler

variable {r : Rules} {h new : List Occurrence} {s s' : Scheduler}

theorem openCalls_answered (call : Call) (report : Option Report) :
    Occurrence.openCalls [call] (.answered call report) = [] :=
  List.erase_cons_head call []

structure Tracks (r : Rules) (h : List Occurrence) (s : Scheduler) : Prop where
  version : editCount h = s.version
  text : latestText h = s.text
  calls : outstanding h = s.call.toList
  -- Only a text that is long enough is waited for.
  waiting : s.waiting = true → r.lintable s.text = true

theorem tracks_start (r : Rules) : Tracks r [] {} :=
  ⟨rfl, rfl, rfl, fun hwaiting => absurd hwaiting Bool.false_ne_true⟩

theorem Tracks.transition (hs : Tracks r h s) (ht : Transition r s new s') :
    Tracks r (h ++ new) s' := by
  cases ht with
  | idle => simpa only [List.append_nil] using hs
  | typed text hlong =>
    refine ⟨?_, ?_, ?_, fun _ => hlong⟩
    · rw [editCount_append, hs.version]; rfl
    · rw [latestText_append_edited h text [] rfl]; rfl
    · rw [outstanding_append, hs.calls]; rfl
  | cleared text hshort =>
    refine ⟨?_, ?_, ?_, ?_⟩
    · rw [editCount_append, hs.version, rest_version]; rfl
    · rw [latestText_append_edited h text [.published []] rfl, rest_text]; rfl
    · rw [outstanding_append, hs.calls, rest_call]; rfl
    · rw [rest_waiting]
      exact fun hwaiting => absurd hwaiting Bool.false_ne_true
  | held call hwaiting hcall =>
    rw [List.append_nil]
    exact ⟨hs.version, hs.text, hs.calls, fun hw => absurd hw Bool.false_ne_true⟩
  | sent hwaiting hcall =>
    refine ⟨?_, ?_, ?_, fun hw => absurd hw Bool.false_ne_true⟩
    · rw [editCount_append, hs.version]; rfl
    · rw [latestText_append_of_no_edit h _ rfl, hs.text]
    · rw [outstanding_append, hs.calls, hcall]; rfl
  | fresh call report hcall hversion =>
    refine ⟨?_, ?_, ?_, ?_⟩
    · rw [editCount_append, hs.version, rest_version]; rfl
    · rw [latestText_append_of_no_edit h _ rfl, hs.text, rest_text]
    · rw [outstanding_append, hs.calls, hcall, rest_call]
      exact openCalls_answered call report
    · rw [rest_waiting, rest_text]
      exact hs.waiting
  | resent call report hcall hversion hwaiting hlong =>
    refine ⟨?_, ?_, ?_, fun _ => hlong⟩
    · rw [editCount_append, hs.version]; rfl
    · rw [latestText_append_of_no_edit h _ rfl, hs.text]
    · rw [outstanding_append, hs.calls, hcall]
      change Occurrence.openCalls [call] (.answered call report) ++ [_] = [_]
      rw [openCalls_answered, List.nil_append]
  | dropped call report hcall hversion hkeep =>
    refine ⟨?_, ?_, ?_, ?_⟩
    · rw [editCount_append, hs.version, rest_version]; rfl
    · rw [latestText_append_of_no_edit h _ rfl, hs.text, rest_text]
    · rw [outstanding_append, hs.calls, hcall, rest_call]
      exact openCalls_answered call report
    · rw [rest_waiting, rest_text]
      exact hs.waiting

/-- Calls carry the versions that they were started for, in order, none twice. -/
structure CallsInOrder (r : Rules) (h : List Occurrence) (s : Scheduler) : Prop where
  sorted : (startedCalls h).Pairwise fun c d => c.version < d.version
  le : ∀ c ∈ startedCalls h, c.version ≤ s.version
  -- The version that is waited for has not been sent.
  waiting : s.waiting = true → ∀ c ∈ startedCalls h, c.version < s.version
  -- The open call is the last one.
  last : ∀ call, s.call = some call →
    call ∈ startedCalls h ∧ ∀ c ∈ startedCalls h, c.version ≤ call.version
  -- An open call for the latest version has the latest text.
  latest : ∀ call, s.call = some call → call.version = s.version →
    call.text = s.text ∧ r.lintable s.text = true

theorem callsInOrder_start (r : Rules) : CallsInOrder r [] {} where
  sorted := List.Pairwise.nil
  le _ hc := absurd hc List.not_mem_nil
  waiting _ _ hc := absurd hc List.not_mem_nil
  last _ hcall := nomatch hcall
  latest _ hcall := nomatch hcall

/-- Nothing is started: the version may grow, and the open call may be answered. -/
theorem CallsInOrder.kept (hc : CallsInOrder r h s) (hnew : startedCalls new = [])
    (hversion : s.version ≤ s'.version)
    (hwaiting : s'.waiting = true → s.waiting = true ∨ s.version < s'.version)
    (hcall : ∀ call, s'.call = some call →
      s.call = some call ∧ (s'.version = s.version → s'.text = s.text)) :
    CallsInOrder r (h ++ new) s' := by
  have hstarted : startedCalls (h ++ new) = startedCalls h := by
    rw [startedCalls_append, hnew, List.append_nil]
  refine ⟨?_, ?_, ?_, ?_, ?_⟩
  · rw [hstarted]
    exact hc.sorted
  · rw [hstarted]
    exact fun c hmem => Nat.le_trans (hc.le c hmem) hversion
  · rw [hstarted]
    intro hw c hmem
    rcases hwaiting hw with hw | hlt
    · exact Nat.lt_of_lt_of_le (hc.waiting hw c hmem) hversion
    · exact Nat.lt_of_le_of_lt (hc.le c hmem) hlt
  · rw [hstarted]
    exact fun call hopen => hc.last call (hcall call hopen).1
  · intro call hopen heq
    obtain ⟨hold, htext⟩ := hcall call hopen
    have hle := hc.le call (hc.last call hold).1
    have hsame : s'.version = s.version := by omega
    obtain ⟨hlatest, hlong⟩ := hc.latest call hold (heq.trans hsame)
    rw [htext hsame]
    exact ⟨hlatest, hlong⟩

/-- The latest text is sent for the first time. -/
theorem CallsInOrder.started (hc : CallsInOrder r h s)
    (hnew : startedCalls new = [⟨s.version, s.text⟩])
    (hbefore : ∀ c ∈ startedCalls h, c.version < s.version) (hlong : r.lintable s.text = true)
    (hversion : s'.version = s.version) (htext : s'.text = s.text) (hwaiting : s'.waiting = false)
    (hcall : s'.call = some ⟨s.version, s.text⟩) : CallsInOrder r (h ++ new) s' := by
  have hstarted : startedCalls (h ++ new) = startedCalls h ++ [⟨s.version, s.text⟩] := by
    rw [startedCalls_append, hnew]
  have hle : ∀ c ∈ startedCalls (h ++ new), c.version ≤ s.version := by
    rw [hstarted]
    intro c hmem
    rcases List.mem_append.mp hmem with hmem | hmem
    · exact Nat.le_of_lt (hbefore c hmem)
    · have hlast : c = ⟨s.version, s.text⟩ := List.mem_singleton.mp hmem
      exact Nat.le_of_eq (congrArg Call.version hlast)
  refine ⟨?_, ?_, ?_, ?_, ?_⟩
  · rw [hstarted, List.pairwise_append]
    refine ⟨hc.sorted, List.pairwise_singleton _ _, fun c hmem d hd => ?_⟩
    rw [List.mem_singleton.mp hd]
    exact hbefore c hmem
  · rw [hversion]
    exact hle
  · intro hw
    rw [hwaiting] at hw
    exact absurd hw Bool.false_ne_true
  · intro call hopen
    obtain rfl := Option.some.inj (hcall.symm.trans hopen)
    refine ⟨?_, hle⟩
    rw [hstarted]
    exact List.mem_append_right _ List.mem_cons_self
  · intro call hopen _
    obtain rfl := Option.some.inj (hcall.symm.trans hopen)
    rw [htext]
    exact ⟨rfl, hlong⟩

theorem CallsInOrder.transition (hc : CallsInOrder r h s) (hs : Tracks r h s)
    (ht : Transition r s new s') : CallsInOrder r (h ++ new) s' := by
  cases ht with
  | idle => simpa only [List.append_nil] using hc
  | typed text hlong =>
    exact hc.kept rfl (Nat.le_succ _) (fun _ => .inr (Nat.lt_succ_self _)) fun call hcall =>
      ⟨hcall, fun heq => absurd heq (Nat.succ_ne_self _)⟩
  | cleared text hshort =>
    refine hc.kept rfl ?_ ?_ fun call hcall => ⟨?_, ?_⟩
    · rw [rest_version]; exact Nat.le_succ _
    · rw [rest_version]; exact fun _ => .inr (Nat.lt_succ_self _)
    · rwa [rest_call] at hcall
    · rw [rest_version]; exact fun heq => absurd heq (Nat.succ_ne_self _)
  | held call hwaiting hcall =>
    exact hc.kept rfl (Nat.le_refl _) (fun _ => .inl hwaiting) fun _ hopen => ⟨hopen, fun _ => rfl⟩
  | sent hwaiting hcall =>
    exact hc.started rfl (hc.waiting hwaiting) (hs.waiting hwaiting) rfl rfl rfl rfl
  | fresh call report hcall hversion =>
    refine hc.kept rfl ?_ ?_ ?_
    · exact Nat.le_of_eq (rest_version { s with call := none }).symm
    · rw [rest_waiting]; exact .inl
    · rw [rest_call]; exact fun _ hopen => nomatch hopen
  -- The call that is answered was the last one and for an earlier version.
  | resent call report hcall hversion hwaiting hlong =>
    obtain ⟨hmem, hlast⟩ := hc.last call hcall
    have hold : call.version < s.version := Nat.lt_of_le_of_ne (hc.le call hmem) hversion
    exact hc.started rfl (fun c hmem => Nat.lt_of_le_of_lt (hlast c hmem) hold) hlong rfl rfl
      hwaiting rfl
  | dropped call report hcall hversion hkeep =>
    refine hc.kept rfl ?_ ?_ ?_
    · exact Nat.le_of_eq (rest_version { s with call := none }).symm
    · rw [rest_waiting]; exact .inl
    · rw [rest_call]; exact fun _ hopen => nomatch hopen

structure ListsInOrder (r : Rules) (h : List Occurrence) (s : Scheduler) : Prop where
  sorted : (publishedVersions 0 h).Pairwise fun v w => v < w
  le : ∀ v ∈ publishedVersions 0 h, v ≤ s.version
  -- While something is still to come for the latest text, it has not been published.
  pending : r.lintable s.text = true → s.waiting = true ∨ s.call.isSome = true →
    ∀ v ∈ publishedVersions 0 h, v < s.version

theorem listsInOrder_start (r : Rules) : ListsInOrder r [] {} where
  sorted := List.Pairwise.nil
  le _ hv := absurd hv List.not_mem_nil
  pending _ _ _ hv := absurd hv List.not_mem_nil

/-- Nothing is published: the version may grow. -/
theorem ListsInOrder.kept (hl : ListsInOrder r h s) (hnew : publishedVersions (editCount h) new = [])
    (hversion : s.version ≤ s'.version)
    (hpending : r.lintable s'.text = true → s'.waiting = true ∨ s'.call.isSome = true →
      s.version < s'.version ∨
        r.lintable s.text = true ∧ (s.waiting = true ∨ s.call.isSome = true)) :
    ListsInOrder r (h ++ new) s' := by
  have hpublished : publishedVersions 0 (h ++ new) = publishedVersions 0 h := by
    rw [publishedVersions_append, Nat.zero_add, hnew, List.append_nil]
  refine ⟨?_, ?_, ?_⟩
  · rw [hpublished]
    exact hl.sorted
  · rw [hpublished]
    exact fun v hv => Nat.le_trans (hl.le v hv) hversion
  · rw [hpublished]
    intro hlong hwait v hv
    rcases hpending hlong hwait with hlt | ⟨hlong, hwait⟩
    · exact Nat.lt_of_le_of_lt (hl.le v hv) hlt
    · exact Nat.lt_of_lt_of_le (hl.pending hlong hwait v hv) hversion

/-- The latest version is published for the first time, and nothing more is to come for it. -/
theorem ListsInOrder.published (hl : ListsInOrder r h s)
    (hnew : publishedVersions (editCount h) new = [s'.version])
    (hbefore : ∀ v ∈ publishedVersions 0 h, v < s'.version)
    (hdone : r.lintable s'.text = false ∨ s'.waiting = false ∧ s'.call = none) :
    ListsInOrder r (h ++ new) s' := by
  have hpublished : publishedVersions 0 (h ++ new) = publishedVersions 0 h ++ [s'.version] := by
    rw [publishedVersions_append, Nat.zero_add, hnew]
  refine ⟨?_, ?_, ?_⟩
  · rw [hpublished, List.pairwise_append]
    refine ⟨hl.sorted, List.pairwise_singleton _ _, fun v hv w hw => ?_⟩
    rw [List.mem_singleton.mp hw]
    exact hbefore v hv
  · rw [hpublished]
    intro v hv
    rcases List.mem_append.mp hv with hv | hv
    · exact Nat.le_of_lt (hbefore v hv)
    · exact Nat.le_of_eq (List.mem_singleton.mp hv)
  · intro hlong hwait
    rcases hdone with hshort | ⟨hwaiting, hcall⟩
    · rw [hshort] at hlong
      exact absurd hlong Bool.false_ne_true
    · rw [hwaiting, hcall] at hwait
      simp only [Bool.false_eq_true, Option.isSome_none, or_self] at hwait

theorem ListsInOrder.transition (hl : ListsInOrder r h s) (hs : Tracks r h s)
    (hc : CallsInOrder r h s) (ht : Transition r s new s') : ListsInOrder r (h ++ new) s' := by
  cases ht with
  | idle => simpa only [List.append_nil] using hl
  | typed text hlong =>
    exact hl.kept rfl (Nat.le_succ _) fun _ _ => .inl (Nat.lt_succ_self _)
  | cleared text hshort =>
    refine hl.published ?_ ?_ (.inl ?_)
    · rw [rest_version, hs.version]; rfl
    · rw [rest_version]; exact fun v hv => Nat.lt_succ_of_le (hl.le v hv)
    · rw [rest_text]; exact hshort
  | held call hwaiting hcall =>
    exact hl.kept rfl (Nat.le_refl _) fun hlong _ => .inr ⟨hlong, .inl hwaiting⟩
  | sent hwaiting hcall =>
    exact hl.kept rfl (Nat.le_refl _) fun hlong _ => .inr ⟨hlong, .inl hwaiting⟩
  | fresh call report hcall hversion =>
    have hopen : s.call.isSome = true := by rw [hcall]; rfl
    have hsent := (hc.last call hcall).1
    have hlong := (hc.latest call hcall hversion).2
    -- What is waited for has not been sent, but this version has.
    have hwaiting : s.waiting = false := by
      cases hw : s.waiting with
      | false => rfl
      | true =>
        have hlt := hc.waiting hw call hsent
        omega
    refine hl.published ?_ ?_ (.inr ⟨?_, ?_⟩)
    · rw [rest_version, hs.version]; rfl
    · rw [rest_version]; exact hl.pending hlong (.inr hopen)
    · rw [rest_waiting]; exact hwaiting
    · rw [rest_call]
  | resent call report hcall hversion hwaiting hlong =>
    have hopen : s.call.isSome = true := by rw [hcall]; rfl
    exact hl.kept rfl (Nat.le_refl _) fun _ _ => .inr ⟨hlong, .inr hopen⟩
  | dropped call report hcall hversion hkeep =>
    refine hl.kept rfl ?_ ?_
    · exact Nat.le_of_eq (rest_version { s with call := none }).symm
    · rw [rest_text, rest_waiting, rest_call]
      intro hlong hwait
      rcases hwait with hwait | hwait
      · exact .inr ⟨hlong, .inl hwait⟩
      · exact absurd hwait Bool.false_ne_true

structure Books (r : Rules) (h : List Occurrence) (s : Scheduler) : Prop where
  tracks : Tracks r h s
  calls : CallsInOrder r h s
  lists : ListsInOrder r h s

theorem books_start (r : Rules) : Books r [] {} :=
  ⟨tracks_start r, callsInOrder_start r, listsInOrder_start r⟩

theorem Books.transition (hb : Books r h s) (ht : Transition r s new s') :
    Books r (h ++ new) s' :=
  ⟨hb.tracks.transition ht, hb.calls.transition hb.tracks ht,
    hb.lists.transition hb.tracks hb.calls ht⟩

end PolicyEditor.Lint.Scheduler
