import PolicyEditor.Lint.Scheduler

/-!
What an onlooker sees of a scheduler: the edits, the calls of the linter with their answers and the
published lists, in order. Which version is the latest, which calls are open and which versions were
published is read off this history alone, so it can be compared with what the scheduler keeps.
-/

namespace PolicyEditor.Lint.Scheduler

inductive Occurrence where
  | edited (text : String)
  | answered (call : Call) (report : Option Report)
  | published (diagnostics : List Diagnostic)
  | started (call : Call)
  deriving Repr

def Effect.occurrence : Effect → Occurrence
  | .publish diagnostics => .published diagnostics
  | .lint call => .started call

/-- What is seen of an event itself. The end of a quiet period shows only in what follows from it,
and an answer only if a call waits for it. -/
def cause (s : Scheduler) : Event → List Occurrence
  | .edit text => [.edited text]
  | .answer report => s.call.toList.map fun call => .answered call report
  | .quiet | .close => []

def occurrences (r : Rules) (s : Scheduler) (e : Event) : List Occurrence :=
  cause s e ++ (s.step r e).2.map Effect.occurrence

def history (r : Rules) (s : Scheduler) : List Event → List Occurrence
  | [] => []
  | e :: rest => occurrences r s e ++ history r (s.step r e).1 rest

namespace Occurrence

def effect? : Occurrence → Option Effect
  | .edited _ | .answered _ _ => none
  | .published diagnostics => some (.publish diagnostics)
  | .started call => some (.lint call)

def edited? : Occurrence → Option String
  | .edited text => some text
  | _ => none

def started? : Occurrence → Option Call
  | .started call => some call
  | _ => none

def published? : Occurrence → Option (List Diagnostic)
  | .published diagnostics => some diagnostics
  | _ => none

def openCalls (calls : List Call) : Occurrence → List Call
  | .started call => calls ++ [call]
  | .answered call _ => calls.erase call
  | _ => calls

end Occurrence

/-- A history shows all that a run does. -/
theorem history_effects (r : Rules) (s : Scheduler) (events : List Event) :
    (history r s events).filterMap Occurrence.effect? = (run r s events).2 := by
  induction events generalizing s with
  | nil => rfl
  | cons e rest ih =>
    have hcause : (cause s e).filterMap Occurrence.effect? = [] := by
      cases e with
      | answer report => cases hc : s.call <;> simp [cause, hc, Occurrence.effect?]
      | _ => rfl
    have heffects : ((s.step r e).2.map Effect.occurrence).filterMap Occurrence.effect? =
        (s.step r e).2 := by
      generalize (s.step r e).2 = effects
      induction effects with
      | nil => rfl
      | cons effect effects ihEffects =>
        cases effect <;> simp only [List.map_cons, Effect.occurrence, List.filterMap_cons,
          Occurrence.effect?, ihEffects]
    rw [history, occurrences, List.filterMap_append, List.filterMap_append, hcause, heffects, ih]
    rfl

theorem effects_no_edit (effects : List Effect) :
    (effects.map Effect.occurrence).filterMap Occurrence.edited? = [] := by
  rw [List.filterMap_map, List.filterMap_eq_nil_iff]
  intro effect _
  cases effect <;> rfl

theorem occurrences_no_edit (r : Rules) (s : Scheduler) {e : Event} (he : ∀ text, e ≠ .edit text) :
    (occurrences r s e).filterMap Occurrence.edited? = [] := by
  rw [occurrences, List.filterMap_append, effects_no_edit, List.append_nil]
  cases e with
  | edit text => exact absurd rfl (he text)
  | quiet => rfl
  | answer report => cases hc : s.call <;> simp only [cause, hc] <;> rfl
  | close => rfl

/-! ## What a history tells -/

def editCount (h : List Occurrence) : Nat :=
  (h.filterMap Occurrence.edited?).length

def latestText (h : List Occurrence) : String :=
  (h.filterMap Occurrence.edited?).getLastD ""

def startedCalls (h : List Occurrence) : List Call :=
  h.filterMap Occurrence.started?

def outstanding (h : List Occurrence) : List Call :=
  h.foldl Occurrence.openCalls []

def publishedLists (h : List Occurrence) : List (List Diagnostic) :=
  h.filterMap Occurrence.published?

/-- The versions that were the latest when lists were published, one for each list, given the
version before the first occurrence. -/
def publishedVersions (version : Nat) : List Occurrence → List Nat
  | [] => []
  | .edited _ :: rest => publishedVersions (version + 1) rest
  | .published _ :: rest => version :: publishedVersions version rest
  | _ :: rest => publishedVersions version rest

section

variable (h h' : List Occurrence)

@[simp] theorem editCount_append : editCount (h ++ h') = editCount h + editCount h' := by
  rw [editCount, List.filterMap_append, List.length_append]
  rfl

@[simp] theorem startedCalls_append :
    startedCalls (h ++ h') = startedCalls h ++ startedCalls h' :=
  List.filterMap_append

@[simp] theorem publishedLists_append :
    publishedLists (h ++ h') = publishedLists h ++ publishedLists h' :=
  List.filterMap_append

theorem outstanding_append : outstanding (h ++ h') = h'.foldl Occurrence.openCalls (outstanding h) :=
  List.foldl_append

theorem latestText_append_of_no_edit (hno : h'.filterMap Occurrence.edited? = []) :
    latestText (h ++ h') = latestText h := by
  rw [latestText, List.filterMap_append, hno, List.append_nil]
  rfl

theorem latestText_append_edited (text : String) (rest : List Occurrence)
    (hno : rest.filterMap Occurrence.edited? = []) :
    latestText (h ++ .edited text :: rest) = text := by
  rw [latestText, List.filterMap_append, List.filterMap_cons]
  simp only [Occurrence.edited?, hno, List.getLastD_concat]

theorem publishedVersions_append (version : Nat) :
    publishedVersions version (h ++ h') =
      publishedVersions version h ++ publishedVersions (version + editCount h) h' := by
  induction h generalizing version with
  | nil => rfl
  | cons x rest ih =>
    cases x with
    | edited text =>
      have hcount : editCount (.edited text :: rest) = editCount rest + 1 := rfl
      simp only [List.cons_append, publishedVersions, ih, hcount]
      rw [Nat.add_assoc, Nat.add_comm 1]
    | published diagnostics =>
      have hcount : editCount (.published diagnostics :: rest) = editCount rest := rfl
      simp only [List.cons_append, publishedVersions, ih, hcount]
    | answered call report =>
      have hcount : editCount (.answered call report :: rest) = editCount rest := rfl
      simp only [List.cons_append, publishedVersions, ih, hcount]
    | started call =>
      have hcount : editCount (.started call :: rest) = editCount rest := rfl
      simp only [List.cons_append, publishedVersions, ih, hcount]

end

def Throughout {α : Type} (P : List α → α → Prop) (l : List α) : Prop :=
  ∀ before x after, l = before ++ x :: after → P before x

theorem Throughout.nil {α : Type} {P : List α → α → Prop} : Throughout P [] := by
  intro before x after h
  exact absurd h.symm (List.append_ne_nil_of_right_ne_nil _ (List.cons_ne_nil _ _))

theorem Throughout.concat {α : Type} {P : List α → α → Prop} {l : List α} {y : α}
    (h : Throughout P l) (hy : P l y) : Throughout P (l ++ [y]) := by
  intro before x after heq
  -- What comes after is split at its end, where the new element stands.
  rcases List.eq_nil_or_concat after with rfl | ⟨rest, z, rfl⟩
  · obtain ⟨rfl, hx⟩ := List.append_inj' heq rfl
    obtain ⟨rfl⟩ := List.cons.inj hx
    exact hy
  · rw [List.concat_eq_append, ← List.cons_append, ← List.append_assoc] at heq
    obtain ⟨hl, -⟩ := List.append_inj' heq rfl
    exact h before x rest hl

theorem Throughout.pair {α : Type} {P : List α → α → Prop} {l : List α} {x y : α}
    (h : Throughout P l) (hx : P l x) (hy : P (l ++ [x]) y) : Throughout P (l ++ [x, y]) := by
  have hboth := (h.concat hx).concat hy
  rwa [List.append_assoc] at hboth

end PolicyEditor.Lint.Scheduler
