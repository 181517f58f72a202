import PolicyEditor.File.Directory

/-!
Watching files. Changes come in batches; of each batch the policies and documents are reported, and
a batch without any is passed over.
-/

namespace PolicyEditor.Watcher

def suffixes : List String := [".rego", ".json", ".jsonc"]

def isWatched (p : File.Path) : Bool :=
  suffixes.contains p.suffix

def changedIn (batch : List File.Path) : List File.Path :=
  (batch.filter isWatched).eraseDups

def reports (batches : List (List File.Path)) : List (List File.Path) :=
  (batches.map changedIn).filter fun changed => !changed.isEmpty

/-- Watches nothing, or has batches that are not reported yet. -/
inductive State where
  | stopped
  | watching (pending : List (List File.Path))
  deriving DecidableEq, Repr

inductive Step where
  | start | wait | stop
  deriving DecidableEq, Repr

/-- One step of a watcher for which these batches come after every start, and what it reports. A
watcher that watches is not started again, and one that is stopped forgets what is pending. -/
def State.step (batches : List (List File.Path)) : State → Step → State × List (List File.Path)
  | .stopped, .start => (.watching batches, [])
  | .stopped, _ => (.stopped, [])
  | .watching pending, .start => (.watching pending, [])
  | .watching pending, .wait => (.watching [], reports pending)
  | .watching _, .stop => (.stopped, [])

def State.run (batches : List (List File.Path)) : State → List Step → List (List File.Path)
  | _, [] => []
  | s, step :: rest =>
    let (s, reported) := s.step batches step
    reported ++ s.run batches rest

/-- What a watcher of some paths reports; there is none without a path. -/
def run? (watched : List File.Path) (batches : List (List File.Path)) (steps : List Step) :
    Option (List (List File.Path)) :=
  if watched.isEmpty then none else some (State.stopped.run batches steps)

def sortedTexts (paths : List File.Path) : List String :=
  (paths.map File.Path.text).mergeSort fun a b => a ≤ b

end PolicyEditor.Watcher
