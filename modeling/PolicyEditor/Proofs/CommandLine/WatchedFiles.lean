import PolicyEditor.CommandLine.Watch

/-!
Changed files and the documents of a watching session. Of a batch the files with a watched suffix are
loaded one by one, in any order, until one cannot be read. Every document whose file is loaded is
made from the text of that file, and all others are left as they are.

A file is the place that its paths resolve to. How they resolve, and what is read at a place, is left
open.
-/

namespace PolicyEditor

open PolicyEditor.Lint (Timeline)
open PolicyEditor.Lint.Scheduler (Effect)

/-! ### The documents of a session -/

namespace Session

/-- The documents that a session is made from: the policy, and those that it is looked at with. -/
inductive Part where
  | policy
  | document (root : Schema.Root)
  deriving DecidableEq, Repr

inductive Content where
  | policy (text : String)
  | document (schema : Option Schema)

def Part.content [Json.Nesting] (text : String) : Part → Content
  | .policy => .policy text
  | .document root => .document (root.schema? (some text))

/-- The documents that a file is tried for first. -/
def Part.earlier : Part → List Part
  | .policy => []
  | .document .input => [.policy]
  | .document .data => [.policy, .document .input]

def content (s : Session) : Part → Content
  | .policy => .policy s.policy
  | .document root => .document (s.context.root root)

section

variable [Json.Nesting]

end

end Session

namespace CommandLine

open PolicyEditor.File (Directory)
open PolicyEditor.Session (Part Content)

variable {Place : Type}

/-! ### Loading one file -/

section

variable [DecidableEq Place] [Json.Nesting] {w : Watched} {resolve : String → Place} {s : Session}
variable {part : Part} {place : Place} {text : String}

end

/-! ### Loading many files -/

section

variable [DecidableEq Place] [Json.Nesting] {ε : Type} {w : Watched} {resolve : String → Place}
variable {read : Place → Except ε String} {s : Session} {part : Part} {path text : String} {fault : ε}
variable {front order rest : List String}

end

/-! ### Batches -/

section

open scoped Json.UsualNesting

def opened : Session :=
  .create "package a" none none {} true

end

end CommandLine

end PolicyEditor
