import PolicyEditor.Engine.Opa
import PolicyEditor.Engine.Regal

/-!
Work that asks engines on its way. It is data: whoever runs it chooses the engines, and sees the
questions that were asked.
-/

namespace PolicyEditor.Engine

structure Linter where
  lint : String → Except Failure Lint.Report
  version? : Option (Except Failure String)

structure Evaluator where
  evaluate : (policy input data : String) → Except Failure Json
  format : String → Except Failure String
  version? : Option (Except Failure String)

structure Engines where
  linter : Linter
  evaluator : Evaluator

inductive Call where
  | lint (policy : String)
  | evaluate (policy input data : String)
  | format (policy : String)
  deriving DecidableEq, Repr

def Call.isLint : Call → Bool
  | .lint _ => true
  | _ => false

/-- Work that comes to a result, and may ask engines before. -/
inductive Work (α : Type) where
  | done (result : α)
  | lint (policy : String) (next : Except Failure Lint.Report → Work α)
  | evaluate (policy input data : String) (next : Except Failure Json → Work α)
  | format (policy : String) (next : Except Failure String → Work α)
  | versions (next : (linter evaluator : Option (Except Failure String)) → Work α)

namespace Work

variable {α β : Type}

def andThen (f : α → Work β) : Work α → Work β
  | .done a => f a
  | .lint policy next => .lint policy fun r => andThen f (next r)
  | .evaluate policy input data next => .evaluate policy input data fun r => andThen f (next r)
  | .format policy next => .format policy fun r => andThen f (next r)
  | .versions next => .versions fun linter evaluator => andThen f (next linter evaluator)

def map (f : α → β) (w : Work α) : Work β :=
  w.andThen fun a => .done (f a)

def run (engines : Engines) : Work α → α × List Call
  | .done a => (a, [])
  | .lint policy next =>
    let (a, calls) := run engines (next (engines.linter.lint policy))
    (a, .lint policy :: calls)
  | .evaluate policy input data next =>
    let (a, calls) := run engines (next (engines.evaluator.evaluate policy input data))
    (a, .evaluate policy input data :: calls)
  | .format policy next =>
    let (a, calls) := run engines (next (engines.evaluator.format policy))
    (a, .format policy :: calls)
  | .versions next =>
    run engines (next engines.linter.version? engines.evaluator.version?)

end Work

variable [Json.Nesting]

def Linter.ofTool (t : Tool) (m : Machine) : Linter where
  lint policy := (Regal.lint t m policy).result
  version? := some (Regal.version t m).result

def Evaluator.ofTool (t : Tool) (m : Machine) : Evaluator where
  evaluate policy input data := (Opa.evaluate t m policy input data).result
  format policy := (Opa.format t m policy).result
  version? := some (Opa.version t m).result

def Engines.ofSettings (s : Settings) (m : Machine) : Engines where
  linter := .ofTool (Regal.ofSettings s) m
  evaluator := .ofTool (Opa.ofSettings s) m

end PolicyEditor.Engine
