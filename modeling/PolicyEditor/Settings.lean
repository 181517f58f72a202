import PolicyEditor.Lint.Scheduler
import PolicyEditor.Text.Split

/-!
Settings, from a document or from the environment.
-/

namespace PolicyEditor

open PolicyEditor.Decimal (Binary64)
open PolicyEditor.Validation

structure Settings where
  regalPath : Option String := none
  opaPath : Option String := none
  lintDebounceMs : Int := 750
  lintMinLength : Int := 10
  lintTimeout : Binary64 := .ofInt 15
  evalTimeout : Binary64 := .ofInt 30
  suppressedRules : List String := Lint.defaultSuppressed
  deriving DecidableEq, Repr

namespace Settings

/-- Reads settings; bounds keep lengths from being negative and timeouts above zero. -/
def check : Json → Checked Settings :=
  record fun fields =>
    (((((((Checked.valid Settings.mk).and
      (optional "regal_path" none (nullable string) fields)).and
      (optional "opa_path" none (nullable string) fields)).and
      (optional "lint_debounce_ms" 750 (integerFrom 0) fields)).and
      (optional "lint_min_length" 10 (integerFrom 0) fields)).and
      (optional "lint_timeout" (.ofInt 15) positiveFloat fields)).and
      (optional "eval_timeout" (.ofInt 30) positiveFloat fields)).and
      (optional "suppressed_rules" Lint.defaultSuppressed (setOf string) fields)

def debounceSeconds (s : Settings) : Binary64 :=
  .ofRatio (s.lintDebounceMs < 0) s.lintDebounceMs.natAbs 1000

/-- The names in a list with commas; blanks around them do not matter. -/
def ruleNames (s : String) : List String :=
  ((Text.pieces ',' s.toList).map Text.strip).filter (· ≠ []) |>.map String.ofList

def valueOf (env : List (String × String)) (name : String) : Json :=
  .ofOption (Json.find? name env)

def fieldFor (env : List (String × String)) (field name : String) : List (String × Json) :=
  match Json.find? name env with
  | some value => if value.isEmpty then [] else [(field, .str value)]
  | none => []

def regalVariable : String := "REGAL_PATH"
def opaVariable : String := "OPA_PATH"

def rulesVariable : String := "REGOLAB_SUPPRESSED_RULES"

def numberVariables : List (String × String) :=
  [("lint_debounce_ms", "REGOLAB_LINT_DEBOUNCE_MS"), ("lint_min_length", "REGOLAB_LINT_MIN_LENGTH"),
   ("lint_timeout", "REGOLAB_LINT_TIMEOUT"), ("eval_timeout", "REGOLAB_EVAL_TIMEOUT")]

def variableNames : List String :=
  [regalVariable, opaVariable, rulesVariable] ++ numberVariables.map (·.2)

def ofEnvironment (env : List (String × String)) : Checked Settings :=
  let suppressed :=
    match Json.find? rulesVariable env with
    | some names => ruleNames names
    | none => Lint.defaultSuppressed
  check (.obj ([("regal_path", valueOf env regalVariable), ("opa_path", valueOf env opaVariable),
      ("suppressed_rules", .arr (suppressed.map .str))] ++
    numberVariables.flatMap fun v => fieldFor env v.1 v.2))

def lintRules (s : Settings) : Lint.Rules :=
  ⟨s.lintMinLength, s.suppressedRules⟩

def sortedNames (names : List String) : List String :=
  (names.eraseDups).mergeSort fun a b => a ≤ b

end Settings

end PolicyEditor
