/-!
The syntax of arguments. An option is spelled with one dash and a letter or with two dashes and a
word; it sets something, takes a value or asks for help. The value is the next argument, or stands
in the same one: after an equals sign behind a word, or right behind a letter. Letters that take no
value can share one dash. Two dashes alone end the options.
-/

namespace PolicyEditor.CommandLine

inductive Meaning where
  | help
  /-- Gives a key a fixed value. -/
  | put (key value : String)
  /-- Gives a key the value that follows. -/
  | take (key : String)
  deriving DecidableEq, Repr

abbrev Options := List (String × Meaning)

/-- Arguments told apart: the values of keys in the order in which they were given, the arguments
that are no options, and whether help was asked for. -/
structure Given where
  values : List (String × String) := []
  operands : List String := []
  help : Bool := false
  deriving DecidableEq, Repr

namespace Given

def withOperand (g : Given) (operand : String) : Given :=
  { g with operands := operand :: g.operands }

def withMeaning (g : Given) : Meaning → Given
  | .help => { g with help := true }
  | .put key value => { g with values := (key, value) :: g.values }
  | .take _ => g

def withValue (g : Given) (key value : String) : Given :=
  { g with values := (key, value) :: g.values }

/-- The value of a key. Of several the last one counts. -/
def value? (g : Given) (key : String) : Option String :=
  (g.values.reverse.find? fun v => v.1 == key).map (·.2)

end Given

inductive Word where
  | operand
  /-- Options, with the value for a key that the argument ends in; the value may still follow. -/
  | options (meanings : List Meaning) (last : Option (String × Option String))
  deriving DecidableEq, Repr

def meaning? (options : Options) (spelling : List Char) : Option Meaning :=
  (options.find? fun o => o.1.toList == spelling).map (·.2)

def letters? (options : Options) : List Char → Option Word
  | [] => some (.options [] none)
  | c :: rest =>
    match meaning? options ['-', c] with
    | none => none
    | some (.take key) =>
      some (.options [] (some (key, if rest.isEmpty then none else some (String.ofList rest))))
    | some m =>
      match letters? options rest with
      | some (.options meanings last) => some (.options (m :: meanings) last)
      | other => other

def splitEquals (s : List Char) : List Char × Option (List Char) :=
  match s.dropWhile (· ≠ '=') with
  | [] => (s, none)
  | _ :: value => (s.takeWhile (· ≠ '='), some value)

def isLong : List Char → Bool
  | '-' :: '-' :: _ => true
  | _ => false

def long? (options : Options) (s : List Char) : Option Word :=
  let (spelling, value) := splitEquals s
  match meaning? options spelling, value with
  | none, _ => none
  | some (.take key), value => some (.options [] (some (key, value.map String.ofList)))
  | some m, none => some (.options [m] none)
  | some _, some _ => none

def word? (options : Options) (argument : String) : Option Word :=
  match argument.toList with
  | '-' :: c :: rest =>
    if isLong ('-' :: c :: rest) then long? options ('-' :: c :: rest)
    else letters? options (c :: rest)
  | _ => some .operand

def withMeanings (meanings : List Meaning) (g : Given) : Given :=
  meanings.foldr (fun m g => g.withMeaning m) g

/-- Tells arguments apart, unless an option is not known or lacks its value. If `mixed`, options may
follow operands; otherwise the first operand ends the options. -/
def given? (options : Options) (mixed : Bool) : List String → Option Given
  | [] => some {}
  | argument :: rest =>
    if argument = "--" then some { operands := rest }
    else
      match word? options argument with
      | none => none
      | some .operand =>
        if mixed then (given? options mixed rest).map (·.withOperand argument)
        else some { operands := argument :: rest }
      | some (.options meanings none) =>
        (given? options mixed rest).map (withMeanings meanings)
      | some (.options meanings (some (key, some value))) =>
        (given? options mixed rest).map fun g => withMeanings meanings (g.withValue key value)
      | some (.options meanings (some (key, none))) =>
        match rest with
        | [] => none
        | value :: rest =>
          (given? options mixed rest).map fun g => withMeanings meanings (g.withValue key value)

end PolicyEditor.CommandLine
