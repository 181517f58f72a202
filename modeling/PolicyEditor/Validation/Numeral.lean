import PolicyEditor.Decimal.Binary64
import PolicyEditor.Text.Integer

/-!
Numbers that a field holds as text. Blanks around a number do not matter, and a single underscore
may stand between two digits.
-/

namespace PolicyEditor.Validation

open PolicyEditor.Decimal (Binary64)
open PolicyEditor.Text (isDecimal)

def beforeZeros? (s : List Char) : Option (List Char) :=
  match s.dropWhile (· ≠ '.') with
  | [] => some s
  | _ :: zeros =>
    if zeros.isEmpty || !zeros.all (· = '0') then none else some (s.takeWhile (· ≠ '.'))

/-- The integer that a text writes: a sign or none, digits, and a point with zeros or none. -/
def intOfText? (s : String) : Option Int :=
  (beforeZeros? (Text.withoutMargins s.toList)).bind Text.signedDigits?

def floatName? (negative : Bool) (s : List Char) : Option Binary64 :=
  match String.ofList (s.map Char.toLower) with
  | "inf" | "infinity" => some (.infinite negative)
  | "nan" => some .nan
  | _ => none

/-- The exponent that a whole text is: `e`, a sign or none, and digits. An empty text is none. -/
def exponentOfText? : List Char → Option Int
  | [] => some 0
  | e :: rest =>
    if e = 'e' ∨ e = 'E' then
      let (negative, ds) := Text.splitSign rest
      if ds.isEmpty || !ds.all isDecimal then none
      else
        let n : Int := (Text.natOfDigits ds : Nat)
        some (if negative then -n else n)
    else none

/-- The floating-point number that a text without blanks and underscores writes: digits with a point
anywhere among them or none, and an exponent or none. -/
def plainFloat? (s : List Char) : Option Binary64 :=
  let (negative, unsigned) := Text.splitSign s
  match floatName? negative unsigned with
  | some x => some x
  | none =>
    let whole := unsigned.takeWhile isDecimal
    let (part, after) :=
      match unsigned.dropWhile isDecimal with
      | '.' :: rest => (rest.takeWhile isDecimal, rest.dropWhile isDecimal)
      | rest => ([], rest)
    if whole.isEmpty && part.isEmpty then none
    else
      (exponentOfText? after).map fun exponent =>
        .ofDecimal negative (Text.natOfDigits (whole ++ part)) (exponent - part.length)

def floatOfText? (s : String) : Option Binary64 :=
  (Text.withoutUnderscores? false (Text.withoutMargins s.toList)).bind plainFloat?

end PolicyEditor.Validation
