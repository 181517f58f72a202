import PolicyEditor.Text.Classes

/-!
Integers as a user types them: a sign or none, and decimal digits of any script, with single
underscores between them or not.
-/

namespace PolicyEditor.Text

/-- The blanks that may stand around a number: all but the separators U+001C to U+001F. -/
def isMargin (c : Char) : Bool :=
  isBlank c && !(0x1C ≤ c.toNat && c.toNat ≤ 0x1F)

def withoutMargins (s : List Char) : List Char :=
  ((s.dropWhile isMargin).reverse.dropWhile isMargin).reverse

def splitSign : List Char → Bool × List Char
  | '-' :: rest => (true, rest)
  | '+' :: rest => (false, rest)
  | s => (false, s)

/-- The text without its underscores, each of which has to stand between two digits. `afterDigit`
says whether a digit comes before the text. -/
def withoutUnderscores? (afterDigit : Bool) : List Char → Option (List Char)
  | [] => some []
  | '_' :: rest =>
    if afterDigit && rest.head?.any isDecimal then withoutUnderscores? false rest else none
  | c :: rest => (withoutUnderscores? (isDecimal c) rest).map (c :: ·)

def maxTypedDigits : Nat := 4300

def signedDigits? (s : List Char) : Option Int :=
  let (negative, unsigned) := splitSign s
  match withoutUnderscores? false unsigned with
  | none => none
  | some ds =>
    if ds.isEmpty || !ds.all isDecimal || maxTypedDigits < ds.length then none
    else
      let n : Int := (natOfDigits ds : Nat)
      some (if negative then -n else n)

def integerOf? (s : String) : Option Int :=
  signedDigits? (withoutMargins s.toList)

end PolicyEditor.Text
