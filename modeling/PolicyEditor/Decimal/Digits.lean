import PolicyEditor.Decimal.Binary64

/-!
Decimal digits of a floating-point number: as few as read back to the same number, or a fixed count
of significant ones.

A positive decimal is a pair of `digits` and `exponent` that stands for `digits * 10 ^ exponent`.
-/

namespace PolicyEditor.Decimal

structure Scaled where
  digits : Nat
  exponent : Int
  deriving DecidableEq, Repr

def powerOfTen (n : Int) : Nat × Nat :=
  if 0 ≤ n then (Nat.pow 10 n.toNat, 1) else (1, Nat.pow 10 (-n).toNat)

def digitCount (n : Nat) : Nat :=
  (Nat.toDigits 10 n).length

/-- The exponent of the first digit of a positive quotient: the largest power of ten that is no
greater. -/
def leadingExponent (num den : Nat) : Int :=
  if den ≤ num then (digitCount (num / den) : Int) - 1
  else -(digitCount ((den + num - 1) / num - 1) : Int)

/-- Removes the zeros that a decimal ends with. The first argument bounds their number. -/
def Scaled.trimmed : (rounds : Nat) → Scaled → Scaled
  | 0, d => d
  | rounds + 1, d =>
    if d.digits ≠ 0 ∧ d.digits % 10 = 0 then
      Scaled.trimmed rounds ⟨d.digits / 10, d.exponent + 1⟩
    else d

def significantDigits (count num den : Nat) : Scaled :=
  let grid := leadingExponent num den + 1 - count
  let (up, down) := powerOfTen grid
  (Scaled.mk (roundDiv (num * down) (den * up)) grid).trimmed (count + 1)

/-- The reals that round to a number: all between two bounds, which are given in quarters of the
number's last binary place, with the bounds themselves if `closed`. -/
structure Neighbourhood where
  low : Nat
  mid : Nat
  high : Nat
  closed : Bool

/-- The neighbourhood of a positive finite number. Below a power of two the numbers lie twice as
close. -/
def Neighbourhood.of (significand power : Nat) : Neighbourhood where
  low := 4 * significand - (if significand = Nat.pow 2 52 ∧ 0 < power then 1 else 2)
  mid := 4 * significand
  high := 4 * significand + 2
  closed := significand % 2 = 0

/-- Whether `candidate` units of `num / den` lie in the neighbourhood, given in multiples of
`num / den` on one side and quarters on the other: `candidate * num` against `bound * den`. -/
def Neighbourhood.holds (n : Neighbourhood) (num den candidate : Nat) : Bool :=
  let x := candidate * num
  if n.closed then n.low * den ≤ x && x ≤ n.high * den
  else n.low * den < x && x < n.high * den

/-- The decimal with at most `count` digits nearest to a number among those that read back as it. -/
def shortestOf? (n : Neighbourhood) (power : Nat) (leading : Int) (count : Nat) : Option Scaled :=
  let grid := leading + 1 - count
  let (tenUp, tenDown) := powerOfTen grid
  let (twoUp, twoDown) := Binary64.powerOfTwo ((power : Int) - 1076)
  let num := tenUp * twoDown
  let den := tenDown * twoUp
  let below := n.mid * den / num
  let above := below + 1
  -- If any decimal of this grid reads back, one of the two neighbours does.
  match n.holds num den below && below != 0, n.holds num den above with
  | false, false => none
  | true, false => some ⟨below, grid⟩
  | false, true => some ⟨above, grid⟩
  | true, true =>
    -- Of two the nearer one, and of equally near ones the even one.
    let down := n.mid * den - below * num
    let up := above * num - n.mid * den
    if down < up || (down == up && below % 2 == 0) then some ⟨below, grid⟩ else some ⟨above, grid⟩

def shortestAmong (n : Neighbourhood) (power : Nat) (leading : Int) : List Nat → Option Scaled
  | [] => none
  | count :: more =>
    match shortestOf? n power leading count with
    | some d => some d
    | none => shortestAmong n power leading more

/-- The shortest decimal that reads back as a positive finite number. Seventeen digits always do. -/
def shortest (significand power : Nat) : Scaled :=
  let (num, den) := Binary64.ratio significand power
  let found := shortestAmong (Neighbourhood.of significand power) power (leadingExponent num den)
    (List.range' 1 17)
  (found.getD (significantDigits 17 num den)).trimmed 18

/-- How a decimal is laid out: where exponents begin, and whether a whole number shows a point. -/
structure Layout where
  /-- Numbers whose leading exponent is at least this take an exponent. -/
  exponentFrom : Int
  pointAlways : Bool

def smallExponent : Int := -5

/-- An exponent has a sign and at least two digits. -/
def exponentText (e : Int) : String :=
  let digits := toString e.natAbs
  "e" ++ (if e < 0 then "-" else "+") ++ (if digits.length < 2 then "0" ++ digits else digits)

def zeros (n : Nat) : String :=
  String.ofList (List.replicate n '0')

def Layout.write (layout : Layout) (d : Scaled) : String :=
  let digits := Nat.toDigits 10 d.digits
  let leading := (digits.length : Int) - 1 + d.exponent
  if leading ≤ smallExponent ∨ layout.exponentFrom ≤ leading then
    match digits with
    | [] => ""
    | [only] => String.ofList [only] ++ exponentText leading
    | first :: more => String.ofList (first :: '.' :: more) ++ exponentText leading
  else if leading < 0 then
    "0." ++ zeros ((-leading).toNat - 1) ++ String.ofList digits
  else if 0 ≤ d.exponent then
    String.ofList digits ++ zeros d.exponent.toNat ++ (if layout.pointAlways then ".0" else "")
  else
    let whole := (leading + 1).toNat
    String.ofList (digits.take whole) ++ "." ++ String.ofList (digits.drop whole)

/-- Writes a number; `positive` gives the digits of a positive finite one. -/
def Layout.writeWith (layout : Layout) (positive : (significand power : Nat) → Scaled) :
    Binary64 → String
  | .nan => "nan"
  | .infinite negative => if negative then "-inf" else "inf"
  | .finite negative m p =>
    let sign := if negative then "-" else ""
    if m = 0 then sign ++ (if layout.pointAlways then "0.0" else "0")
    else sign ++ layout.write (positive m p)

/-- Numbers in documents show a point even when whole, and take an exponent from ten to the
sixteenth. -/
def document : Layout := ⟨16, true⟩

/-- Durations have six significant digits and show no point when whole. -/
def duration : Layout := ⟨6, false⟩

def Binary64.text (x : Binary64) : String :=
  document.writeWith shortest x

def Binary64.brief (x : Binary64) : String :=
  duration.writeWith (fun m p =>
    let (num, den) := Binary64.ratio m p
    significantDigits 6 num den) x

end PolicyEditor.Decimal
