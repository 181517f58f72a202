/-!
Floating-point numbers in 64 bits, in exact arithmetic. A finite number is a sign and a significand
times a power of two; every operation here works on natural numbers, so that its result can be
reasoned about.
-/

namespace PolicyEditor.Decimal

/-- The whole number nearest to a quotient; of two that are equally near, the even one. -/
def roundDiv (num den : Nat) : Nat :=
  let q := num / den
  let twice := 2 * (num % den)
  if twice < den then q
  -- Halfway, an odd quotient goes up to the even one.
  else if twice = den then q + q % 2
  else q + 1

/-- The quotient lies no further from the result than half a unit. -/
theorem roundDiv_near (num den : Nat) (h : 0 < den) :
    2 * num ≤ 2 * (roundDiv num den * den) + den ∧
      2 * (roundDiv num den * den) ≤ 2 * num + den := by
  have hdiv : den * (num / den) + num % den = num := Nat.div_add_mod num den
  have hlt : num % den < den := Nat.mod_lt num h
  have hcomm : num / den * den = den * (num / den) := Nat.mul_comm ..
  unfold roundDiv
  dsimp only
  split
  · omega
  · split
    · rcases Nat.mod_two_eq_zero_or_one (num / den) with h2 | h2 <;> rw [h2]
      · rw [Nat.add_zero]; omega
      · rw [Nat.add_mul]; omega
    · rw [Nat.add_mul]; omega

/-- A number of the format. A finite one is `significand * 2 ^ (power - 1074)`, negated if
`negative`; its significand is below `2 ^ 53`, and at least `2 ^ 52` unless the power is zero. -/
inductive Binary64 where
  | nan
  | infinite (negative : Bool)
  | finite (negative : Bool) (significand power : Nat)
  deriving DecidableEq, Repr

namespace Binary64

def zero (negative : Bool) : Binary64 :=
  .finite negative 0 0

def powerOfTwo (n : Int) : Nat × Nat :=
  if 0 ≤ n then (Nat.pow 2 n.toNat, 1) else (1, Nat.pow 2 (-n).toNat)

/-- The exponent of two at which a positive quotient has a significand of 53 bits, no lower than the
format allows. -/
def exponentFor (num den : Nat) : Int :=
  let low : Int := (num.log2 : Int) - den.log2 - 53
  let (up, down) := powerOfTwo low
  -- The logarithms leave two exponents to choose from.
  let exact := if num * down < Nat.pow 2 53 * (den * up) then low else low + 1
  max exact (-1074)

/-- The number nearest to a quotient of naturals, ties to the even significand. Quotients beyond the
largest number become infinite. -/
def ofRatio (negative : Bool) (num den : Nat) : Binary64 :=
  if num = 0 then zero negative
  else
    let e := exponentFor num den
    let (up, down) := powerOfTwo e
    let m := roundDiv (num * down) (den * up)
    -- Rounding up can carry into one bit more.
    let (m, e) := if m = Nat.pow 2 53 then (Nat.pow 2 52, e + 1) else (m, e)
    if 971 < e then .infinite negative
    else .finite negative m (e + 1074).toNat

def ofDecimal (negative : Bool) (digits : Nat) (exponent : Int) : Binary64 :=
  let magnitude := (Nat.toDigits 10 digits).length + exponent
  -- Far outside the range the result is known, and powers of ten would be huge.
  if digits = 0 then zero negative
  else if 310 < magnitude then .infinite negative
  else if magnitude < -330 then zero negative
  else if 0 ≤ exponent then ofRatio negative (digits * Nat.pow 10 exponent.toNat) 1
  else ofRatio negative digits (Nat.pow 10 (-exponent).toNat)

def ofInt (n : Int) : Binary64 :=
  ofRatio (n < 0) n.natAbs 1

def ratio (significand power : Nat) : Nat × Nat :=
  let (up, down) := powerOfTwo ((power : Int) - 1074)
  (significand * up, down)

def toInt? : Binary64 → Option Int
  | .finite negative m p =>
    let (num, den) := ratio m p
    if num % den = 0 then
      let n : Int := (num / den : Nat)
      some (if negative then -n else n)
    else none
  | _ => none

def isFinite : Binary64 → Bool
  | .finite _ _ _ => true
  | _ => false

/-- Whether the number is above zero; not so for `nan`. -/
def isPositive : Binary64 → Bool
  | .nan => false
  | .infinite negative => !negative
  | .finite negative m _ => !negative && m != 0

/-- Whether the first number is below the second; never so for `nan`. -/
def lt : Binary64 → Binary64 → Bool
  | .nan, _ => false
  | _, .nan => false
  | .infinite a, .infinite b => a && !b
  | .infinite a, .finite _ _ _ => a
  | .finite _ _ _, .infinite b => !b
  | .finite a m p, .finite b n q =>
    -- Both in units of the smallest power.
    let value (negative : Bool) (m p : Nat) : Int :=
      if negative then -((m * Nat.pow 2 p : Nat) : Int) else ((m * Nat.pow 2 p : Nat) : Int)
    value a m p < value b n q

end Binary64

end PolicyEditor.Decimal
