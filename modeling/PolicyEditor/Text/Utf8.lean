/-!
Bytes as text. Where bytes are no text, every longest beginning of a character that could not be
finished is replaced by one replacement character.
-/

namespace PolicyEditor.Text

def replacement : Char := '\uFFFD'

/-- A character whose first bytes have been read: how many bytes follow the next one, the range that
the next one has to lie in, and the bits so far. -/
structure PartialChar where
  more : Nat
  low : Nat := 0x80
  high : Nat := 0xBF
  bits : Nat
  deriving DecidableEq, Repr

/-- The characters that a byte completes, and the character that it leaves unfinished. -/
abbrev ByteStep := List Char × Option PartialChar

/-- A byte at the beginning of a character. Ranges of the second byte keep out overlong forms,
surrogates and numbers above U+10FFFF. -/
def firstByte (b : Nat) : ByteStep :=
  if b < 0x80 then ([Char.ofNat b], none)
  else if b < 0xC2 then ([replacement], none)
  else if b < 0xE0 then ([], some { more := 0, bits := b - 0xC0 })
  else if b = 0xE0 then ([], some { more := 1, low := 0xA0, bits := 0 })
  else if b = 0xED then ([], some { more := 1, high := 0x9F, bits := 0xD })
  else if b < 0xF0 then ([], some { more := 1, bits := b - 0xE0 })
  else if b = 0xF0 then ([], some { more := 2, low := 0x90, bits := 0 })
  else if b < 0xF4 then ([], some { more := 2, bits := b - 0xF0 })
  else if b = 0xF4 then ([], some { more := 2, high := 0x8F, bits := 4 })
  else ([replacement], none)

/-- A byte after those of an unfinished character. One that does not fit begins anew. -/
def nextByte (p : PartialChar) (b : Nat) : ByteStep :=
  if p.low ≤ b ∧ b ≤ p.high then
    let bits := p.bits * 64 + (b - 0x80)
    match p.more with
    | 0 => ([Char.ofNat bits], none)
    | more + 1 => ([], some { more := more, bits := bits })
  else
    let (found, left) := firstByte b
    (replacement :: found, left)

def byteStep (left : Option PartialChar) (b : Nat) : ByteStep :=
  match left with
  | none => firstByte b
  | some p => nextByte p b

def decodeFrom (left : Option PartialChar) : List UInt8 → List Char
  | [] => if left.isSome then [replacement] else []
  | b :: rest =>
    let (found, left) := byteStep left b.toNat
    found ++ decodeFrom left rest

def decodeUtf8 (bytes : List UInt8) : String :=
  String.ofList (decodeFrom none bytes)

end PolicyEditor.Text
