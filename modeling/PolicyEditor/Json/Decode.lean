import PolicyEditor.Json.Basic
import PolicyEditor.Text.Classes
import PolicyEditor.Text.Split

/-!
Reading documents. The decoder takes the standard grammar and, beyond it, `NaN`, `Infinity` and
`-Infinity`. What is wrong with a text is told as a fault and the offset at which it stands.

Every reader gives the rest of its text; a fault carries the rest at which it was found, and its
offset is how much shorter that is than the whole.

`decode` reads a document however deep its brackets nest. `load` gives up where more of them are open
than the ambient `Nesting` allows: a reader that calls itself for every bracket has no more room than
that.

A text is a list of characters, none of them half of a pair. An escape for half a character without
the other half is therefore read as the replacement character U+FFFD.
-/

namespace PolicyEditor.Json

open PolicyEditor.Decimal (Binary64)

inductive Fault where
  | value
  | name
  | colon
  | comma
  | extraData
  | unterminatedString
  | controlCharacter
  | escape
  | unicodeEscape
  | byteOrderMark
  | tooManyDigits (count : Nat)
  | tooDeep
  deriving DecidableEq, Repr

/-- How many brackets may be open at once. -/
class Nesting where
  limit : Nat

def maxIntDigits : Nat := 4300

structure DecodeError where
  fault : Fault
  offset : Nat
  deriving DecidableEq, Repr

def Fault.text : Fault → String
  | .value => "Expecting value"
  | .name => "Expecting property name enclosed in double quotes"
  | .colon => "Expecting ':' delimiter"
  | .comma => "Expecting ',' delimiter"
  | .extraData => "Extra data"
  | .unterminatedString => "Unterminated string starting at"
  | .controlCharacter => "Invalid control character at"
  | .escape => "Invalid \\escape"
  | .unicodeEscape => "Invalid \\uXXXX escape"
  | .byteOrderMark => "Unexpected UTF-8 BOM (decode using utf-8-sig)"
  | .tooManyDigits count =>
    "Exceeds the limit (" ++ toString maxIntDigits ++
      " digits) for integer string conversion: value has " ++ toString count ++
      " digits; use sys.set_int_max_str_digits() to increase the limit"
  | .tooDeep => "maximum recursion depth exceeded"

/-- The error in words: the fault and, unless a limit was exceeded, its line, column and offset. Lines
and columns count from one. -/
def DecodeError.message (e : DecodeError) (source : List Char) : String :=
  match e.fault with
  | .tooManyDigits _ | .tooDeep => e.fault.text
  | fault =>
    let past := source.take e.offset
    let line := past.count '\n' + 1
    let column := (past.reverse.takeWhile (· ≠ '\n')).length + 1
    fault.text ++ ": line " ++ toString line ++ " column " ++ toString column ++
      " (char " ++ toString e.offset ++ ")"

/-- What a reader gives: a value, mostly with the rest of the text, or a fault and the rest where it
stands. -/
abbrev Read := Except (Fault × List Char)

def isSpace (c : Char) : Bool :=
  c == ' ' || c == '\t' || c == '\n' || c == '\r'

def skipSpace (s : List Char) : List Char :=
  s.dropWhile isSpace

def hexValue? (c : Char) : Option Nat :=
  if c.isDigit then some (c.toNat - '0'.toNat)
  else if 'a' ≤ c ∧ c ≤ 'f' then some (c.toNat - 'a'.toNat + 10)
  else if 'A' ≤ c ∧ c ≤ 'F' then some (c.toNat - 'A'.toNat + 10)
  else none

def hexFour? : List Char → Option (Nat × List Char)
  | a :: b :: c :: d :: rest => do
    let a ← hexValue? a
    let b ← hexValue? b
    let c ← hexValue? c
    let d ← hexValue? d
    return (4096 * a + 256 * b + 16 * c + d, rest)
  | _ => none

def isHighHalf (n : Nat) : Bool :=
  0xD800 ≤ n && n ≤ 0xDBFF

def isLowHalf (n : Nat) : Bool :=
  0xDC00 ≤ n && n ≤ 0xDFFF

def joinHalves (high low : Nat) : Char :=
  Char.ofNat (0x10000 + (high - 0xD800) * 0x400 + (low - 0xDC00))

/-- The character of a unit; half a character alone becomes the replacement character. -/
def unitChar (n : Nat) : Char :=
  if isHighHalf n || isLowHalf n then '\uFFFD' else Char.ofNat n

def simpleEscape? : Char → Option Char
  | '"' => some '"'
  | '\\' => some '\\'
  | '/' => some '/'
  | 'b' => some '\x08'
  | 'f' => some '\x0C'
  | 'n' => some '\n'
  | 'r' => some '\r'
  | 't' => some '\t'
  | _ => none

/-- Reads what follows `\u`, where `mark` is the text from the `u` on: the character of one unit or
of two halves, and the rest. The digits must not end the text. -/
def unicodeEscape (mark rest : List Char) : Read (Char × List Char) :=
  match hexFour? rest with
  | none => .error (.unicodeEscape, mark)
  | some (_, []) => .error (.unicodeEscape, mark)
  | some (high, after) =>
    -- A second half needs its six characters and at least one more after them.
    if isHighHalf high && 6 < after.length then
      match after with
      | '\\' :: 'u' :: second =>
        match hexFour? second with
        | none => .error (.unicodeEscape, 'u' :: second)
        | some (low, rest) =>
          -- Two units that do not belong together are read one by one.
          if isLowHalf low then .ok (joinHalves high low, rest) else .ok (unitChar high, after)
      | _ => .ok (unitChar high, after)
    else .ok (unitChar high, after)

/-- Reads a string after its opening quote; `start` is the text from that quote on. The first
argument bounds the number of characters. -/
def string (start : List Char) : (rounds : Nat) → List Char → Read (List Char × List Char)
  | 0, _ => .error (.unterminatedString, start)
  | _, [] => .error (.unterminatedString, start)
  | rounds + 1, c :: rest =>
    if c = '"' then .ok ([], rest)
    else if c = '\\' then
      match rest with
      | [] => .error (.unterminatedString, start)
      | e :: after =>
        if e = 'u' then do
          let (ch, after) ← unicodeEscape rest after
          let (chars, last) ← string start rounds after
          return (ch :: chars, last)
        else
          match simpleEscape? e with
          | none => .error (.escape, c :: rest)
          | some ch => do
            let (chars, last) ← string start rounds after
            return (ch :: chars, last)
    -- Everything else stands for itself, U+007F and beyond too.
    else if c.toNat < 0x20 then .error (.controlCharacter, c :: rest)
    else do
      let (chars, last) ← string start rounds rest
      return (c :: chars, last)

def digits (s : List Char) : List Char × List Char :=
  (s.takeWhile Char.isDigit, s.dropWhile Char.isDigit)

def fraction (s : List Char) : List Char × List Char :=
  match s with
  | '.' :: d :: rest => if d.isDigit then digits (d :: rest) else ([], s)
  | _ => ([], s)

def exponent? (s : List Char) : Option Int × List Char :=
  match s with
  | e :: rest =>
    if e = 'e' ∨ e = 'E' then
      let (negative, unsigned) :=
        match rest with
        | '-' :: r => (true, r)
        | '+' :: r => (false, r)
        | r => (false, r)
      match digits unsigned with
      | ([], _) => (none, s)
      | (ds, after) =>
        let n : Int := (Text.natOfDigits ds : Nat)
        (some (if negative then -n else n), after)
    else (none, s)
  | [] => (none, s)

/-- The integer part that a text begins with; it has no leading zeros. -/
def wholeDigits? (s : List Char) : Option (List Char × List Char) :=
  match s with
  | '0' :: rest => some (['0'], rest)
  | c :: _ => if c.isDigit then some (digits s) else none
  | [] => none

/-- Reads a number after its sign. With a fraction or an exponent it is a floating-point number;
`start` is the text from the sign on. -/
def number (negative : Bool) (start s : List Char) : Read (Json × List Char) :=
  match wholeDigits? s with
  | none => .error (.value, start)
  | some (whole, afterWhole) =>
    let (part, afterPart) := fraction afterWhole
    let (exponent, after) := exponent? afterPart
    -- A number without a fraction and an exponent stays exact.
    if part = [] ∧ exponent = none then
      if maxIntDigits < whole.length then .error (.tooManyDigits whole.length, start)
      else
        let n : Int := (Text.natOfDigits whole : Nat)
        .ok (.int (if negative then -n else n), after)
    else
      .ok (.float (Binary64.ofDecimal negative (Text.natOfDigits (whole ++ part))
        (exponent.getD 0 - part.length)), after)

def literals : List (String × Json) :=
  [("null", .null), ("true", .bool true), ("false", .bool false), ("NaN", .float .nan),
   ("Infinity", .float (.infinite false)), ("-Infinity", .float (.infinite true))]

def literal? (s : List Char) : Option (Json × List Char) :=
  literals.findSome? fun (word, value) =>
    (Text.afterWord? word s).map fun rest => (value, rest)

/-- Reads elements after `[` or a comma. The last number bounds how many there are. -/
def elements (value : List Char → Read (Json × List Char)) :
    (rounds : Nat) → List Char → Read (List Json × List Char)
  | 0, s => .error (.value, s)
  | rounds + 1, s => do
    let (v, after) ← value s
    match skipSpace after with
    | ']' :: rest => return ([v], rest)
    | ',' :: rest =>
      let (vs, last) ← elements value rounds (skipSpace rest)
      return (v :: vs, last)
    | rest => .error (.comma, rest)

/-- Reads members after `{` or a comma. The numbers bound how long a key is and how many members
there are. -/
def members (width : Nat) (value : List Char → Read (Json × List Char)) :
    (rounds : Nat) → List Char → Read (List (String × Json) × List Char)
  | 0, s => .error (.name, s)
  | rounds + 1, s =>
    match s with
    | '"' :: inside => do
      let (key, afterKey) ← string s width inside
      match skipSpace afterKey with
      | ':' :: afterColon =>
        let (v, after) ← value (skipSpace afterColon)
        match skipSpace after with
        | '}' :: rest => return ([(String.ofList key, v)], rest)
        | ',' :: rest =>
          let (ms, last) ← members width value rounds (skipSpace rest)
          return ((String.ofList key, v) :: ms, last)
        | rest => .error (.comma, rest)
      | rest => .error (.colon, rest)
    | s => .error (.name, s)

/-- Reads a value, given a reader for the values inside it. The first argument bounds how many
characters, elements or members there are. -/
def valueStep (rounds : Nat) (value : List Char → Read (Json × List Char)) (s : List Char) :
    Read (Json × List Char) :=
  match s with
  | [] => .error (.value, [])
  | '"' :: inside => do
    let (chars, rest) ← string s rounds inside
    return (.str (String.ofList chars), rest)
  | '{' :: inside =>
    match skipSpace inside with
    | '}' :: rest => .ok (.obj [], rest)
    | inside => do
      let (ms, rest) ← members rounds value rounds inside
      return (ofMembers ms, rest)
  | '[' :: inside =>
    match skipSpace inside with
    | ']' :: rest => .ok (.arr [], rest)
    | inside => do
      let (vs, rest) ← elements value rounds inside
      return (.arr vs, rest)
  | c :: rest =>
    match literal? s with
    | some found => .ok found
    | none => if c = '-' then number true s rest else number false s s

def valueUpTo : (n : Nat) → List Char → Read (Json × List Char)
  | 0, s => .error (.value, s)
  | n + 1, s => valueStep (n + 1) (valueUpTo n) s

def opensBracket (s : List Char) : Bool :=
  s.head? == some '{' || s.head? == some '['

/-- Reads a value of fewer than `n` characters in which at most `limit` brackets are open at once. -/
def valueWithin : (limit n : Nat) → List Char → Read (Json × List Char)
  | _, 0, s => .error (.value, s)
  | 0, n + 1, s =>
    if opensBracket s then .error (.tooDeep, s) else valueStep (n + 1) (valueWithin 0 n) s
  | limit + 1, n + 1, s => valueStep (n + 1) (valueWithin limit n) s

def document (value : (n : Nat) → List Char → Read (Json × List Char)) (source : List Char) :
    Read Json :=
  if source.head? = some '\uFEFF' then .error (.byteOrderMark, source)
  else do
    let (v, after) ← value (source.length + 1) (skipSpace source)
    match skipSpace after with
    | [] => return v
    | rest => .error (.extraData, rest)

/-- Tells a fault by the offset at which it stands in the whole text. -/
def located {α : Type} (source : List Char) : Read α → Except DecodeError α
  | .ok v => .ok v
  | .error (fault, rest) => .error ⟨fault, source.length - rest.length⟩

def decode (source : List Char) : Except DecodeError Json :=
  located source (document valueUpTo source)

def decode? (source : List Char) : Option Json :=
  (decode source).toOption

variable [Nesting]

/-- Decodes a document whose brackets do not nest too deep. -/
def load (source : List Char) : Except DecodeError Json :=
  located source (document (valueWithin Nesting.limit) source)

def load? (source : List Char) : Option Json :=
  (load source).toOption

namespace UsualNesting

/-- A reader has a thousand calls, of which those that led to it are in use. -/
scoped instance : Nesting := ⟨970⟩

end UsualNesting

end PolicyEditor.Json
