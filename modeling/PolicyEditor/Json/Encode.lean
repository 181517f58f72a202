import PolicyEditor.Json.Basic
import PolicyEditor.Decimal.Digits
import PolicyEditor.Text.Quoted

/-!
Writing documents on one line, with a blank after every comma and colon.
-/

namespace PolicyEditor.Json

open PolicyEditor.Decimal (Binary64)

def unitEscape (n : Nat) : List Char :=
  '\\' :: 'u' :: Text.hexDigits 4 n

def wideEscape (c : Char) : List Char :=
  let n := c.toNat
  if n < 0x10000 then unitEscape n
  else
    unitEscape (0xD800 + (n - 0x10000) / 0x400) ++ unitEscape (0xDC00 + (n - 0x10000) % 0x400)

/-- A character in a string. From U+007F on it stands as it is unless `ascii` is
asked for. -/
def stringChar (ascii : Bool) (c : Char) : List Char :=
  if c = '"' then ['\\', '"']
  else if c = '\\' then ['\\', '\\']
  else if c = '\n' then ['\\', 'n']
  else if c = '\r' then ['\\', 'r']
  else if c = '\t' then ['\\', 't']
  else if c = '\x08' then ['\\', 'b']
  else if c = '\x0C' then ['\\', 'f']
  else if c.toNat < 0x20 then unitEscape c.toNat
  else if ascii && 0x7F ≤ c.toNat then wideEscape c
  else [c]

def quoteString (ascii : Bool) (s : String) : String :=
  String.ofList ('"' :: s.toList.flatMap (stringChar ascii) ++ ['"'])

/-- A floating-point number; those that are not finite have names. -/
def floatText : Binary64 → String
  | .nan => "NaN"
  | .infinite negative => if negative then "-Infinity" else "Infinity"
  | x => x.text

mutual

def encode (ascii : Bool) : Json → String
  | .null => "null"
  | .bool b => if b then "true" else "false"
  | .int n => toString n
  | .float x => floatText x
  | .str s => quoteString ascii s
  | .arr elements => "[" ++ ", ".intercalate (encodeElements ascii elements) ++ "]"
  | .obj members => "\x7b" ++ ", ".intercalate (encodeMembers ascii members) ++ "\x7d"

def encodeElements (ascii : Bool) : List Json → List String
  | [] => []
  | v :: rest => encode ascii v :: encodeElements ascii rest

def encodeMembers (ascii : Bool) : List (String × Json) → List String
  | [] => []
  | (k, v) :: rest => (quoteString ascii k ++ ": " ++ encode ascii v) :: encodeMembers ascii rest

end

end PolicyEditor.Json
