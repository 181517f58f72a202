import PolicyEditor.Completion.Cursor

/-!
Hovering: what is known of the path into a document that stands under an offset.
-/

namespace PolicyEditor.Hover

open PolicyEditor.Schema (Context)
open PolicyEditor.Completion (pathMayFollow afterPath? lineBefore)

structure Info where
  path : String
  type : String
  sample : Option String
  source : Option String
  deriving DecidableEq, Repr

structure Result where
  info : Info
  start : Nat
  stop : Nat
  deriving DecidableEq, Repr

def lookup (context : Context) (path : List Char) : Except Path.KeyError (Option Info) := do
  let node ← Path.resolve context path
  return node.map fun node =>
    ⟨String.ofList (Text.strip path), node.describe, node.exampleText, node.source⟩

/-- The paths in a line whose next `skip` characters belong to a path already found, each with its
column. -/
def pathsFrom (skip column : Nat) (last : Option Char) : List Char → List (Nat × List Char)
  | [] => []
  | c :: rest =>
    match skip with
    | skip + 1 => pathsFrom skip (column + 1) (some c) rest
    | 0 =>
      match if pathMayFollow last then afterPath? (c :: rest) else none with
      | some after =>
        let path := (c :: rest).take ((c :: rest).length - after.length)
        (column, path) :: pathsFrom (path.length - 1) (column + 1) (some c) rest
      | none => pathsFrom 0 (column + 1) (some c) rest

def paths (line : List Char) : List (Nat × List Char) :=
  pathsFrom 0 0 none line

/-- What is known of the path under an offset. The first path of the line that touches the offset
counts; outside the text there is nothing. -/
def at? (source : List Char) (offset : Int) (context : Context) :
    Except Path.KeyError (Option Result) :=
  if offset < 0 ∨ (source.length : Int) < offset then .ok none
  else
    let offset := offset.toNat
    let before := lineBefore source offset
    let lineStart := offset - before.length
    let line := before ++ (source.drop offset).takeWhile (· ≠ '\n')
    -- An offset right after a path still touches it.
    let touches (p : Nat × List Char) : Bool :=
      p.1 ≤ before.length && before.length ≤ p.1 + p.2.length
    match (paths line).find? touches with
    | none => .ok none
    | some (column, path) => do
      let info ← lookup context path
      return info.map fun info => ⟨info, lineStart + column, lineStart + column + path.length⟩

end PolicyEditor.Hover
