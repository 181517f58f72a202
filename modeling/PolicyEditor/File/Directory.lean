import PolicyEditor.Text.Split

/-!
Files: the paths that lead to them, and the directory that commands work in.

In a path repeated and trailing slashes and parts that are a single dot do not matter; two slashes in
front are kept apart from one, and parts that are two dots stay. Resolved, a path is the names that
lead from the root to its place: two dots take the last name back, whether anything is there or not.
No name is a link to another place.
-/

namespace PolicyEditor.File

/-- A path: the slashes it begins with, and its parts. -/
structure Path where
  root : String
  parts : List String
  deriving DecidableEq, Repr

namespace Path

/-- The slashes that a path keeps, of so many in front. -/
def rootFor : (slashes : Nat) → String
  | 0 => ""
  | 2 => "//"
  | _ => "/"

def ofString (s : String) : Path where
  root := rootFor (s.toList.takeWhile (· = '/')).length
  parts := ((Text.pieces '/' s.toList).filter fun p => p ≠ [] && p ≠ ['.']).map String.ofList

def text (p : Path) : String :=
  let s := p.root ++ "/".intercalate p.parts
  if s.isEmpty then "." else s

def name (p : Path) : String :=
  p.parts.getLast?.getD ""

def isAbsolute (p : Path) : Bool :=
  !p.root.isEmpty

/-- Where a path starts, seen from a place. -/
def start (p : Path) (place : List String) : List String :=
  if p.isAbsolute then [] else place

/-- The place that a part leads to from another. The root is above itself. -/
def follow (place : List String) (part : String) : List String :=
  if part = ".." then place.dropLast else place ++ [part]

/-- The places that parts lead through, up to the last one. -/
def through (place : List String) : List String → List (List String)
  | [] => []
  | part :: rest => place :: through (follow place part) rest

/-- The end of the name from its last dot on. A dot that begins or ends the name does not count. -/
def suffix (p : Path) : String :=
  let s := p.name.toList
  let tail := (s.reverse.takeWhile (· ≠ '.')).reverse
  if tail.isEmpty || s.length ≤ tail.length + 1 then "" else String.ofList ('.' :: tail)

end Path

/-- A directory at some place, and the files that are known. -/
structure Directory where
  place : List String
  files : List (String × String)
  deriving DecidableEq, Repr

inductive Entry where
  | absent
  | directory
  | file (name content : String)
  deriving DecidableEq, Repr

/-- Whether only a directory can stand at a path, which ends with a slash or with dots. -/
def namesDirectory (path : String) : Bool :=
  match (Text.pieces '/' path.toList).getLast? with
  | some last => last = [] || last = ['.'] || last = ['.', '.']
  | none => true

namespace Directory

/-- The place of a path, from the root on. -/
def resolve (d : Directory) (path : String) : List String :=
  let p := Path.ofString path
  p.parts.foldl Path.follow (p.start d.place)

/-- The places that have to be directories for a path to lead anywhere. -/
def through (d : Directory) (path : String) : List (List String) :=
  let p := Path.ofString path
  Path.through (p.start d.place) p.parts

def fileAt? (d : Directory) (place : List String) : Option (String × String) :=
  d.files.find? fun f => d.resolve f.1 == place

/-- Whether a place is this directory, one that a known file's path leads through, or one above such
a directory. -/
def isDirectory (d : Directory) (place : List String) : Bool :=
  (d.place :: d.files.flatMap fun f => d.through f.1).any place.isPrefixOf

def entryAt (d : Directory) (place : List String) : Entry :=
  if d.isDirectory place then .directory
  else
    match d.fileAt? place with
    | some (name, content) => .file name content
    | none => .absent

def entry (d : Directory) (path : String) : Entry :=
  if path.isEmpty || !(d.through path).all d.isDirectory then .absent
  else
    match d.entryAt (d.resolve path) with
    | .file name content => if namesDirectory path then .absent else .file name content
    | other => other

def fileName? (d : Directory) (path : String) : Option String :=
  match d.entry path with
  | .file name _ => some name
  | _ => none

def write (d : Directory) (name content : String) : Directory :=
  let place := d.resolve name
  match d.files.findIdx? fun f => d.resolve f.1 == place with
  | some i => { d with files := d.files.set i (name, content) }
  | none => { d with files := d.files ++ [(name, content)] }

def writeAll (d : Directory) (files : List (String × String)) : Directory :=
  files.foldl (fun d f => d.write f.1 f.2) d

end Directory

end PolicyEditor.File
