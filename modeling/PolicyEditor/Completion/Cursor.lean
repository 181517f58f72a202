import PolicyEditor.Completion.Basic
import PolicyEditor.Tree.Basic

/-!
Completion at a cursor. What stands before the cursor on its line decides: a path, the beginning of
a root, or a word; inside strings and comments, in package and import paths and after a path that
leads nowhere there is nothing to complete.
-/

namespace PolicyEditor.Completion

open PolicyEditor.Schema (Context Root)
open PolicyEditor.Text (isBlank isWord isDecimal isNameStart isNameChar)

def wordItem (category : Category) (label info : String) : Item :=
  ⟨label, category, none, some info, false⟩

def wordItems : List Item :=
  [wordItem .keyword "package" "Package declaration",
   wordItem .keyword "import" "Import statement",
   wordItem .keyword "default" "Default rule value",
   wordItem .keyword "some" "Existential quantifier",
   wordItem .keyword "every" "Universal quantifier",
   wordItem .keyword "if" "Conditional clause",
   wordItem .keyword "else" "Else clause",
   wordItem .keyword "contains" "Partial set rule",
   wordItem .keyword "with" "Mock/replace value",
   wordItem .keyword "in" "Set membership",
   wordItem .keyword "not" "Negation",
   wordItem .keyword "as" "Alias",
   wordItem .constant "true" "Boolean true",
   wordItem .constant "false" "Boolean false",
   wordItem .constant "null" "Null value",
   wordItem .function "set" "Empty set constructor"]

structure Result where
  start : Nat
  items : List Item
  deriving DecidableEq, Repr

/-- The text after what a bracket can hold in a policy's path: `_`, a number or a string without
escapes. -/
def afterIndex? (s : List Char) : Option (List Char) :=
  match Text.stripStart s with
  | '_' :: rest => Path.afterBracket? rest
  | '"' :: rest =>
    match rest.dropWhile (· ≠ '"') with
    | '"' :: after => Path.afterBracket? after
    | _ => none
  | s => if s.head?.any isDecimal then Path.afterBracket? (s.dropWhile isDecimal) else none

def afterPart? : List Char → Option (List Char)
  | '.' :: c :: rest => if isNameStart c then some (rest.dropWhile isNameChar) else none
  | '[' :: rest => afterIndex? rest
  | _ => none

/-- The text after as many parts of a path as there are. The first argument bounds their number. -/
def afterParts : (rounds : Nat) → List Char → List Char
  | 0, s => s
  | rounds + 1, s =>
    match afterPart? s with
    | some rest => afterParts rounds rest
    | none => s

def afterPath? (s : List Char) : Option (List Char) :=
  (Path.root? s).map fun (_, rest) => afterParts rest.length rest

/-- Whether a path may begin after a character: not within a word, nor after a dot. -/
def pathMayFollow : Option Char → Bool
  | none => true
  | some c => !isWord c && c != '.'

/-- Whether a text is a path to its end, with a dot and part of a name after it or not. -/
def isTypedPath (s : List Char) : Bool :=
  match afterPath? s with
  | none => false
  | some [] => true
  | some (c :: rest) => c == '.' && rest.all isNameChar

/-- The longest ending of a text that has property `p` and may begin after what precedes it. -/
def endingWith? (mayFollow : Option Char → Bool) (p : List Char → Bool) (last : Option Char) :
    List Char → Option (List Char)
  | [] => if mayFollow last && p [] then some [] else none
  | c :: rest =>
    if mayFollow last && p (c :: rest) then some (c :: rest)
    else endingWith? mayFollow p (some c) rest

def typedPath? (before : List Char) : Option (List Char) :=
  endingWith? pathMayFollow isTypedPath none before

def isTypedRoot (s : List Char) : Bool :=
  minRootLength ≤ s.length && roots.any fun r => s.isPrefixOf r.name.toList

def typedRoot? (before : List Char) : Option (List Char) :=
  endingWith? pathMayFollow isTypedRoot none before

def typedWord (before : List Char) : List Char :=
  ((before.reverse.takeWhile isNameChar).reverse).dropWhile fun c => !isNameStart c

def isDeclaration (s : List Char) : Bool :=
  let path (rest : List Char) : Bool :=
    rest.head?.any isBlank && (Text.stripStart rest).all fun c => isWord c || c == '.'
  (Text.afterWord? "package" s).any path || (Text.afterWord? "import" s).any path

def inDeclaration (before : List Char) : Bool :=
  (endingWith? (fun last => !last.any isWord) isDeclaration none before).isSome

/-- Whether a leaf hides an offset from completion: strings do inside their quotes, comments and
strings that never close also at their end. -/
def hides (leaf : Tree) (offset : Nat) : Bool :=
  leaf.start < offset &&
    match leaf with
    | .leaf .string _ | .leaf .rawString _ => offset < leaf.stop
    | .leaf .comment _ => offset ≤ leaf.stop
    | .leaf .invalid t => t.chars.head?.any (fun c => c == '"' || c == '`') && offset ≤ leaf.stop
    | _ => false

def insideOpaque (tree : Tree) (offset : Nat) : Bool :=
  (tree.leafAt offset).any fun (leaf, _) => hides leaf offset

def lineBefore (source : List Char) (offset : Nat) : List Char :=
  ((source.take offset).reverse.takeWhile (· ≠ '\n')).reverse

def clamp (length : Nat) (offset : Int) : Nat :=
  min offset.toNat length

/-- The candidates that replace the last `typed` characters before an offset. -/
def replacing (offset : Nat) (typed : List Char) (items : List Item) : Result :=
  ⟨offset - typed.length, items⟩

/-- The part of a typed path that candidates replace: what follows the last dot, or all of it. -/
def replacedPart (typed : List Char) : List Char :=
  match splitLastDot? typed with
  | some (_, tail) => tail
  | none => typed

def completePath? (context : Context) (before : List Char) (offset : Nat) :
    Except Path.KeyError (Option Result) :=
  match typedPath? before with
  | none => .ok none
  | some typed => do
    match ← pathItems context typed with
    | [] => return none
    | items => return some (replacing offset (replacedPart typed) items)

def completeRoot? (context : Context) (before : List Char) (offset : Nat) : Option Result :=
  (typedRoot? before).bind fun typed =>
    match rootItems context typed with
    | [] => none
    | items => some (replacing offset typed items)

/-- The candidates for the word before the cursor; none after a path or in a declaration. -/
def completeWord? (before : List Char) (offset : Nat) : Option Result :=
  if before.getLast?.any (fun c => c == '.' || c == ']') || inDeclaration before then none
  else
    let word := typedWord before
    some (replacing offset word
      (wordItems.filter fun item => word.isPrefixOf item.label.toList))

def complete (tree : Tree) (source : List Char) (offset : Int) (context : Context) :
    Except Path.KeyError (Option Result) :=
  let offset := clamp source.length offset
  if insideOpaque tree offset then .ok none
  else do
    -- A path wins over the beginning of a root, and that over a word.
    let before := lineBefore source offset
    match ← completePath? context before offset with
    | some found => return some found
    | none =>
      match completeRoot? context before offset with
      | some found => return some found
      | none => return completeWord? before offset

end PolicyEditor.Completion
