import PolicyEditor.Text.Quoted
import PolicyEditor.Tree.Basic

/-!
Outlines: a tree as text, one node a line, two spaces deeper for each level.
-/

namespace PolicyEditor.Tree

def outlineLine (depth : Nat) (t : Tree) : String :=
  let indent := String.ofList (List.replicate (2 * depth) ' ')
  match t with
  | .leaf k token => indent ++ k.name ++ " " ++ String.ofList (Text.quoted token.chars)
  | .node k a b _ => indent ++ k.name ++ " [" ++ toString a ++ ", " ++ toString b ++ ")"

mutual

def outlineLines (trivia : Bool) (depth : Nat) : Tree → List String
  | .leaf k t => if !trivia && k.isTrivia then [] else [outlineLine depth (.leaf k t)]
  | .node k a b cs =>
    if !trivia && k.isTrivia then []
    else outlineLine depth (.node k a b cs) :: outlineLinesOfList trivia (depth + 1) cs

def outlineLinesOfList (trivia : Bool) (depth : Nat) : List Tree → List String
  | [] => []
  | c :: cs => outlineLines trivia depth c ++ outlineLinesOfList trivia depth cs

end

def outline (t : Tree) (indent : Nat) (trivia : Bool) : String :=
  String.intercalate "\n" (outlineLines trivia indent t)

end PolicyEditor.Tree
