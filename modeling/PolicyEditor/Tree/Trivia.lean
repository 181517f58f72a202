import PolicyEditor.Tree.Basic

/-!
Blanks and comments in a tree. The grammar builds a bare tree over the other tokens; `dressScript`
then puts each blank or comment in front of the outermost node that begins after it. So no node but
the root begins or ends with one, and the bare tree decides the shape of the dressed one.
-/

namespace PolicyEditor.Tree

/-- Tokens of `pending` that stand before an offset. -/
def before (pending : List Token) (offset : Nat) : List Token :=
  pending.takeWhile fun t => t.start < offset

/-- Tokens of `pending` from the first one that does not stand before an offset. -/
def notBefore (pending : List Token) (offset : Nat) : List Token :=
  pending.dropWhile fun t => t.start < offset

mutual

/-- Places blanks and comments inside a node; gives those that stand after it. -/
def dress (pending : List Token) : Tree → Tree × List Token
  | .leaf k t => (.leaf k t, pending)
  | .node k a b cs => (.node k a b (dressList pending cs).1, (dressList pending cs).2)

/-- Places each blank or comment in front of the first of these nodes that begins after it. -/
def dressList (pending : List Token) : List Tree → List Tree × List Token
  | [] => ([], pending)
  | c :: cs =>
    let inside := dress (notBefore pending c.start) c
    let after := dressList inside.2 cs
    ((before pending c.start).map ofToken ++ inside.1 :: after.1, after.2)

end

def dressScript (length : Nat) (trivia : List Token) (declarations : List Tree) : Tree :=
  let placed := dressList trivia declarations
  .node .script 0 length (placed.1 ++ placed.2.map ofToken)

mutual

def bare : Tree → Tree
  | .leaf k t => .leaf k t
  | .node k a b cs => .node k a b (bareList cs)

def bareList : List Tree → List Tree
  | [] => []
  | c :: cs => if c.isTrivia then bareList cs else bare c :: bareList cs

end

end PolicyEditor.Tree
