import CanonicalLR.Parser

/-!
# Parse trees

The tree that the moves of a run stand for: a shift is a leaf, and a reduction takes as many of the
latest trees as its rule has symbols on the right side and makes them the children of a node.
-/
namespace CanonicalLR

inductive Tree where
  | leaf (t : TerminalId)
  | node (rule : RuleId) (children : List Tree)
deriving Repr

namespace Tree

/-- Make moves on a stack of trees, the latest first. -/
def grow (g : Grammar) (stack : List Tree) : Move → List Tree
  | .shift t => .leaf t :: stack
  | .reduce rule =>
    let width := (g.rule rule).right.length
    .node rule (stack.take width).reverse :: stack.drop width
  | .accept => stack

/-- The tree of a run, which is what its moves leave on the stack. -/
def ofMoves? (g : Grammar) (moves : List Move) : Option Tree :=
  match moves.foldl (grow g) [] with
  | [t] => some t
  | _ => none

end Tree

end CanonicalLR
