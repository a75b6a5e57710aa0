/-
Paths of parent links. `ancestors` is the path from a block towards the
oldest block it is linked to; the two questions asked of it stop as soon
as slots tell the answer, since a block is later than its parent.
-/
import ChainHead.Tree.Basic

namespace ChainHead.Tree

/-- The path of parent links from a position, of at most the given number of blocks. -/
def pathFrom (nodes : Array Node) : (steps : Nat) → Option Nat → List Node
  | steps + 1, some i =>
    match nodes[i]? with
    | some n => n :: pathFrom nodes steps n.parent
    | none => []
  | _, _ => []

/-- A block and its known ancestors, newest first; parents come before their children, so no
path is longer than the array. -/
def ancestors (t : Tree) (root : Root) : List Node :=
  pathFrom t.nodes t.size (t.position? root)

/-- The newest block at or before a slot among a block and its ancestors. -/
def ancestorAtSlot? (t : Tree) (root : Root) (slot : Slot) : Option Root :=
  ((t.ancestors root).find? fun n => n.slot ≤ slot).map (·.root)

/-- Whether one block is the other or one of its ancestors. -/
def isDescendant (t : Tree) (ancestor descendant : Root) : Bool :=
  match t.node? ancestor with
  | none => false
  | some a =>
    ((t.ancestors descendant).takeWhile fun n => a.slot ≤ n.slot).any fun n => n.root == ancestor

end ChainHead.Tree
