/-
Dropping blocks that came before the finalized one.

Nothing happens until enough blocks precede the finalized block. Then
all of them are dropped and every position shrinks by their number. A
block that arrived after the finalized block stays, whether or not it
descends from it; if its parent is dropped, it has no parent from then
on.
-/
import ChainHead.Log
import ChainHead.Tree.Basic

namespace ChainHead.Tree

/-- A position after the first `count` are dropped. -/
def shift? (count position : Nat) : Option Nat :=
  if count ≤ position then some (position - count) else none

/-- An entry with its links shifted; a link to a dropped parent goes, any other has to stay. -/
def shiftNode (count : Nat) (n : Node) : Except Error Node := do
  let bestChild ← match n.bestChild with
    | none => pure none
    | some i => match shift? count i with
      | some j => pure (some j)
      | none => throw (.noBestChild i)
  let bestDescendant ← match n.bestDescendant with
    | none => pure none
    | some i => match shift? count i with
      | some j => pure (some j)
      | none => throw (.noBestDescendant i)
  return { n with parent := n.parent.bind (shift? count), bestChild, bestDescendant }

/-- The positions shifted, all of which have to stay. -/
def shiftPositions (count : Nat) (positions : Std.ExtTreeMap Root Nat) :
    Except Error (Std.ExtTreeMap Root Nat) :=
  match positions.toList.find? fun (_, i) => i < count with
  | some (_, i) => .error (.positionPruned i)
  | none => .ok (positions.map fun _ i => i - count)

/-- Drops the blocks before the finalized one once there are enough of them; on failure, leaves the
tree as far as it came. -/
def prune (t : Tree) (finalizedRoot : Root) : Logged (Tree × Except Error Unit) :=
  match t.position? finalizedRoot with
  | none => pure (t, .error (.finalizedUnknown finalizedRoot))
  | some count =>
    if count < t.pruneThreshold then pure (t, .ok ())
    else
      let dropped := (t.nodes.extract 0 count).toList.map (·.root)
      let kept := t.nodes.extract count t.nodes.size
      let drained := { t with
        nodes := kept
        positions := dropped.foldl (fun m root => m.erase root) t.positions }
      match shiftPositions count drained.positions with
      | .error e => pure (drained, .error e)
      | .ok positions =>
        match kept.toList.mapM (shiftNode count) with
        | .error e => pure ({ drained with positions }, .error e)
        | .ok nodes => do
          Logged.note (.blocksPruned count finalizedRoot nodes.length)
          return ({ drained with positions, nodes := nodes.toArray }, .ok ())

end ChainHead.Tree
