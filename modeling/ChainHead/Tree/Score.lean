/-
Weights and best links.

`applyScores` takes one delta for each block, which is the change of the
weight that votes give to the block itself, and does two passes over the
array from its end, so that children come before their parents.

The first pass adds the delta of each block to its weight and to the
delta of its parent. It only computes: if one of the sums does not fit,
nothing has changed. The second pass tells each block about each of its
children in turn, by `offerChild`, which keeps the better of the child
and the best child so far. It runs when all weights are final, because
it compares siblings.
-/
import ChainHead.Tree.Basic

namespace ChainHead.Tree

-- =========================================================== weights

/-- The weights of the blocks below a position and of those given, with deltas moved to parents. -/
def settleWeights (nodes : Array Node) :
    (position : Nat) → Array Delta → List Gwei → Except Error (List Gwei)
  | 0, _, weights => .ok weights
  | k + 1, deltas, weights => do
    let some delta := deltas[k]? | throw (.noDelta k)
    let some node := nodes[k]? | throw (.noNode k)
    let some weight := Word.move? node.weight delta | throw (.overflow k)
    match node.parent with
    | none => settleWeights nodes k deltas (weight :: weights)
    | some p =>
      let some parentDelta := deltas[p]? | throw (.noParentDelta p)
      let some sum := Word.addSigned? parentDelta delta | throw (.overflow p)
      settleWeights nodes k (deltas.setIfInBounds p sum) (weight :: weights)

-- ======================================================== best links

/-- Whether a child is to be preferred to another by weight, or by root if they are equally heavy. -/
def outranks (child other : Node) : Bool :=
  if child.weight = other.weight then other.root ≤ child.root else other.weight < child.weight

/-- The links of a parent to its best child and best descendant, after a look at one child. -/
def linksAfter (t : Tree) (child : Nat) (p c : Node) :
    Except Error (Option Nat × Option Nat) := do
  let eligible ← t.leadsToHead c
  let toNone := (none, none)
  let toChild := (some child, some (c.bestDescendant.getD child))
  let noChange := (p.bestChild, p.bestDescendant)
  match p.bestChild with
  | none => return if eligible then toChild else noChange
  | some best =>
    if best = child then return if eligible then toChild else toNone
    let some b := t.nodes[best]? | throw (.noBestChild best)
    match eligible, ← t.leadsToHead b with
    | true, false => return toChild
    | false, true => return noChange
    | false, false => return toNone
    | true, true => return if outranks c b then toChild else noChange

/-- The tree after a parent has looked at one of its children. -/
def offerChild (t : Tree) (parent child : Nat) : Except Error Tree := do
  let some c := t.nodes[child]? | throw (.noNode child)
  let some p := t.nodes[parent]? | throw (.noNode parent)
  let (bestChild, bestDescendant) ← t.linksAfter child p c
  return { t with nodes := t.nodes.setIfInBounds parent { p with bestChild, bestDescendant } }

/-- The tree after every block below a position, from the last to the first, was offered to its
parent; on failure, the tree as far as it came. -/
def refreshLinks : (position : Nat) → Tree → Tree × Except Error Unit
  | 0, t => (t, .ok ())
  | k + 1, t =>
    match (t.nodes[k]?).bind (·.parent) with
    | none => refreshLinks k t
    | some p =>
      match t.offerChild p k with
      | .error e => (t, .error e)
      | .ok t => refreshLinks k t

-- ======================================================== both passes

/-- The array with weights replaced. -/
def withWeights (nodes : Array Node) (weights : List Gwei) : Array Node :=
  nodes.zipWith (fun n w => { n with weight := w }) weights.toArray

/-- Applies deltas and epochs, and brings all links up to date. -/
def applyScores (t : Tree) (deltas : Array Delta) (justifiedEpoch finalizedEpoch : Epoch) :
    Tree × Except Error Unit :=
  if deltas.size ≠ t.size then (t, .error (.deltaCount deltas.size t.size))
  else
    match settleWeights t.nodes t.size deltas [] with
    | .error e => (t, .error e)
    | .ok weights =>
      refreshLinks t.size
        { t with nodes := withWeights t.nodes weights, justifiedEpoch, finalizedEpoch }

end ChainHead.Tree
