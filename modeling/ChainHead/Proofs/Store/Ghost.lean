/-
The head by definition: a walk down the heaviest viable subtrees.

The reference reads only what cannot be stale. Of the tree it sees the
outline, which is each block's root, its parent's root and its epochs,
and no weight and no link to a best block; of the votes it sees the
latest message of each validator. Everything else is counted anew for
every question. A block is named by its root throughout, so positions
do not matter to the reference.
-/
import ChainHead.Store
import Mathlib.Algebra.BigOperators.Group.Finset.Basic
import Mathlib.Data.List.MinMax
import Mathlib.Data.Prod.Lex

namespace ChainHead

open VoteTable (Balances)

/-- What the reference knows of a block. -/
structure Ghost where
  root : Root
  /-- The root of the parent, if that is linked. -/
  parent : Option Root
  justifiedEpoch : Epoch
  finalizedEpoch : Epoch
  deriving DecidableEq, Repr, Inhabited

/-- What the reference knows of a block of a tree. -/
def Tree.ghost (t : Tree) (n : Node) : Ghost :=
  { root := n.root
    parent := n.parent.bind fun p => t.nodes[p]?.map (·.root)
    justifiedEpoch := n.justifiedEpoch
    finalizedEpoch := n.finalizedEpoch }

/-- The blocks of a tree with their parent links, without all that is
kept up to date by increments. -/
def Tree.outline (t : Tree) : List Ghost :=
  t.nodes.toList.map t.ghost

namespace Ghost

variable (blocks : List Ghost)

/-- The block with a root. -/
def find? (root : Root) : Option Ghost :=
  blocks.find? fun b => b.root == root

/-- The roots on the path of parent links from a root, of at most the
given number of blocks. -/
def lineage : (steps : Nat) → Root → List Root
  | 0, _ => []
  | steps + 1, root =>
    match find? blocks root with
    | none => []
    | some b => root :: (b.parent.map (lineage steps)).getD []

/-- Whether a root lies in the subtree of another. -/
def isUnder (top root : Root) : Bool :=
  top ∈ lineage blocks blocks.length root

/-- The balances of all validators that voted for the subtree of a root. -/
def weight (vote? : Nat → Option Root) (balances : Balances) (top : Root) : Nat :=
  ∑ v ∈ Finset.range balances.size,
    match vote? v with
    | some root => if isUnder blocks top root then (balances.getD v 0).toNat else 0
    | none => 0

/-- Whether a block agrees with the epochs of a snapshot. -/
def isViable (snapshot : Snapshot) (b : Ghost) : Bool :=
  Tree.agrees b.justifiedEpoch snapshot.justified.epoch
    && Tree.agrees b.finalizedEpoch snapshot.finalized.epoch

/-- Whether there is a viable block in the subtree of a root. -/
def leads (snapshot : Snapshot) (top : Root) : Bool :=
  blocks.any fun b => isUnder blocks top b.root && isViable snapshot b

/-- The child to step to: of those that lead to a viable block, the
heaviest, or of several the one with the greatest root. -/
def best? (vote? : Nat → Option Root) (snapshot : Snapshot) (b : Ghost) : Option Ghost :=
  (blocks.filter fun c => c.parent == some b.root && leads blocks snapshot c.root).argmax
    fun c => toLex (weight blocks vote? snapshot.balances c.root, c.root.toNat)

/-- The block at which steps to the best child end. -/
def walk (vote? : Nat → Option Root) (snapshot : Snapshot) : (steps : Nat) → Ghost → Ghost
  | 0, b => b
  | steps + 1, b =>
    match best? blocks vote? snapshot b with
    | none => b
    | some c => walk vote? snapshot steps c

/-- The head: where the walk from the justified block ends, if a head can
be there. -/
def head (vote? : Nat → Option Root) (snapshot : Snapshot) : Except Tree.Error Root :=
  match find? blocks snapshot.justified.root with
  | none => .error (.justifiedUnknown snapshot.justified.root)
  | some b =>
    let last := walk blocks vote? snapshot blocks.length b
    if isViable snapshot last then .ok last.root
    else .error (.headNotViable last.root last.justifiedEpoch last.finalizedEpoch
      snapshot.justified.epoch snapshot.finalized.epoch)

end Ghost

end ChainHead
