/-
The block tree: every block that may still matter, with its weight and
with links to the best child and the best descendant.

# Positions

Blocks stand in an array in the order in which they arrived, so a parent
that is known when its child arrives has the smaller position; links are
positions. `positions` finds a block by its root. A block whose parent
is not in the tree is the root of a tree of its own, and stays that.

# Viability

A block is viable as a head if the state after it agrees with the tree's
justified and finalized epochs; before the first justification or
finalization every block agrees. Best descendants are always viable,
`leadsToHead` says that a block or its best descendant is.
-/
import ChainHead.Block
import Std.Data.ExtTreeMap

namespace ChainHead

/-- A balance, or a sum of balances. -/
abbrev Gwei := UInt64

/-- A change of a weight. -/
abbrev Delta := Int64

/-- A block in the tree. -/
structure Node where
  slot : Slot
  root : Root
  parentRoot : Root
  stateRoot : Root
  /-- The position of the parent, if it was known when the block arrived and is still there. -/
  parent : Option Nat
  justifiedEpoch : Epoch
  finalizedEpoch : Epoch
  weight : Gwei := 0
  bestChild : Option Nat := none
  bestDescendant : Option Nat := none
  deriving DecidableEq, Repr, Inhabited

/-- The blocks that may still matter. -/
structure Tree where
  /-- How many blocks have to precede the finalized one before they are dropped. -/
  pruneThreshold : Nat
  justifiedEpoch : Epoch
  finalizedEpoch : Epoch
  nodes : Array Node := #[]
  positions : Std.ExtTreeMap Root Nat := ∅

namespace Tree

-- ============================================================ errors

/-- Why an operation on a tree fails. -/
inductive Error where
  | blockAlreadyKnown (root : Root)
  | deltaCount (deltas nodes : Nat)
  | noNode (position : Nat)
  | noDelta (position : Nat)
  | noParentDelta (position : Nat)
  | noBestChild (position : Nat)
  | noBestDescendant (position : Nat)
  | overflow (position : Nat)
  | positionPruned (position : Nat)
  | justifiedUnknown (root : Root)
  | finalizedUnknown (root : Root)
  | headNotViable (root : Root) (nodeJustified nodeFinalized treeJustified treeFinalized : Epoch)
  deriving DecidableEq, Repr

/-- The wording of a failure. -/
def Error.message : Error → String
  | blockAlreadyKnown root => s!"block {Bytes.hex root} has already been added"
  | deltaCount deltas nodes =>
    s!"number of deltas ({deltas}) does not match number of nodes ({nodes})"
  | noNode position => s!"node index {position} is out of bounds"
  | noDelta position => s!"delta index {position} is out of bounds"
  | noParentDelta position => s!"parent delta index {position} is out of bounds"
  | noBestChild position => s!"best child index {position} is out of bounds"
  | noBestDescendant position => s!"best descendant index {position} is out of bounds"
  | overflow position => s!"weight or delta of node {position} overflowed"
  | positionPruned position => s!"index {position} points into the pruned part of the array"
  | justifiedUnknown root => s!"justified root {Bytes.hex root} is not known"
  | finalizedUnknown root => s!"finalized root {Bytes.hex root} is not known"
  | headNotViable root nodeJustified nodeFinalized treeJustified treeFinalized =>
    s!"best node {Bytes.hex root} is not viable for head " ++
    s!"(node justified epoch: {nodeJustified.toNat}, " ++
    s!"node finalized epoch: {nodeFinalized.toNat}, " ++
    s!"store justified epoch: {treeJustified.toNat}, " ++
    s!"store finalized epoch: {treeFinalized.toNat})"

-- =========================================================== look-ups

/-- A tree without blocks. -/
def empty (justifiedEpoch finalizedEpoch : Epoch) (pruneThreshold : Nat) : Tree :=
  { pruneThreshold, justifiedEpoch, finalizedEpoch }

/-- The number of blocks. -/
def size (t : Tree) : Nat := t.nodes.size

/-- Whether there are no blocks. -/
def isEmpty (t : Tree) : Bool := t.nodes.isEmpty

/-- The position of a block. -/
def position? (t : Tree) (root : Root) : Option Nat := t.positions[root]?

/-- Whether a block is in the tree. -/
def contains (t : Tree) (root : Root) : Bool := t.positions.contains root

/-- The entry of a block. -/
def node? (t : Tree) (root : Root) : Option Node := do
  t.nodes[← t.position? root]?

/-- The slot of a block. -/
def slot? (t : Tree) (root : Root) : Option Slot := (t.node? root).map (·.slot)

/-- The root that a block names as its parent, whether or not that is in the tree. -/
def parentRoot? (t : Tree) (root : Root) : Option Root := (t.node? root).map (·.parentRoot)

/-- The weight of a block. -/
def weight? (t : Tree) (root : Root) : Option Gwei := (t.node? root).map (·.weight)

/-- The tree with another threshold for pruning. -/
def setPruneThreshold (t : Tree) (threshold : Nat) : Tree :=
  { t with pruneThreshold := threshold }

-- ========================================================== insertion

/-- Adds a block, without weight and without links from its parent. -/
def insert (t : Tree) (slot : Slot) (root parentRoot stateRoot : Root)
    (justifiedEpoch finalizedEpoch : Epoch) : Except Error Tree :=
  if t.contains root then .error (.blockAlreadyKnown root)
  else .ok { t with
    nodes := t.nodes.push
      { slot, root, parentRoot, stateRoot, parent := t.position? parentRoot,
        justifiedEpoch, finalizedEpoch }
    positions := t.positions.insert root t.nodes.size }

-- ========================================================== viability

/-- Whether an epoch agrees with the tree's, of which the genesis epoch agrees with all. -/
def agrees (node tree : Epoch) : Bool :=
  node == tree || tree == Epoch.genesis

/-- Whether a block can be the head. -/
def isViable (t : Tree) (n : Node) : Bool :=
  agrees n.justifiedEpoch t.justifiedEpoch && agrees n.finalizedEpoch t.finalizedEpoch

/-- Whether a block or its best descendant can be the head. -/
def leadsToHead (t : Tree) (n : Node) : Except Error Bool :=
  match n.bestDescendant with
  | none => .ok (t.isViable n)
  | some i =>
    match t.nodes[i]? with
    | none => .error (.noBestDescendant i)
    | some d => .ok (t.isViable d || t.isViable n)

-- =============================================================== head

/-- The best descendant of a block, or the block itself if it has none. -/
def findHead (t : Tree) (justifiedRoot : Root) : Except Error Root := do
  let some start := t.position? justifiedRoot | throw (.justifiedUnknown justifiedRoot)
  let some justified := t.nodes[start]? | throw (.noNode start)
  let best := justified.bestDescendant.getD start
  let some head := t.nodes[best]? | throw (.noBestDescendant best)
  if t.isViable head then return head.root
  throw (.headNotViable head.root head.justifiedEpoch head.finalizedEpoch t.justifiedEpoch
    t.finalizedEpoch)

end Tree

end ChainHead
