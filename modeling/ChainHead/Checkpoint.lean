/-
Checkpoints: a block that was justified or finalized, at an epoch.
-/
import ChainHead.Epoch
import ChainHead.Merkle
import ChainHead.Sha256

namespace ChainHead

/-- A block together with the epoch it stands for. -/
structure Checkpoint where
  epoch : Epoch := 0
  root : Root := 0
  deriving DecidableEq, Repr, Inhabited

namespace Checkpoint

/-- The chunks under the root of a checkpoint. -/
def chunks (c : Checkpoint) : List Root :=
  [Merkle.uint64Chunk c.epoch, c.root]

/-- The root of a checkpoint under a hash of pairs. -/
def rootBy (hash : PairHash) (c : Checkpoint) : Root :=
  Merkle.merkleize hash c.chunks

/-- The root of a checkpoint. -/
def hashTreeRoot (c : Checkpoint) : Root :=
  c.rootBy Sha256.pair

/-- A checkpoint in messages. -/
def text (c : Checkpoint) : String :=
  s!"Checkpoint \x7b epoch: {c.epoch.toNat}, root: {Bytes.hex c.root} \x7d"

end Checkpoint

end ChainHead
