/-
Blocks, as far as the choice of a head reads them. The body is present
by its root alone, which makes the root of such a summary the root of
the full block.
-/
import ChainHead.Checkpoint

namespace ChainHead

/-- The number of a validator in the registry. -/
abbrev ValidatorIndex := UInt64

/-- The fields of a block that its root is made of. -/
structure BeaconBlock where
  slot : Slot := 0
  proposerIndex : ValidatorIndex := 0
  parentRoot : Root := 0
  stateRoot : Root := 0
  bodyRoot : Root := 0
  deriving DecidableEq, Repr, Inhabited

namespace BeaconBlock

/-- The chunks under the root of a block. -/
def chunks (b : BeaconBlock) : List Root :=
  [Merkle.uint64Chunk b.slot, Merkle.uint64Chunk b.proposerIndex, b.parentRoot, b.stateRoot,
    b.bodyRoot]

/-- The root of a block under a hash of pairs. -/
def rootBy (hash : PairHash) (b : BeaconBlock) : Root :=
  Merkle.merkleize hash b.chunks

/-- The root of a block. -/
def hashTreeRoot (b : BeaconBlock) : Root :=
  b.rootBy Sha256.pair

end BeaconBlock

end ChainHead
