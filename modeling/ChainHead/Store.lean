/-
The store: blocks, votes and balances, from which the head is chosen.

# What is kept

`tree` holds the blocks, `votes` the latest messages, `snapshot` the
justified and finalized checkpoints with the balances that votes are
weighed by. `applied` are the balances that the weights in the tree were
last computed with; it lags behind the snapshot until the head is
updated.

# What a step leaves

A step that can fail answers with a `Step`: the store afterwards and the
result. A failure does not always leave the store as it was: when the
head cannot be found, the weights are up to date all the same, and the
finalized checkpoint is replaced before blocks are dropped.

Blocks and attestations are checked before they get here. A vote for a
block that is unknown when the head is updated counts for nothing.

Workers share the votes when the head is updated. How they do is up to
them, so it is given for each update.
-/
import ChainHead.Metrics
import ChainHead.Tree.Ancestry
import ChainHead.Tree.Prune
import ChainHead.Tree.Score
import ChainHead.Vote.Division

namespace ChainHead

open VoteTable (Balances)

/-- Checkpoints with the balances that go with them; `version` counts the replacements. -/
structure Snapshot where
  version : Nat := 0
  justified : Checkpoint := {}
  finalized : Checkpoint := {}
  balances : Balances := #[]
  deriving DecidableEq, Repr, Inhabited

namespace Snapshot

/-- The snapshot with another justified checkpoint and its balances. -/
def withJustified (s : Snapshot) (checkpoint : Checkpoint) (balances : Balances) : Snapshot :=
  { s with version := s.version + 1, justified := checkpoint, balances }

/-- The snapshot with another finalized checkpoint. -/
def withFinalized (s : Snapshot) (checkpoint : Checkpoint) : Snapshot :=
  { s with version := s.version + 1, finalized := checkpoint }

end Snapshot

/-- Blocks, votes and balances. -/
structure Store where
  tree : Tree
  votes : VoteTable := {}
  snapshot : Snapshot := {}
  applied : Balances := #[]
  metrics : StoreMetrics := {}

/-- What a step leaves behind: the state after it, and its result or why it has none. -/
structure Step (σ ε α : Type) where
  state : σ
  result : Except ε α

namespace Store

/-- Why a step fails. -/
inductive Error where
  | tree (error : Tree.Error)
  | balances (reason : String)
  deriving DecidableEq, Repr

/-- The wording of a failure. -/
def Error.message : Error → String
  | tree error => error.message
  | balances reason => reason

-- ============================================================= making

/-- The number of blocks before the finalized one that are usually kept. -/
def defaultPruneThreshold : Nat := 256

/-- The threshold under which blocks are dropped on every finalization. -/
def aggressivePruneThreshold : Nat := 0

/-- A store without blocks. -/
def empty (justified finalized : Checkpoint) (pruneThreshold : Nat) : Store :=
  { tree := .empty justified.epoch finalized.epoch pruneThreshold
    snapshot := { justified, finalized } }

-- ============================================================== steps

/-- Adds a block with the checkpoints of the state after it; the result is its root. -/
def onBlock (s : Store) (block : BeaconBlock) (justified finalized : Checkpoint) :
    Step Store Error Root :=
  let root := block.hashTreeRoot
  match s.tree.insert block.slot root block.parentRoot block.stateRoot justified.epoch
      finalized.epoch with
  | .error e => ⟨s, .error (.tree e)⟩
  | .ok tree => ⟨{ s with tree, metrics := s.metrics.setBlocks tree.size }, .ok root⟩

/-- Records the votes of all voters of an attestation; votes that are not newer are ignored. -/
def onAttestation (s : Store) (a : IndexedAttestation) : Logged Store := do
  let root := a.data.beaconBlockRoot
  let epoch := a.data.target.epoch
  let (votes, recorded) := s.votes.recordAll root epoch a.indices
  let stale := a.indices.length - recorded
  Logged.noteIf (0 < stale) (.votesStale stale root epoch)
  return { s with votes }

/-- What changed votes and balances do to the weights, by workers that share the table of votes. -/
def deltas (s : Store) (sharing : Sharing) : Except Tree.Error (Array Delta) :=
  sharing.deltas s.votes s.tree.positions s.applied s.snapshot.balances

/-- The store with weights that reflect all votes and the balances of the snapshot. -/
def applyVotes (s : Store) (sharing : Sharing) : Step Store Tree.Error Unit :=
  match s.deltas sharing with
  | .error e => ⟨s, .error e⟩
  | .ok deltas =>
    match s.tree.applyScores deltas s.snapshot.justified.epoch s.snapshot.finalized.epoch with
    | (tree, .error e) => ⟨{ s with tree }, .error e⟩
    | (tree, .ok ()) =>
      ⟨{ s with tree, votes := s.votes.commit, applied := s.snapshot.balances }, .ok ()⟩

/-- The head according to the weights as they are. -/
def head (s : Store) : Except Error Root :=
  (s.tree.findHead s.snapshot.justified.root).mapError .tree

/-- Brings weights up to date, by workers that share the votes, and finds the head. -/
def updateHeadShared (s : Store) (features : Features) (sharing : Sharing) :
    Logged (Step Store Error Root) :=
  let s := { s with metrics := s.metrics.countHeadUpdate }
  match s.applyVotes sharing with
  | ⟨s, .error e⟩ => pure ⟨s, .error (.tree e)⟩
  | ⟨s, .ok ()⟩ =>
    match s.head with
    | .error e => pure ⟨s, .error e⟩
    | .ok head => do
      Logged.noteFor features .logHeadUpdates
        (.headUpdated head s.snapshot.justified s.snapshot.finalized s.tree.size)
      return ⟨s, .ok head⟩

/-- The same by a worker that is alone, who halves the votes once. -/
def updateHead (s : Store) (features : Features) : Logged (Step Store Error Root) :=
  s.updateHeadShared features (.halving 1)

/-- Drops blocks before a finalized one, if enough of them have gathered. -/
def updateFinalizedBlock (s : Store) (root : Root) : Logged (Step Store Error Unit) := do
  match ← s.tree.prune root with
  | (tree, .error e) => return ⟨{ s with tree }, .error (.tree e)⟩
  | (tree, .ok ()) => return ⟨{ s with tree, metrics := s.metrics.setBlocks tree.size }, .ok ()⟩

/-- Replaces the justified checkpoint together with its balances, which are asked for first. -/
def updateJustified (s : Store) (checkpoint : Checkpoint)
    (balancesOf : Checkpoint → Except String Balances) : Logged (Step Store Error Unit) :=
  match balancesOf checkpoint with
  | .error reason => pure ⟨s, .error (.balances reason)⟩
  | .ok balances => do
    Logged.note (.justifiedUpdated checkpoint)
    return ⟨{ s with snapshot := s.snapshot.withJustified checkpoint balances }, .ok ()⟩

/-- Replaces the finalized checkpoint, then drops blocks before it. -/
def updateFinalized (s : Store) (checkpoint : Checkpoint) : Logged (Step Store Error Unit) :=
  { s with snapshot := s.snapshot.withFinalized checkpoint }.updateFinalizedBlock checkpoint.root

/-- The store with another threshold for dropping blocks. -/
def setPruneThreshold (s : Store) (threshold : Nat) : Store :=
  { s with tree := s.tree.setPruneThreshold threshold }

end Store

end ChainHead
