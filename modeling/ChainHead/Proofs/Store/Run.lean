/-
Runs of a store: any calls, in any order and number, the failed ones
included.

# Histories

A run is the list of its calls, newest first, so that what came before
a call is the tail of the list. `after` replays it. What a run means is
read off the list alone: `votesBy` are the votes of a validator in the
order in which they arrived, `latestMessage?` is the one that counts,
`imported` are the roots of the blocks.

# Promises

The store checks little of what it is told. `Funded` says what every
run has to promise for the arithmetic to be exact: no block has the root
that stands for "no vote", and no list of balances sums to more than a
delta can hold. `Orderly` adds what a careful caller promises: a vote
that is recorded names a block that is there, and no block comes back
once it was dropped.
-/
import ChainHead.Proofs.Vote.Tracked
import ChainHead.Store
import Mathlib.Data.List.MinMax

namespace ChainHead

namespace Store

open VoteTable (Balances total)

-- =============================================================== calls

/-- What can be asked of a store. -/
inductive Call where
  | block (block : BeaconBlock) (justified finalized : Checkpoint)
  | attestation (attestation : IndexedAttestation)
  | justified (checkpoint : Checkpoint)
      (balancesOf : Checkpoint → Except String Balances)
  | finalized (checkpoint : Checkpoint)
  | finalizedBlock (root : Root)
  | pruneThreshold (threshold : Nat)
  | head (features : Features) (sharing : Sharing)

/-- The store after one call, whether that failed or not. -/
def call (s : Store) : Call → Store
  | .block b justified finalized => (s.onBlock b justified finalized).state
  | .attestation a => (s.onAttestation a).value
  | .justified checkpoint balancesOf =>
    (s.updateJustified checkpoint balancesOf).value.state
  | .finalized checkpoint => (s.updateFinalized checkpoint).value.state
  | .finalizedBlock root => (s.updateFinalizedBlock root).value.state
  | .pruneThreshold threshold => s.setPruneThreshold threshold
  | .head features sharing => (s.updateHeadShared features sharing).value.state

/-- The store after a run, given newest call first. -/
def after (start : Store) : List Call → Store
  | [] => start
  | c :: earlier => (after start earlier).call c

-- ============================================================= history

/-- The roots of all blocks a run was told of. -/
def imported (calls : List Call) : List Root :=
  calls.filterMap fun
    | .block b _ _ => some b.hashTreeRoot
    | _ => none

/-- The votes of a validator, as roots with their target epochs, in the
order of their arrival. -/
def votesBy (v : Nat) : List Call → List (Root × Epoch)
  | [] => []
  | .attestation a :: earlier =>
    if v ∈ a.indices.map (·.toNat) then
      votesBy v earlier ++ [(a.data.beaconBlockRoot, a.data.target.epoch)]
    else votesBy v earlier
  | _ :: earlier => votesBy v earlier

/-- The vote of a validator that counts: of those with the greatest
target epoch, the one that arrived first. -/
def latestMessage? (calls : List Call) (v : Nat) : Option (Root × Epoch) :=
  (votesBy v calls).argmax fun m => m.2.toNat

-- ============================================================ promises

/-- Whether a call leaves the arithmetic of weights exact: a block has a
root other than zero, balances sum to less than `2 ^ 63`. -/
def Call.Funded : Call → Prop
  | .block b _ _ => b.hashTreeRoot ≠ 0
  | .justified checkpoint balancesOf =>
    total ((balancesOf checkpoint).toOption.getD #[]) < 2 ^ 63
  | _ => True

/-- Whether a call comes in order: a vote that is recorded names a block
that is there, a block was not dropped before. -/
def Call.InOrder (start : Store) (earlier : List Call) : Call → Prop
  | .block b _ _ => b.hashTreeRoot ∈ imported earlier →
      (start.after earlier).tree.contains b.hashTreeRoot
  | .attestation a => ∀ v ∈ a.indices,
      ((start.after earlier).votes.tracker v.toNat).accepts a.data.target.epoch →
      (start.after earlier).tree.contains a.data.beaconBlockRoot
  | _ => True

/-- Every call of a run is funded. -/
def Funded (calls : List Call) : Prop :=
  ∀ c ∈ calls, c.Funded

/-- Every call of a run is funded and came in order. -/
def Orderly (start : Store) : List Call → Prop
  | [] => True
  | c :: earlier => Orderly start earlier ∧ c.Funded ∧ c.InOrder start earlier

-- ============================================== promises can be checked

instance : (c : Call) → Decidable c.Funded
  | .block b _ _ => inferInstanceAs (Decidable (b.hashTreeRoot ≠ 0))
  | .justified checkpoint balancesOf =>
    inferInstanceAs (Decidable (total ((balancesOf checkpoint).toOption.getD #[]) < 2 ^ 63))
  | .attestation _ | .finalized _ | .finalizedBlock _ | .pruneThreshold _ | .head _ _ =>
    isTrue trivial

instance (calls : List Call) : Decidable (Funded calls) :=
  List.decidableBAll Call.Funded calls

instance (start : Store) (earlier : List Call) :
    (c : Call) → Decidable (c.InOrder start earlier)
  | .block b _ _ => inferInstanceAs (Decidable (b.hashTreeRoot ∈ imported earlier →
      (start.after earlier).tree.contains b.hashTreeRoot))
  | .attestation a => List.decidableBAll
      (fun v : ValidatorIndex =>
        ((start.after earlier).votes.tracker v.toNat).accepts a.data.target.epoch →
        (start.after earlier).tree.contains a.data.beaconBlockRoot)
      a.indices
  | .justified _ _ | .finalized _ | .finalizedBlock _ | .pruneThreshold _ | .head _ _ =>
    isTrue trivial

instance (start : Store) : (calls : List Call) → Decidable (Orderly start calls)
  | [] => isTrue trivial
  | c :: earlier =>
    have := instDecidableOrderly start earlier
    inferInstanceAs (Decidable (Orderly start earlier ∧ c.Funded ∧ c.InOrder start earlier))

end Store

end ChainHead
