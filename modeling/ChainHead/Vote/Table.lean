/-
Votes: the latest message of every validator.

A tracker holds two roots. Its owner's balance is counted towards
`current`; it is to be counted towards `next` once weights are brought
up to date, after which `commit` makes the two the same. A vote replaces
`next` only if its target epoch is greater than that of the last one, or
if there was none.
-/
import ChainHead.Epoch
import ChainHead.Block

namespace ChainHead

/-- The latest message of one validator. -/
structure Tracker where
  current : Root := 0
  next : Root := 0
  nextEpoch : Epoch := 0
  deriving DecidableEq, Repr, Inhabited

namespace Tracker

/-- Whether nothing was ever recorded. -/
def isBlank (v : Tracker) : Bool := v = {}

/-- Whether a vote in an epoch would replace the last one. -/
def accepts (v : Tracker) (epoch : Epoch) : Bool :=
  v.nextEpoch < epoch || v.isBlank

/-- The tracker after a vote, and whether the vote was recorded. -/
def record (v : Tracker) (root : Root) (epoch : Epoch) : Tracker × Bool :=
  if v.accepts epoch then ({ v with next := root, nextEpoch := epoch }, true) else (v, false)

/-- The tracker after its vote was counted. -/
def commit (v : Tracker) : Tracker := { v with current := v.next }

end Tracker

/-- The trackers of all validators, by index; validators beyond the end never voted. -/
structure VoteTable where
  trackers : Array Tracker := #[]
  deriving DecidableEq, Repr, Inhabited

namespace VoteTable

/-- The tracker of a validator, if the table reaches that far. -/
def get? (t : VoteTable) (validator : ValidatorIndex) : Option Tracker :=
  t.trackers[validator.toNat]?

/-- The table, made long enough to hold a validator. -/
def reach (t : VoteTable) (validator : ValidatorIndex) : VoteTable :=
  ⟨t.trackers ++ Array.replicate (validator.toNat + 1 - t.trackers.size) default⟩

/-- The table after a vote of a validator, and whether the vote was recorded. -/
def record (t : VoteTable) (validator : ValidatorIndex) (root : Root) (epoch : Epoch) :
    VoteTable × Bool :=
  let t := t.reach validator
  let (tracker, recorded) := (t.trackers.getD validator.toNat default).record root epoch
  (⟨t.trackers.setIfInBounds validator.toNat tracker⟩, recorded)

/-- The table after votes of several validators for one root, and how many were recorded. -/
def recordAll (t : VoteTable) (root : Root) (epoch : Epoch) :
    List ValidatorIndex → VoteTable × Nat
  | [] => (t, 0)
  | validator :: rest =>
    let (t, recorded) := t.record validator root epoch
    let (t, count) := t.recordAll root epoch rest
    (t, (if recorded then 1 else 0) + count)

/-- The table after all votes were counted. -/
def commit (t : VoteTable) : VoteTable :=
  ⟨t.trackers.map Tracker.commit⟩

/-- The root and the epoch of the last vote of a validator. -/
def latestMessage? (t : VoteTable) (validator : ValidatorIndex) : Option (Root × Epoch) := do
  let v ← t.get? validator
  if v.isBlank then none else some (v.next, v.nextEpoch)

end VoteTable

end ChainHead
