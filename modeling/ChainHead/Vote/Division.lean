/-
Work on the table of votes, divided among workers.

A division is a tree. At a `part`, one worker starts without deltas and
takes a run of neighbouring validators into account; at a `join`, what
came of the two sides is summed. If some sums do not fit, the leftmost is
told. A part may be empty, and `computeDeltas` is what comes of a table
that is not divided at all.

How a table is divided is not for the caller to say. A worker halves what
it was given a few times, which depends on how many workers there are,
and who runs out of work takes a half from another and halves it anew. So
a table may be divided in one way now and in another the next time. A
`Sharing` is any way to divide tables; those that come about in this way
are a `splitting`.

Who comes across a sum that does not fit calls the others off. What they
did not get to is missing from their deltas, so a sum to the left may fit
then, or another one not. Whether all sums fit does not depend on this,
but which position is told if they do not.
-/
import ChainHead.Vote.Delta

namespace ChainHead

open ChainHead.Tree (Error)
open VoteTable (Balances partDeltas sumDeltas)

/-- How a list of trackers is divided among workers. -/
inductive Division where
  | part (trackers : List Tracker)
  | join (left right : Division)
  deriving Repr, Inhabited

/-- What is halved, and which of the halves are halved again. -/
inductive Splits where
  | none
  | half (left right : Splits)
  deriving DecidableEq, Repr, Inhabited

/-- Every half is halved again, down to a depth. -/
def Splits.even : (depth : Nat) → Splits
  | 0 => .none
  | depth + 1 => .half (even depth) (even depth)

namespace Division

/-- The trackers of all parts, from left to right. -/
def trackers : Division → List Tracker
  | part trackers => trackers
  | join left right => left.trackers ++ right.trackers

/-- The deltas that workers come to, if the first tracker is that of the given validator. -/
def deltas (positions : Std.ExtTreeMap Root Nat) (old new : Balances) :
    (validator : Nat) → Division → Except Error (Array Delta)
  | validator, part trackers =>
    partDeltas positions old new (Array.replicate positions.size 0) validator trackers
  | validator, join left right => do
    let fromLeft ← left.deltas positions old new validator
    let fromRight ← right.deltas positions old new (validator + left.trackers.length)
    let sums ← sumDeltas 0 fromLeft.toList fromRight.toList
    return sums.toArray

/-- The work when it is called off: each part misses some of its last trackers, how many depends
on its first validator. A tracker that is missed has no more effect than a blank one. -/
def calledOff (missed : Nat → Nat) : (validator : Nat) → Division → Division
  | validator, part trackers =>
    part (trackers.mapIdx fun i v => if i + missed validator < trackers.length then v else {})
  | validator, join left right =>
    join (left.calledOff missed validator)
      (right.calledOff missed (validator + left.trackers.length))

/-- A list of trackers, halved as told; a single tracker stays as it is. -/
def split : Splits → List Tracker → Division
  | .none, trackers => part trackers
  | .half left right, trackers =>
    if trackers.length < 2 then part trackers
    else join (split left (trackers.take (trackers.length / 2)))
      (split right (trackers.drop (trackers.length / 2)))

theorem trackers_split (splits : Splits) (trackers : List Tracker) :
    (split splits trackers).trackers = trackers := by
  induction splits generalizing trackers with
  | none => rfl
  | half left right ihLeft ihRight =>
      unfold split
      split
      case isTrue => rfl
      case isFalse => simp only [Division.trackers, ihLeft, ihRight, List.take_append_drop]

end Division

/-- A way to divide any list of trackers, and what each part misses if the work is called off. -/
structure Sharing where
  divide : List Tracker → Division
  trackers_divide : ∀ trackers, (divide trackers).trackers = trackers
  missed : Nat → Nat

namespace Sharing

/-- Tables are halved as told, and workers get to the end of their part before they are called
off. -/
def splitting (splits : Splits) : Sharing :=
  ⟨Division.split splits, Division.trackers_split splits, fun _ => 0⟩

/-- Tables are halved down to a depth, as when no worker takes anything from another. -/
def halving (depth : Nat) : Sharing :=
  splitting (.even depth)

/-- One delta for each position, for the whole table, by workers that share it. -/
def deltas (sharing : Sharing) (t : VoteTable) (positions : Std.ExtTreeMap Root Nat)
    (old new : Balances) : Except Error (Array Delta) :=
  let division := sharing.divide t.trackers.toList
  match division.deltas positions old new 0 with
  | .ok deltas => .ok deltas
  | .error e =>
    match (division.calledOff sharing.missed 0).deltas positions old new 0 with
    | .ok _ => .error e
    | .error told => .error told

end Sharing

end ChainHead
