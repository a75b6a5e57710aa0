/-
Deltas: what changed votes and changed balances do to weights.

Each validator's old balance is taken from the block it is counted
towards and its new balance is given to the block it voted for last.
Roots without a position, which were dropped or never seen, take no part,
and a validator without a balance counts as having none.

The table can be worked off in parts, `partDeltas`, whose results are
summed by `sumDeltas`; `computeDeltas` is the case of one part.
-/
import ChainHead.Tree.Basic
import ChainHead.Vote.Table

namespace ChainHead.VoteTable

open ChainHead.Tree (Error)

/-- A list of balances by validator index. -/
abbrev Balances := Array Gwei

/-- Deltas with an amount added or taken at a position. -/
def shiftDelta (apply : Delta → Delta → Option Delta) (deltas : Array Delta) (position : Nat)
    (amount : Gwei) : Except Error (Array Delta) := do
  let some delta := deltas[position]? | throw (.noDelta position)
  let some signed := Word.signed? amount | throw (.overflow position)
  let some shifted := apply delta signed | throw (.overflow position)
  return deltas.setIfInBounds position shifted

/-- Deltas with an amount added or taken at the position of a root, if it has one. -/
def shiftAt (apply : Delta → Delta → Option Delta) (positions : Std.ExtTreeMap Root Nat)
    (deltas : Array Delta) (root : Root) (amount : Gwei) : Except Error (Array Delta) :=
  match positions[root]? with
  | some position => shiftDelta apply deltas position amount
  | none => .ok deltas

/-- Whether a validator has no effect: it never voted, or neither vote nor balance changed. -/
def isIdle (v : Tracker) (oldBalance newBalance : Gwei) : Bool :=
  (v.current = 0 && v.next = 0) || (v.current = v.next && oldBalance = newBalance)

/-- Deltas after one validator was taken into account. -/
def countVote (positions : Std.ExtTreeMap Root Nat) (deltas : Array Delta) (v : Tracker)
    (oldBalance newBalance : Gwei) : Except Error (Array Delta) :=
  if isIdle v oldBalance newBalance then .ok deltas
  else do
    let deltas ← shiftAt Word.subSigned? positions deltas v.current oldBalance
    shiftAt Word.addSigned? positions deltas v.next newBalance

/-- Deltas after the validators of a part of the table, the first of which has the given index. -/
def partDeltas (positions : Std.ExtTreeMap Root Nat) (old new : Balances) (deltas : Array Delta) :
    (validator : Nat) → List Tracker → Except Error (Array Delta)
  | _, [] => .ok deltas
  | validator, v :: rest => do
    let deltas ← countVote positions deltas v (old.getD validator 0) (new.getD validator 0)
    partDeltas positions old new deltas (validator + 1) rest

/-- The sum of two lists of deltas, position by position from the given one on. -/
def sumDeltas : (position : Nat) → List Delta → List Delta → Except Error (List Delta)
  | position, a :: as, b :: bs =>
    match Word.addSigned? a b with
    | some sum => (sumDeltas (position + 1) as bs).map (sum :: ·)
    | none => .error (.overflow position)
  | _, as, _ => .ok as

/-- One delta for each position, for the whole table. -/
def computeDeltas (t : VoteTable) (positions : Std.ExtTreeMap Root Nat) (old new : Balances) :
    Except Error (Array Delta) :=
  partDeltas positions old new (Array.replicate positions.size 0) 0 t.trackers.toList

end ChainHead.VoteTable
