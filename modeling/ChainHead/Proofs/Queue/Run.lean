/-
Runs of a queue, and the plain list that says what they should answer.

A run is the list of its calls, newest first; `after` replays it and
`answers` lists what was answered. The same calls can be put to a
`Waitlist`, which has no tickets and no index: it lists what waits in
the order of arrival, and searches and sorts whenever it is asked.

What came in and what went out with a call is told by `entered` and
`left`. Each of the three ways out has its own clause there: room was
made, the block arrived, or the time was up.
-/
import ChainHead.Proofs.Queue.Order
import ChainHead.Queue.ByBlock

namespace ChainHead

/-- The slot by which a submission is placed. -/
def Waiting.slot (w : Waiting) : Slot := w.submission.data.slot

-- =========================================================== the list

/-- What waits for blocks, in the order of arrival. -/
structure Waitlist where
  capacity : Nat
  retention : UInt64
  entries : List Waiting := []

namespace Waitlist

/-- Whether an equal attestation is listed under the head or the target of an attestation. -/
def holds (w : Waitlist) (a : Attestation) : Bool :=
  w.entries.any fun e => e.submission.attestation == a
    && (e.blockRoot == a.data.beaconBlockRoot || e.blockRoot == a.data.target.root)

/-- Puts a submission at the end, unless nothing fits or an equal attestation is listed; on a full
list the earliest makes room. -/
def add (w : Waitlist) (blockRoot : Root) (s : Submission) : Waitlist :=
  if w.capacity = 0 || w.holds s.attestation then w
  else
    let kept :=
      if w.capacity ≤ w.entries.length then dropEarliest Waiting.slot w.entries else w.entries
    { w with entries := kept ++ [⟨blockRoot, s⟩] }

/-- Removes what waits for a block, and lists it by slot and arrival. -/
def take (w : Waitlist) (blockRoot : Root) : Waitlist × List Submission :=
  ({ w with entries := w.entries.filter fun e => e.blockRoot ≠ blockRoot },
    (bySlot Waiting.slot (w.entries.filter fun e => e.blockRoot = blockRoot)).map
      (·.submission))

/-- Drops what is from slots further back than it may wait. -/
def prune (w : Waitlist) (slot : Slot) : Waitlist :=
  { w with entries := w.entries.filter fun e => slot.toNat ≤ e.slot.toNat + w.retention.toNat }

end Waitlist

-- ============================================================== calls

namespace BlockQueue

/-- What can be asked of a queue. -/
inductive Call where
  | add (blockRoot : Root) (submission : Submission)
  | take (blockRoot : Root)
  | prune (slot : Slot)
  | contains (attestation : Attestation)
  | size
  deriving DecidableEq, Repr

/-- What is answered. -/
inductive Answer where
  | done
  | taken (submissions : List Submission)
  | held (answer : Bool)
  | count (answer : Nat)
  deriving DecidableEq, Repr

/-- A queue after one call, and its answer. -/
def call (q : BlockQueue) : Call → BlockQueue × Answer
  | .add root s => ((q.add root s).value, .done)
  | .take root => ((q.take root).1, .taken (q.take root).2)
  | .prune slot => ((q.prune slot).value, .done)
  | .contains a => (q, .held (q.contains a))
  | .size => (q, .count q.size)

/-- The queue after a run, given newest call first. -/
def after (start : BlockQueue) : List Call → BlockQueue
  | [] => start
  | c :: earlier => ((after start earlier).call c).1

/-- The answers in a run, newest first. -/
def answers (start : BlockQueue) : List Call → List Answer
  | [] => []
  | c :: earlier => ((after start earlier).call c).2 :: answers start earlier

-- ============================================================ passages

/-- What comes in with a call. -/
def entered (q : BlockQueue) : Call → List (Ticket × Waiting)
  | .add root s =>
    if q.capacity = 0 || q.contains s.attestation then []
    else [(⟨s.data.slot, q.nextArrival⟩, ⟨root, s⟩)]
  | _ => []

/-- What goes out with a call. -/
def left (q : BlockQueue) : Call → List (Ticket × Waiting)
  | .add _ s =>
    if q.capacity = 0 || q.contains s.attestation then []
    else if q.capacity ≤ q.size then q.entries.minEntry?.toList
    else []
  | .take root => q.entries.toList.filter fun e => e.2.blockRoot = root
  | .prune slot =>
    q.entries.toList.filter fun e => e.2.slot.toNat + q.retention.toNat < slot.toNat
  | .contains _ | .size => []

/-- What came in during a run. -/
def enteredIn (start : BlockQueue) : List Call → List (Ticket × Waiting)
  | [] => []
  | c :: earlier => entered (after start earlier) c ++ enteredIn start earlier

/-- What went out during a run. -/
def leftIn (start : BlockQueue) : List Call → List (Ticket × Waiting)
  | [] => []
  | c :: earlier => left (after start earlier) c ++ leftIn start earlier

end BlockQueue

-- ================================================== calls of the list

namespace Waitlist

open BlockQueue (Call Answer)

/-- A list after one call, and its answer. -/
def call (w : Waitlist) : Call → Waitlist × Answer
  | .add root s => (w.add root s, .done)
  | .take root => ((w.take root).1, .taken (w.take root).2)
  | .prune slot => (w.prune slot, .done)
  | .contains a => (w, .held (w.holds a))
  | .size => (w, .count w.entries.length)

/-- The list after a run, given newest call first. -/
def after (start : Waitlist) : List Call → Waitlist
  | [] => start
  | c :: earlier => ((after start earlier).call c).1

/-- The answers in a run, newest first. -/
def answers (start : Waitlist) : List Call → List Answer
  | [] => []
  | c :: earlier => ((after start earlier).call c).2 :: answers start earlier

theorem capacity_call (w : Waitlist) (c : Call) : (w.call c).1.capacity = w.capacity := by
  cases c with
  | add root s =>
      show (w.add root s).capacity = w.capacity
      unfold add
      split
      case isTrue => rfl
      case isFalse => rfl
  | take root => rfl
  | prune slot => rfl
  | contains a => rfl
  | size => rfl

theorem capacity_after (start : Waitlist) (calls : List Call) :
    (start.after calls).capacity = start.capacity := by
  induction calls with
  | nil => rfl
  | cons c earlier ih => exact (capacity_call _ c).trans ih

end Waitlist

end ChainHead
