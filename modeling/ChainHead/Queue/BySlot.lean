/-
The queue of submissions that wait for a later slot: those of each slot
in order of arrival.
-/
import ChainHead.Submission
import Std.Data.ExtTreeMap

namespace ChainHead

/-- Submissions by the slot of their data, which has to be over before they count. -/
structure SlotQueue where
  bySlot : Std.ExtTreeMap Slot (List Submission) := ∅

namespace SlotQueue

/-- The number of submissions. -/
def size (q : SlotQueue) : Nat :=
  q.bySlot.foldl (fun count _ submissions => count + submissions.length) 0

/-- Whether there are no submissions. -/
def isEmpty (q : SlotQueue) : Bool := q.bySlot.isEmpty

/-- Adds a submission behind those of its slot. -/
def add (q : SlotQueue) (s : Submission) : SlotQueue :=
  ⟨q.bySlot.insert s.data.slot (q.bySlot.getD s.data.slot [] ++ [s])⟩

/-- Removes the submissions of all slots before one, and lists them by slot and arrival. -/
def takeDue (q : SlotQueue) (slot : Slot) : SlotQueue × List Submission :=
  (⟨q.bySlot.filter fun s _ => slot ≤ s⟩,
    (q.bySlot.filter fun s _ => s < slot).toList.flatMap fun (_, submissions) => submissions)

end SlotQueue

end ChainHead
