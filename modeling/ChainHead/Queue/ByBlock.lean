/-
The queue of submissions that wait for a block.

Entries are ordered by slot, and by arrival within a slot. When the
queue is full the first entry makes room for a new one, and entries from
slots too long ago are dropped. `entries` holds the entries in order,
`tickets` lists for each block root the entries that wait for it; no
root is listed without entries.

An attestation is not taken in while an equal one waits for its head or
for its target.
-/
import ChainHead.Log
import Std.Data.ExtTreeMap
import Std.Data.ExtTreeSet

namespace ChainHead

-- ============================================================ tickets

/-- The place of an entry: its slot, then the order of arrival. -/
structure Ticket where
  slot : Slot
  arrival : Nat
  deriving DecidableEq, Repr, Inhabited

namespace Ticket

/-- The order of tickets. -/
def order : Ticket → Ticket → Ordering :=
  compareLex (compareOn slot) (compareOn arrival)

instance : Ord Ticket := ⟨order⟩

instance : Std.TransCmp order :=
  inferInstanceAs (Std.TransCmp (compareLex (compareOn slot) (compareOn arrival)))

instance : Std.LawfulEqCmp order where
  eq_of_compare {a b} h := by
    obtain ⟨s, n⟩ := a
    obtain ⟨s', n'⟩ := b
    simp only [order, compareLex_eq_eq, compareOn, Std.LawfulEqOrd.compare_eq_iff_eq] at h
    simp [h]

end Ticket

/-- A submission and the root of the block that it waits for. -/
structure Waiting where
  blockRoot : Root
  submission : Submission
  deriving DecidableEq, Repr, Inhabited

-- ============================================================== queue

/-- Submissions that wait for a block. -/
structure BlockQueue where
  /-- The greatest number of entries. -/
  capacity : Nat
  /-- For how many slots an entry may wait. -/
  retention : UInt64
  nextArrival : Nat := 0
  entries : Std.ExtTreeMap Ticket Waiting Ticket.order := ∅
  tickets : Std.ExtTreeMap Root (Std.ExtTreeSet Ticket Ticket.order) := ∅

namespace BlockQueue

/-- The number of entries. -/
def size (q : BlockQueue) : Nat := q.entries.size

/-- Whether there are no entries. -/
def isEmpty (q : BlockQueue) : Bool := q.entries.isEmpty

/-- The tickets of the entries that wait for a block, in order. -/
def ticketsOf (q : BlockQueue) (blockRoot : Root) : List Ticket :=
  match q.tickets[blockRoot]? with
  | some tickets => tickets.toList
  | none => []

/-- Whether an equal attestation waits for the head or the target of an attestation. -/
def contains (q : BlockQueue) (a : Attestation) : Bool :=
  [a.data.beaconBlockRoot, a.data.target.root].any fun root =>
    (q.ticketsOf root).any fun ticket =>
      match q.entries[ticket]? with
      | some waiting => waiting.submission.attestation == a
      | none => false

/-- The tickets without one that waits for a block, and without the block if that was its last. -/
def dropTicket (tickets : Std.ExtTreeMap Root (Std.ExtTreeSet Ticket Ticket.order))
    (blockRoot : Root) (ticket : Ticket) :
    Std.ExtTreeMap Root (Std.ExtTreeSet Ticket Ticket.order) :=
  match tickets[blockRoot]? with
  | none => tickets
  | some held =>
    let rest := held.erase ticket
    if rest.isEmpty then tickets.erase blockRoot else tickets.insert blockRoot rest

/-- Drops the first entry. -/
def dropOldest (q : BlockQueue) : Logged BlockQueue :=
  match q.entries.minEntry? with
  | none => pure q
  | some (ticket, waiting) => do
    Logged.note (.pendingFull ticket.slot waiting.blockRoot)
    return { q with
      entries := q.entries.erase ticket
      tickets := dropTicket q.tickets waiting.blockRoot ticket }

/-- Adds a submission that waits for a block, unless nothing fits or an equal attestation waits. -/
def add (q : BlockQueue) (blockRoot : Root) (s : Submission) : Logged BlockQueue :=
  if q.capacity = 0 || q.contains s.attestation then pure q
  else do
    let q ← if q.capacity ≤ q.size then q.dropOldest else pure q
    let ticket : Ticket := ⟨s.data.slot, q.nextArrival⟩
    return { q with
      nextArrival := q.nextArrival + 1
      entries := q.entries.insert ticket ⟨blockRoot, s⟩
      tickets := q.tickets.insert blockRoot ((q.tickets.getD blockRoot ∅).insert ticket) }

/-- Removes the submissions that wait for a block, and lists them in order. -/
def take (q : BlockQueue) (blockRoot : Root) : BlockQueue × List Submission :=
  let held := q.ticketsOf blockRoot
  let taken := held.filterMap fun ticket => q.entries[ticket]?.map (·.submission)
  ({ q with
      entries := held.foldl (fun entries ticket => entries.erase ticket) q.entries
      tickets := q.tickets.erase blockRoot },
    taken)

/-- Drops the entries that have waited too long at a slot. -/
def prune (q : BlockQueue) (slot : Slot) : Logged BlockQueue :=
  match Word.sub? slot q.retention with
  | none => pure q
  | some first =>
    let expired := (q.entries.filter fun ticket _ => ticket.slot < first).toList
    if expired.isEmpty then pure q
    else do
      Logged.note (.pendingExpired expired.length first)
      return { q with
        entries := q.entries.filter fun ticket _ => first ≤ ticket.slot
        tickets := expired.foldl
          (fun tickets (ticket, waiting) => dropTicket tickets waiting.blockRoot ticket) q.tickets }

end BlockQueue

end ChainHead
