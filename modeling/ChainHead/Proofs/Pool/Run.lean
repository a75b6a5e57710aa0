/-
Runs of a pool: submissions are handed in, attestations are taken out,
and slots begin, in any order and number.

A run is the list of its calls, newest first, and `after` replays it.
What a pool holds is read off its groups alone (`stored`), and what its
index says of a slot off the index alone (`rootsAt`); that the two agree
is for `Index` to show. A pool takes the root of some data for the data,
so a run has to promise that it never hands in different data with one
root (`Distinct`).
-/
import ChainHead.Pool

namespace ChainHead.Pool

-- =============================================================== calls

/-- What can be asked of a pool that changes what it holds. -/
inductive Call where
  | add (submission : Submission) (facts : Facts)
  | remove (attestation : Attestation)
  | removeAll (attestations : List Attestation)
  | slot (slot : Slot)

/-- The pool after one call, whether that failed or not. -/
def call (preset : Preset) (p : Pool) : Call → Pool
  | .add s facts =>
    match p.add s facts with
    | .ok result => result.value.1
    | .error _ => p
  | .remove a => p.remove a
  | .removeAll as => p.removeAll as
  | .slot slot => (p.onSlot preset slot).value

/-- The pool after a run, given newest call first. -/
def after (preset : Preset) (start : Pool) : List Call → Pool
  | [] => start
  | c :: earlier => (after preset start earlier).call preset c

-- ============================================================ contents

/-- The members of all groups. -/
def storedIn (groups : Std.ExtTreeMap Root Group) : List Submission :=
  groups.toList.flatMap fun entry => entry.2.members

/-- The submissions that a pool holds. -/
def stored (p : Pool) : List Submission :=
  storedIn p.groups

/-- The roots that an index lists at a slot. -/
def rootsIn (slots : Std.ExtTreeMap Slot (Std.ExtTreeSet Root)) (slot : Slot) :
    Std.ExtTreeSet Root :=
  slots.getD slot ∅

/-- The roots that the index of a pool lists at a slot. -/
def rootsAt (p : Pool) (slot : Slot) : Std.ExtTreeSet Root :=
  rootsIn p.slots slot

-- ============================================================ promises

/-- The data of all submissions that were handed in. -/
def offered (calls : List Call) : List AttestationData :=
  calls.filterMap fun
    | .add s _ => some s.data
    | _ => none

/-- Whether the data that are handed in are told apart by their roots. -/
def Distinct (calls : List Call) : Prop :=
  ∀ d ∈ offered calls, ∀ d' ∈ offered calls, d.hashTreeRoot = d'.hashTreeRoot → d = d'

instance (calls : List Call) : Decidable (Distinct calls) :=
  inferInstanceAs (Decidable (∀ d ∈ offered calls, ∀ d' ∈ offered calls,
    d.hashTreeRoot = d'.hashTreeRoot → d = d'))

theorem mem_offered_cons (c : Call) {earlier : List Call} {d : AttestationData}
    (hd : d ∈ offered earlier) : d ∈ offered (c :: earlier) := by
  unfold offered at hd ⊢
  rw [List.filterMap_cons]
  split
  · exact hd
  · exact List.mem_cons_of_mem _ hd

theorem Distinct.tail {c : Call} {earlier : List Call} (h : Distinct (c :: earlier)) :
    Distinct earlier :=
  fun d hd d' hd' => h d (mem_offered_cons c hd) d' (mem_offered_cons c hd')

end ChainHead.Pool
