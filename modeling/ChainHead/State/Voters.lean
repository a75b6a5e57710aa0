/-
Who voted: the members of a committee at the bits of an attestation.

`voters` lists them in the order of the committee, `indexed` sorted and
without repetition, which is the form in which attestations are checked
and applied.
-/
import ChainHead.State.Basic
import ChainHead.Verification.Error

namespace ChainHead.BeaconState

open Verification (Error)

/-- The members of a list at which the bits are set. -/
def pick {α : Type} : List Bool → List α → List α
  | true :: bits, x :: xs => x :: pick bits xs
  | false :: bits, _ :: xs => pick bits xs
  | _, _ => []

/-- The committee members who voted, in the order of the committee. -/
def voters (state : BeaconState) (data : AttestationData) (bits : Bitfield) :
    Except Error (List ValidatorIndex) :=
  match state.committee data.slot data.index with
  | none => .error (.noCommittee data.slot data.index)
  | some members =>
    if members.length = bits.length then .ok (pick bits.bits members)
    else .error (.committeeLength bits.length members.length)

/-- A list without elements that equal the one before. -/
def dropRepeats : List ValidatorIndex → List ValidatorIndex
  | a :: b :: rest => if a = b then dropRepeats (b :: rest) else a :: dropRepeats (b :: rest)
  | short => short

/-- An attestation with its voters named, in increasing order. -/
def indexed (state : BeaconState) (a : Attestation) : Except Error IndexedAttestation := do
  let found ← state.voters a.data a.bits
  return ⟨dropRepeats (found.mergeSort fun x y => decide (x ≤ y)), a.data, a.signature⟩

end ChainHead.BeaconState
