/-
Groups: attestations with the same data, and the aggregates they give.

# Order

Members stand in decreasing number of votes, and in order of arrival
where that is equal. A newcomer is taken in only if it has votes that no
single member has all of.

# Aggregates

`aggregates` covers all votes of the members, step by step: each
aggregate starts from the first member with a vote not yet covered and
joins to it, in order, every other such member without a vote in common
with those joined before. If a signature involved cannot be decoded, the
aggregate is the first member alone. Bit operations refuse bitfields of
different lengths, which members of one group never have; the refusal is
passed on.
-/
import ChainHead.Bls.Scheme
import ChainHead.Log

namespace ChainHead

open Bitfield (Misaligned)

/-- Attestations with the same data. -/
structure Group where
  data : AttestationData
  dataRoot : Root
  /-- The seed that the committee of the first member was shuffled with. -/
  seed : Root
  members : List Submission := []
  deriving DecidableEq, Repr, Inhabited

namespace Group

/-- The number of members. -/
def size (g : Group) : Nat := g.members.length

/-- Whether there are no members. -/
def isEmpty (g : Group) : Bool := g.members.isEmpty

-- ============================================================ members

/-- The list with a newcomer behind all members with at least as many votes. -/
def place (s : Submission) (members : List Submission) : List Submission :=
  let ahead := fun m : Submission => decide (s.bits.count ≤ m.bits.count)
  members.takeWhile ahead ++ s :: members.dropWhile ahead

/-- Takes in a submission, unless its votes are among those of a member; tells whether it did. -/
def add (g : Group) (s : Submission) : Logged (Group × Bool) :=
  match g.members.head? with
  | some first =>
    if first.bits.length ≠ s.bits.length then do
      Logged.note (.bitsMismatch s.bits.length first.bits.length g.data)
      return (g, false)
    else if g.members.any fun m => s.bits.isSubsetOf m.bits then pure (g, false)
    else pure ({ g with members := place s g.members }, true)
  | none => pure ({ g with members := [s] }, true)

/-- The group without the members that equal an attestation. -/
def remove (g : Group) (a : Attestation) : Group :=
  { g with members := g.members.filter fun m => m.attestation ≠ a }

-- ========================================================= aggregates

/-- The members with a vote that is not covered. -/
def uncovered (g : Group) (covered : Bitfield) : List Submission :=
  g.members.filter fun m => !m.bits.isSubsetOf covered

/-- The votes given and those of every candidate without a vote among them, and these candidates. -/
def gather (bits : Bitfield) : List Submission → Except Misaligned (Bitfield × List Submission)
  | [] => .ok (bits, [])
  | s :: rest => do
    if ← s.bits.anyInCommon bits then gather bits rest
    else
      let (bits, joined) ← gather (← bits.union s.bits) rest
      return (bits, s :: joined)

/-- The sum of a decoded signature and others, if all of them can be decoded. -/
def addSignatures (scheme : SignatureScheme) (sum : scheme.Signature) :
    List Submission → Option scheme.Signature
  | [] => some sum
  | s :: rest =>
    match scheme.decode s.attestation.signature with
    | .ok signature => addSignatures scheme (scheme.add sum signature) rest
    | .error _ => none

/-- The sum of the signatures of a member and at least one other. -/
def joinSignatures (scheme : SignatureScheme) (first : Submission) (others : List Submission) :
    Option SignatureBytes :=
  if others.isEmpty then none
  else
    match scheme.decode first.attestation.signature with
    | .ok signature => (addSignatures scheme signature others).map scheme.encode
    | .error _ => none

/-- The aggregate that starts from the first uncovered member, if there is one. -/
def nextAggregate (scheme : SignatureScheme) (g : Group) (covered : Bitfield) :
    Except Misaligned (Option Attestation) :=
  match g.uncovered covered with
  | [] => .ok none
  | first :: candidates => do
    let (bits, others) ← gather first.bits candidates
    match joinSignatures scheme first others with
    | some signature => return some ⟨bits, g.data, signature⟩
    | none => return some first.attestation

/-- At most the given number of aggregates that cover what is not covered yet. -/
def aggregatesFrom (scheme : SignatureScheme) (g : Group) :
    (count : Nat) → Bitfield → Except Misaligned (List Attestation)
  | 0, _ => .ok []
  | count + 1, covered => do
    match ← g.nextAggregate scheme covered with
    | none => return []
    | some aggregate =>
      let rest ← aggregatesFrom scheme g count (← covered.union aggregate.bits)
      return aggregate :: rest

/-- No votes, in a bitfield as long as those of the members. -/
def nothingCovered (g : Group) : Bitfield :=
  match g.members with
  | [] => {}
  | first :: _ => ⟨first.bits.length, List.replicate ((first.bits.length + 7) / 8) 0⟩

/-- Aggregates that together cover all votes of the members, one member or more with each. -/
def aggregates (scheme : SignatureScheme) (g : Group) : Except Misaligned (List Attestation) :=
  g.aggregatesFrom scheme g.size g.nothingCovered

/-- The first of the aggregates. -/
def bestAggregate (scheme : SignatureScheme) (g : Group) :
    Except Misaligned (Option Attestation) :=
  g.nextAggregate scheme g.nothingCovered

end Group

end ChainHead
