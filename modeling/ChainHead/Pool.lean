/-
The pool: attestations that wait to be included in a block, in groups
with the same data.

`groups` holds the groups by the root of their data, `slots` lists those
roots by the slot of the data, and `size` is the number of attestations
in all groups. `attestationsForBlock` goes through the groups from the
latest slot to the earliest, in the order of roots within a slot, skips
those that a rule or a comparison of forks refuses, and takes aggregates
until a block is full.
-/
import ChainHead.Inclusion
import ChainHead.Metrics
import ChainHead.Pool.Group
import Std.Data.ExtTreeSet

namespace ChainHead

open Bitfield (Misaligned)

/-- Attestations that wait to be included. -/
structure Pool where
  /-- For how many epochs after its slot an attestation is kept. -/
  retentionEpochs : UInt64
  groups : Std.ExtTreeMap Root Group := ∅
  slots : Std.ExtTreeMap Slot (Std.ExtTreeSet Root) := ∅
  size : Nat := 0
  metrics : PoolMetrics := {}

namespace Pool

/-- For how many epochs attestations are usually kept. -/
def defaultRetentionEpochs : UInt64 := 2

/-- Why a submission cannot be taken in. -/
inductive Error where
  | seedMissing (dataRoot : Root)
  deriving DecidableEq, Repr

/-- The wording of a failure. -/
def Error.message : Error → String
  | seedMissing dataRoot =>
    s!"attestation has no committee shuffling seed (data root: {Bytes.hex dataRoot})"

/-- The number of groups. -/
def groupCount (p : Pool) : Nat := p.groups.size

/-- The pool with its gauges set. -/
def updateMetrics (p : Pool) : Pool :=
  { p with metrics := (p.metrics.setSize p.size).setGroups p.groupCount }

-- ======================================================= adding

/-- Adds a submission to the group of its data, given its facts; tells whether it brought new
votes. -/
def add (p : Pool) (s : Submission) (facts : Facts) : Except Error (Logged (Pool × Bool)) :=
  let root := s.dataRoot
  match facts.seed with
  | none => .error (.seedMissing root)
  | some seed => .ok do
    let group := p.groups.getD root { data := s.data, dataRoot := root, seed }
    let (group, added) ← group.add s
    let roots := (p.slots.getD s.data.slot ∅).insert root
    let p := { p with
      groups := p.groups.insert root group
      slots := p.slots.insert s.data.slot roots
      size := if added then p.size + 1 else p.size }
    return (p.updateMetrics, added)

-- ====================================================== removing

/-- The slots without one of the roots at a slot, and without the slot if that was its last. -/
def dropRoot (slots : Std.ExtTreeMap Slot (Std.ExtTreeSet Root)) (slot : Slot) (root : Root) :
    Std.ExtTreeMap Slot (Std.ExtTreeSet Root) :=
  match slots[slot]? with
  | none => slots
  | some roots =>
    let rest := roots.erase root
    if rest.isEmpty then slots.erase slot else slots.insert slot rest

/-- The pool without the attestations that equal one, its gauges as they were. -/
def removeEqual (p : Pool) (a : Attestation) : Pool :=
  let root := a.data.hashTreeRoot
  match p.groups[root]? with
  | none => p
  | some group =>
    let rest := group.remove a
    let size := p.size - (group.size - rest.size)
    if rest.isEmpty then
      { p with groups := p.groups.erase root, slots := dropRoot p.slots a.data.slot root, size }
    else { p with groups := p.groups.insert root rest, size }

/-- The pool without the attestations that equal one. -/
def remove (p : Pool) (a : Attestation) : Pool :=
  (p.removeEqual a).updateMetrics

/-- The pool without the attestations that equal one of several. -/
def removeAll (p : Pool) (as : List Attestation) : Pool :=
  (as.foldl removeEqual p).updateMetrics

-- ====================================================== eviction

/-- The first slot of which attestations are kept at a slot, if some are not. -/
def firstKeptSlot? (preset : Preset) (p : Pool) (slot : Slot) : Option Slot :=
  let window := Word.mulSat preset.slotsPerEpoch p.retentionEpochs
  if slot ≤ window then none else some (slot - window)

/-- The number of attestations in the groups with the given roots; a root given twice has one
group. -/
def countIn (groups : Std.ExtTreeMap Root Group) : List Root → Nat
  | [] => 0
  | root :: rest => (groups[root]?.map Group.size).getD 0 + countIn (groups.erase root) rest

/-- Drops attestations that are too old for a block at a slot or later. -/
def onSlot (preset : Preset) (p : Pool) (slot : Slot) : Logged Pool :=
  match p.firstKeptSlot? preset slot with
  | none => pure p
  | some first => do
    let old := (p.slots.filter fun s _ => s < first).toList.flatMap fun (_, roots) => roots.toList
    let evicted := countIn p.groups old
    let p := { p with
      groups := old.foldl (fun groups root => groups.erase root) p.groups
      slots := p.slots.filter fun s _ => first ≤ s
      size := p.size - evicted }
    Logged.noteIf (0 < evicted) (.attestationsEvicted evicted first)
    return p.updateMetrics

-- ====================================================== selection

/-- The roots of all groups, latest slot first, in order within a slot. -/
def rootsNewestFirst (p : Pool) : List Root :=
  p.slots.toList.reverse.flatMap fun (_, roots) => roots.toList

/-- How aggregates are selected: the scheme of signatures, the rule for data, the comparison of
forks, and the features that are switched on. -/
structure Selection where
  scheme : SignatureScheme
  rule : Inclusion.Rule
  sameFork : Group → Bool
  features : Features

/-- Aggregates of the groups with the given roots for a block on a state, while there is room. -/
def select (sel : Selection) (p : Pool) (state : BeaconState) :
    (room : Nat) → List Root → Logged (Except Misaligned (List Attestation))
  | _, [] => pure (.ok [])
  | 0, _ => pure (.ok [])
  | room + 1, root :: rest =>
    match p.groups[root]? with
    | none => select sel p state (room + 1) rest
    | some group =>
      match sel.rule state group.data with
      | .error reason => do
        Logged.noteFor sel.features .debugAttestationPacker
          (.dataSkipped group.dataRoot reason.message)
        select sel p state (room + 1) rest
      | .ok () =>
        if !sel.sameFork group then do
          Logged.noteFor sel.features .debugAttestationPacker (.otherForkSkipped group.dataRoot)
          select sel p state (room + 1) rest
        else
          match group.aggregates sel.scheme with
          | .error e => pure (.error e)
          | .ok aggregates => do
            let taken := aggregates.take (room + 1)
            let others ← select sel p state (room + 1 - taken.length) rest
            return others.map (taken ++ ·)

/-- Aggregates for a block on a state, at most as many as a block holds; the selection is counted. -/
def attestationsForBlock (preset : Preset) (sel : Selection) (p : Pool) (state : BeaconState) :
    Logged (Pool × Except Misaligned (List Attestation)) := do
  let p := { p with metrics := p.metrics.countPacking }
  match ← select sel p state preset.maxAttestations p.rootsNewestFirst with
  | .error e => return (p, .error e)
  | .ok attestations =>
    Logged.noteFor sel.features .debugAttestationPacker
      (.blockPacked attestations.length state.slot)
    return (p, .ok attestations)

/-- The best aggregate of the attestations whose data have a root. -/
def aggregateFor (scheme : SignatureScheme) (p : Pool) (dataRoot : Root) :
    Except Misaligned (Option Attestation) :=
  match p.groups[dataRoot]? with
  | none => .ok none
  | some group => group.bestAggregate scheme

end Pool

end ChainHead
