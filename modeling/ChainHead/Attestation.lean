/-
Attestations: the votes of a committee for a head and a target.

`AttestationData` is what is voted for, an `Attestation` adds who of
the committee voted and their joint signature, and an
`IndexedAttestation` names the voters by their validator indices.
Attestations with one `AttestationData` can be merged, so data are
identified by their root.
-/
import ChainHead.Bitfield
import ChainHead.Block

namespace ChainHead

/-- The number of a committee within its slot. -/
abbrev CommitteeIndex := UInt64

/-- What an attestation votes for. -/
structure AttestationData where
  slot : Slot := 0
  index : CommitteeIndex := 0
  beaconBlockRoot : Root := 0
  source : Checkpoint := {}
  target : Checkpoint := {}
  deriving DecidableEq, Repr, Inhabited

/-- The vote of some members of a committee. -/
structure Attestation where
  bits : Bitfield := {}
  data : AttestationData := {}
  signature : SignatureBytes := 0
  deriving DecidableEq, Repr, Inhabited

/-- A vote with the voters named by their validator indices. -/
structure IndexedAttestation where
  indices : List ValidatorIndex := []
  data : AttestationData := {}
  signature : SignatureBytes := 0
  deriving DecidableEq, Repr, Inhabited

-- ============================================================= roots

namespace AttestationData

/-- The chunks under the root of attestation data, under a hash of pairs. -/
def chunksBy (hash : PairHash) (d : AttestationData) : List Root :=
  [Merkle.uint64Chunk d.slot, Merkle.uint64Chunk d.index, d.beaconBlockRoot,
    d.source.rootBy hash, d.target.rootBy hash]

/-- The root of attestation data under a hash of pairs. -/
def rootBy (hash : PairHash) (d : AttestationData) : Root :=
  Merkle.merkleize hash (d.chunksBy hash)

/-- The root of attestation data. -/
def hashTreeRoot (d : AttestationData) : Root :=
  d.rootBy Sha256.pair

/-- Attestation data in messages. -/
def text (d : AttestationData) : String :=
  s!"AttestationData \x7b slot: {d.slot.toNat}, index: {d.index.toNat}, " ++
  s!"beacon_block_root: {Bytes.hex d.beaconBlockRoot}, " ++
  s!"source: {d.source.text}, target: {d.target.text} \x7d"

end AttestationData

-- ============================================================= texts

/-- An attestation in messages. -/
def Attestation.text (a : Attestation) : String :=
  s!"Attestation \x7b aggregation_bits: {a.bits.text}, data: {a.data.text}, " ++
  s!"signature: {Bytes.hex a.signature} \x7d"

/-- An indexed attestation in messages. -/
def IndexedAttestation.text (a : IndexedAttestation) : String :=
  let indices := ", ".intercalate (a.indices.map fun v => toString v.toNat)
  s!"IndexedAttestation \x7b attesting_indices: [{indices}], data: {a.data.text}, " ++
  s!"signature: {Bytes.hex a.signature} \x7d"

end ChainHead
