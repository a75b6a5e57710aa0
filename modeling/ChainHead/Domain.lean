/-
Signature domains and signing roots. A signature is made over an object
together with a domain, which fixes the kind of message, the fork of the
chain and the chain itself, so that it is worthless anywhere else.
-/
import ChainHead.Merkle
import ChainHead.Sha256

namespace ChainHead

/-- The fork versions before and from an epoch on. -/
structure Fork where
  previousVersion : Version := 0
  currentVersion : Version := 0
  epoch : UInt64 := 0
  deriving DecidableEq, Repr, Inhabited

namespace Domain

/-- The kind of message that attestations are. -/
def beaconAttester : DomainType := 0x01000000

/-- The root that stands for a fork of a chain. -/
def forkDataRoot (version : Version) (genesisValidatorsRoot : Root) : Root :=
  Merkle.merkleize Sha256.pair [Merkle.versionChunk version, genesisValidatorsRoot]

/-- The domain of a kind of message: its 4 bytes, then 28 bytes of the fork's root. -/
def compute (kind : DomainType) (version : Version) (genesisValidatorsRoot : Root) : Domain :=
  kind ++ (forkDataRoot version genesisValidatorsRoot).extractLsb' 32 224

/-- What is signed: the root of an object together with a domain. -/
def signingRoot (objectRoot : Root) (domain : Domain) : Root :=
  Merkle.merkleize Sha256.pair [objectRoot, domain]

end Domain

end ChainHead
