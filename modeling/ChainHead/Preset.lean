/-
The two named sets of constants that the chain can run with.
-/

namespace ChainHead

/-- A set of constants, by its name. -/
inductive Preset where
  | mainnet
  | minimal
  deriving DecidableEq, Repr

namespace Preset

/-- The name as it is written. -/
def name : Preset → String
  | mainnet => "mainnet"
  | minimal => "minimal"

/-- The preset with a name, which has to be spelled exactly. -/
def ofName? (text : String) : Option Preset :=
  [mainnet, minimal].find? fun p => p.name == text

/-- The wording of the refusal of any other name. -/
def unknownNameMessage : String := "Matching variant not found"

/-- The number of slots in an epoch. -/
def slotsPerEpoch : Preset → UInt64
  | mainnet => 32
  | minimal => 8

/-- The greatest number of committees in a slot. -/
def maxCommitteesPerSlot : Preset → Nat
  | mainnet => 64
  | minimal => 4

/-- The greatest number of attestations in a block. -/
def maxAttestations : Preset → Nat
  | _ => 128

/-- The greatest number of members of a committee. -/
def maxValidatorsPerCommittee : Preset → Nat
  | _ => 2048

end Preset

end ChainHead
