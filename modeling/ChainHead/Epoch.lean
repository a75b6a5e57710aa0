/-
Slots and epochs. A slot is one tick of the chain, an epoch is a run of
`Preset.slotsPerEpoch` slots, and epoch 0 starts at slot 0.
-/
import ChainHead.Preset
import ChainHead.Word

namespace ChainHead

/-- A tick of the chain. -/
abbrev Slot := UInt64

/-- A run of consecutive slots. -/
abbrev Epoch := UInt64

namespace Epoch

/-- The epoch that nothing precedes. -/
def genesis : Epoch := 0

/-- The epoch a slot belongs to. -/
def ofSlot (p : Preset) (slot : Slot) : Epoch :=
  slot / p.slotsPerEpoch

/-- The first slot of an epoch, or the greatest slot when that is too great. -/
def startSlot (p : Preset) (epoch : Epoch) : Slot :=
  Word.mulSat epoch p.slotsPerEpoch

/-- Whether a slot is the first of its epoch. -/
def isStart (p : Preset) (slot : Slot) : Bool :=
  slot % p.slotsPerEpoch == 0

/-- The epoch before, where the genesis epoch counts as its own predecessor. -/
def previous (epoch : Epoch) : Epoch :=
  max (Word.subSat epoch 1) genesis

end Epoch

end ChainHead
