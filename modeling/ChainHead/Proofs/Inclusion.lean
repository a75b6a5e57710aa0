/-
What the rule of the chain accepts.

The rule goes through a row of checks, and the first that fails tells
the refusal; `check_eq` writes the row out, so that what is accepted has
passed every one of them.

In plain numbers the checks are `requirements`, and a result `Decides`
them if it is the refusal of the first one that is not met. The words of
the rule stop at the greatest one, which makes no difference to the age:
no state is later than the greatest slot. It does to the delay, in one
place: data of the last slot of all have no slot after them, and pass on
a state of that very slot (`check_decides`).
-/
import ChainHead.Inclusion
import ChainHead.Proofs.Word
import Mathlib.Control.Monad.Basic
import Mathlib.Logic.Basic
import Mathlib.Tactic.SplitIfs

namespace ChainHead.Inclusion

-- ============================================== statement vocabulary

/-- Something that is asked of data, and the refusal of data that do not
meet it. -/
structure Requirement where
  met : Bool
  refusal : Refusal
  deriving DecidableEq

/-- The requirement that a slot has passed since that of the data. -/
def delay (state : BeaconState) (d : AttestationData) : Requirement :=
  ⟨d.slot.toNat + 1 ≤ state.slot.toNat, .tooQuick d.slot state.slot⟩

/-- The requirement that the source is the justified checkpoint of the
target epoch, if that is the current one or the one before. -/
def justified (p : Preset) (state : BeaconState) (d : AttestationData) : Requirement :=
  if d.target.epoch.toNat = state.slot.toNat / p.slotsPerEpoch.toNat then
    ⟨d.source = state.currentJustified, .wrongCurrentSource d.source state.currentJustified⟩
  else ⟨d.source = state.previousJustified, .wrongPreviousSource d.source state.previousJustified⟩

/-- All that is asked of data in a block on a state, in plain numbers and
in this order. The epoch before the first one is the first one. -/
def requirements (p : Preset) (state : BeaconState) (d : AttestationData) : List Requirement :=
  let count := state.committeeCount d.slot
  let current := state.slot.toNat / p.slotsPerEpoch.toNat
  [⟨d.index.toNat < count.toNat, .committeeIndexTooHigh d.index count⟩,
    ⟨d.target.epoch.toNat = current ∨ d.target.epoch.toNat = current - 1,
      .notFromCurrentOrPreviousEpoch d.target.epoch⟩,
    ⟨d.target.epoch.toNat = d.slot.toNat / p.slotsPerEpoch.toNat,
      .slotNotInEpoch d.slot d.target.epoch⟩,
    delay state d,
    ⟨state.slot.toNat ≤ d.slot.toNat + p.slotsPerEpoch.toNat, .tooLate d.slot state.slot⟩,
    justified p state d]

/-- Whether a result accepts data that meet all requirements, and no
others, and tells the refusal of the first that is not met. -/
structure Decides (asked : List Requirement) (result : Except Refusal Unit) : Prop where
  accepts : result = .ok () ↔ ∀ q ∈ asked, q.met = true
  refuses : ∀ refusal, result = .error refusal
    ↔ ∃ q, asked.find? (fun q => !q.met) = some q ∧ q.refusal = refusal

/-- Whether data are from the last slot of all, and so is the state. -/
def AtLastSlot (state : BeaconState) (d : AttestationData) : Prop :=
  d.slot.toNat = 2 ^ 64 - 1 ∧ state.slot.toNat = 2 ^ 64 - 1

instance (state : BeaconState) (d : AttestationData) : Decidable (AtLastSlot state d) :=
  inferInstanceAs (Decidable (_ ∧ _))

-- ============================================================= the rule

/-- The rule of the chain is a row of checks, of which the first that
fails tells the refusal. -/
theorem check_eq (p : Preset) (state : BeaconState) (d : AttestationData) :
    check p state d
      = if state.committeeCount d.slot ≤ d.index then
          .error (.committeeIndexTooHigh d.index (state.committeeCount d.slot))
        else if d.target.epoch ≠ state.previousEpoch p ∧ d.target.epoch ≠ state.currentEpoch p then
          .error (.notFromCurrentOrPreviousEpoch d.target.epoch)
        else if d.target.epoch ≠ Epoch.ofSlot p d.slot then
          .error (.slotNotInEpoch d.slot d.target.epoch)
        else if state.slot < Word.addSat d.slot minimumDelay then
          .error (.tooQuick d.slot state.slot)
        else if Word.addSat d.slot p.slotsPerEpoch < state.slot then
          .error (.tooLate d.slot state.slot)
        else if d.target.epoch = state.currentEpoch p then
          if d.source ≠ state.currentJustified then
            .error (.wrongCurrentSource d.source state.currentJustified)
          else .ok ()
        else if d.source ≠ state.previousJustified then
          .error (.wrongPreviousSource d.source state.previousJustified)
        else .ok () :=
  rfl

/-- Data that are accepted are not too old. -/
theorem le_of_check {p : Preset} {state : BeaconState} {d : AttestationData}
    (h : check p state d = .ok ()) : state.slot ≤ Word.addSat d.slot p.slotsPerEpoch := by
  apply UInt64.not_lt.mp
  intro hlate
  -- whichever check comes first, that of the age would not be passed
  rw [check_eq, if_pos hlate] at h
  split_ifs at h

-- ========================================================= requirements

variable {p : Preset} {state : BeaconState} {d : AttestationData}

theorem decides_nil : Decides [] (.ok ()) where
  accepts := by simp
  refuses := by simp

/-- A check that refuses decides a requirement, ahead of those that the
rest of the result decides. -/
theorem Decides.cons {bad : Prop} [Decidable bad] {q : Requirement} {asked : List Requirement}
    {result : Except Refusal Unit} (hq : q.met = true ↔ ¬bad) (h : Decides asked result) :
    Decides (q :: asked) (if bad then .error q.refusal else result) := by
  by_cases hbad : bad
  · have hunmet : q.met = false := Bool.eq_false_iff.mpr fun hmet => hq.mp hmet hbad
    rw [if_pos hbad]
    refine ⟨by simp [hunmet], fun refusal => ?_⟩
    rw [List.find?_cons_of_pos (by simp [hunmet])]
    simp
  · have hmet : q.met = true := hq.mpr hbad
    rw [if_neg hbad]
    refine ⟨?_, fun refusal => ?_⟩
    · rw [h.accepts, List.forall_mem_cons, and_iff_right hmet]
    · rw [h.refuses, List.find?_cons_of_neg (by simp [hmet])]

theorem toNat_currentEpoch (p : Preset) (state : BeaconState) :
    (state.currentEpoch p).toNat = state.slot.toNat / p.slotsPerEpoch.toNat :=
  UInt64.toNat_div _ _

theorem toNat_previousEpoch (p : Preset) (state : BeaconState) :
    (state.previousEpoch p).toNat = state.slot.toNat / p.slotsPerEpoch.toNat - 1 := by
  have hmax : ∀ epoch : Epoch, max epoch Epoch.genesis = epoch := fun epoch => by
    show (if epoch ≤ 0 then 0 else epoch) = epoch
    split
    case isTrue hzero => exact UInt64.le_antisymm UInt64.zero_le hzero
    case isFalse => rfl
  rw [BeaconState.previousEpoch, Epoch.previous, hmax, Word.toNat_subSat, toNat_currentEpoch]
  rfl

/-- The source that is asked for is told by the epoch. -/
theorem decides_justified (p : Preset) (state : BeaconState) (d : AttestationData) :
    Decides [justified p state d]
      (if d.target.epoch = state.currentEpoch p then
        if d.source ≠ state.currentJustified then
          .error (.wrongCurrentSource d.source state.currentJustified)
        else .ok ()
      else if d.source ≠ state.previousJustified then
        .error (.wrongPreviousSource d.source state.previousJustified)
      else .ok ()) := by
  unfold justified
  rw [← toNat_currentEpoch]
  simp only [UInt64.toNat_inj]
  split
  case isTrue => exact .cons (by simp) decides_nil
  case isFalse => exact .cons (by simp) decides_nil

theorem delay_met_iff (h : ¬AtLastSlot state d) :
    (delay state d).met = true ↔ ¬state.slot < Word.addSat d.slot minimumDelay := by
  have hslot := d.slot.toNat_lt
  have hstate := state.slot.toNat_lt
  have hone : minimumDelay.toNat = 1 := rfl
  unfold AtLastSlot at h
  rw [UInt64.lt_iff_toNat_lt, Word.toNat_addSat, delay, decide_eq_true_iff]
  omega

/-- There is no later slot that would be asked for. -/
theorem AtLastSlot.not_tooQuick (h : AtLastSlot state d) :
    ¬state.slot < Word.addSat d.slot minimumDelay := by
  rw [UInt64.lt_iff_toNat_lt, Word.toNat_addSat, h.2]
  omega

theorem age_met_iff (p : Preset) (state : BeaconState) (d : AttestationData) :
    decide (state.slot.toNat ≤ d.slot.toNat + p.slotsPerEpoch.toNat) = true
      ↔ ¬Word.addSat d.slot p.slotsPerEpoch < state.slot := by
  have hstate := state.slot.toNat_lt
  rw [UInt64.lt_iff_toNat_lt, Word.toNat_addSat, decide_eq_true_iff]
  omega

/-- The rule decides the requirements, but for the delay if data and
state are both from the last slot of all: then it decides the others. -/
theorem check_decides (p : Preset) (state : BeaconState) (d : AttestationData) :
    (¬AtLastSlot state d → Decides (requirements p state d) (check p state d))
      ∧ (AtLastSlot state d →
        Decides ((requirements p state d).erase (delay state d)) (check p state d)) := by
  have hcommittee : decide (d.index.toNat < (state.committeeCount d.slot).toNat) = true
      ↔ ¬state.committeeCount d.slot ≤ d.index := by
    rw [decide_eq_true_iff, UInt64.not_le, UInt64.lt_iff_toNat_lt]
  have hepochs : decide (d.target.epoch.toNat = state.slot.toNat / p.slotsPerEpoch.toNat
        ∨ d.target.epoch.toNat = state.slot.toNat / p.slotsPerEpoch.toNat - 1) = true
      ↔ ¬(d.target.epoch ≠ state.previousEpoch p ∧ d.target.epoch ≠ state.currentEpoch p) := by
    rw [← toNat_previousEpoch, ← toNat_currentEpoch, decide_eq_true_iff, UInt64.toNat_inj,
      UInt64.toNat_inj, not_and_or, not_not, not_not, or_comm]
  have hepoch : decide (d.target.epoch.toNat = d.slot.toNat / p.slotsPerEpoch.toNat) = true
      ↔ ¬d.target.epoch ≠ Epoch.ofSlot p d.slot := by
    rw [decide_eq_true_iff, not_not, ← UInt64.toNat_inj, Epoch.ofSlot, UInt64.toNat_div]
  have hsource := decides_justified p state d
  rw [check_eq]
  constructor
  · intro hlast
    exact .cons hcommittee (.cons hepochs (.cons hepoch (.cons (delay_met_iff hlast)
      (.cons (age_met_iff p state d) hsource))))
  · intro hlast
    have herase : (requirements p state d).erase (delay state d)
        = (requirements p state d).eraseIdx 3 := by
      simp [requirements, delay]
    rw [herase, if_neg hlast.not_tooQuick]
    exact .cons hcommittee (.cons hepochs (.cons hepoch
      (.cons (age_met_iff p state d) hsource)))

/-- A state at a slot, with one committee in each slot. -/
def plainState (slot : Slot) : BeaconState where
  slot
  fork := {}
  genesisValidatorsRoot := 0
  currentJustified := {}
  previousJustified := {}
  finalized := {}
  committeeCount _ := 1
  committee _ _ := none
  publicKey _ := none
  shufflingSeed _ := 0

/-- Data from a slot, for a target in its epoch. -/
def plainData (slot : Slot) : AttestationData :=
  { slot, target := { epoch := Epoch.ofSlot .minimal slot } }

/-- On a state of the last slot of all, data of the slot before are
accepted as they should be, and data of the last slot itself for all but
the delay. -/
theorem check_decides_lastSlots :
    let state := plainState Word.top
    let before := plainData (Word.top - 1)
    let last := plainData Word.top
    (¬AtLastSlot state before ∧ Decides (requirements .minimal state before) (.ok ()))
      ∧ AtLastSlot state last
      ∧ Decides ((requirements .minimal state last).erase (delay state last)) (.ok ()) := by
  intro state before last
  have hbefore : ¬AtLastSlot state before := by decide
  have hlast : AtLastSlot state last := by decide
  have hok : check .minimal state before = .ok () := by decide +kernel
  have hok' : check .minimal state last = .ok () := by decide +kernel
  exact ⟨⟨hbefore, hok ▸ (check_decides .minimal state before).1 hbefore⟩,
    hlast, hok' ▸ (check_decides .minimal state last).2 hlast⟩

/-- Data of the last slot of all are accepted on a state of that slot,
although no slot has passed, which is the first requirement that is not
met. -/
theorem undelayed_at_lastSlot :
    let state := plainState Word.top
    let last := plainData Word.top
    check .minimal state last = .ok ()
      ∧ (requirements .minimal state last).find? (fun q => !q.met) = some (delay state last)
      ∧ ¬Decides (requirements .minimal state last) (check .minimal state last) := by
  intro state last
  have hok : check .minimal state last = .ok () := by decide +kernel
  have hfirst : (requirements .minimal state last).find? (fun q => !q.met)
      = some (delay state last) := by
    decide +kernel
  refine ⟨hok, hfirst, fun hdecides => ?_⟩
  have hrefused := (hdecides.refuses _).mpr ⟨_, hfirst, rfl⟩
  rw [hok] at hrefused
  cases hrefused

end ChainHead.Inclusion
