/-
What the verdicts of a judge say about the store.

A judge records votes and follows the clock; it never adds a block to
the store and never drops one (`tree_process`, `tree_applied`). So what
a verdict says about blocks is still so when the manager acts on it. The
verdict that a block is missing names the target or the head of the
submission, whichever the store does not have (`process_unknownBlock`).
-/
import ChainHead.Proofs.Manager.Steps

namespace ChainHead

/-- Whether the voters and a seed are recorded. -/
def Facts.Complete (f : Facts) : Prop :=
  f.indexed.isSome = true ∧ f.seed.isSome = true

instance (f : Facts) : Decidable f.Complete :=
  inferInstanceAs (Decidable (_ ∧ _))

namespace Judge

variable {c : JudgeConfig} {features : Features} {j : Judge} {s : Submission} {facts : Facts}
variable {facts' : Facts} {root : Root}

-- ============================================================== checks

/-- All checks are passed if each of them is. -/
theorem examine_eq_ok :
    examine c features j s facts = (facts', .ok ()) ↔
      checkTime c j.currentSlot s.attestation = .ok () ∧ missingBlock? j.store s.data = none
        ∧ checkBlocks c j.store s.data = .ok ()
        ∧ checkVoters c features s facts = (facts', .ok ()) := by
  unfold examine
  cases checkTime c j.currentSlot s.attestation with
  | error reason => simp
  | ok u =>
      cases missingBlock? j.store s.data with
      | some root => simp
      | none =>
          cases checkBlocks c j.store s.data with
          | error reason => simp
          | ok u =>
              rcases checkVoters c features s facts with ⟨facts', reason | u⟩
              · simp [Except.mapError]
              · simp [Except.mapError]

/-- The voters are accepted if the state at the target names them, unless
they are known, and their signature stands. Then a seed is recorded. -/
theorem checkVoters_eq_ok :
    checkVoters c features s facts = (facts', .ok ()) ↔ ∃ state a learned,
      c.stateAt s.data.target = .ok state
        ∧ facts.recordIndexed (fun _ => state.indexed s.attestation) = .ok (a, learned)
        ∧ Verification.checkIndexed c.scheme state (signatureCheck features s) true a = .ok ()
        ∧ facts' = learned.recordSeed (state.shufflingSeed s.data.target.epoch) := by
  constructor
  · intro h
    unfold checkVoters at h
    split at h
    case h_1 => cases h
    case h_2 state hstate =>
      split at h
      case h_1 => cases h
      case h_2 a learned hrecord =>
        split at h
        case h_1 => cases h
        case h_2 hcheck =>
          exact ⟨state, a, learned, hstate, hrecord, hcheck, (Prod.mk.inj h).1.symm⟩
  · intro ⟨state, a, learned, hstate, hrecord, hcheck, hfacts⟩
    unfold checkVoters
    simp only [hstate, hrecord, hcheck, hfacts]

-- ====================================================== what is learned

/-- What a judge learns of a submission: voters, from the state at its
target, and a seed, each only if it was not known. -/
structure Learns (c : JudgeConfig) (s : Submission) (facts facts' : Facts) : Prop where
  gossiped : facts'.gossiped = facts.gossiped
  indexed : facts'.indexed = facts.indexed ∨ facts.indexed = none ∧ ∃ state a,
    c.stateAt s.data.target = .ok state ∧ state.indexed s.attestation = .ok a
      ∧ facts'.indexed = some a
  seed : facts'.seed = facts.seed ∨ facts.seed = none

/-- To learn nothing is to learn something. -/
theorem Learns.refl (c : JudgeConfig) (s : Submission) (facts : Facts) : Learns c s facts facts :=
  ⟨rfl, .inl rfl, .inl rfl⟩

theorem learns_checkVoters (c : JudgeConfig) (features : Features) (s : Submission)
    (facts : Facts) : Learns c s facts (checkVoters c features s facts).1 := by
  unfold checkVoters
  cases hstate : c.stateAt s.data.target with
  | error reason => exact .refl c s facts
  | ok state =>
      dsimp only
      cases hrecord : facts.recordIndexed fun _ => state.indexed s.attestation with
      | error e => exact .refl c s facts
      | ok found =>
          obtain ⟨a, learned⟩ := found
          obtain ⟨rfl, hindexed⟩ := Facts.recordIndexed_eq_ok hrecord
          have hvoters : some a = facts.indexed ∨ facts.indexed = none ∧ ∃ state a',
              c.stateAt s.data.target = .ok state ∧ state.indexed s.attestation = .ok a'
                ∧ some a = some a' :=
            hindexed.imp Eq.symm fun ⟨hnone, hfound⟩ => ⟨hnone, state, a, hstate, hfound, rfl⟩
          dsimp only
          split
          case h_1 => exact ⟨rfl, hvoters, .inl rfl⟩
          case h_2 =>
            rw [Facts.recordSeed_eq]
            refine ⟨rfl, hvoters, ?_⟩
            cases facts.seed with
            | none => exact .inr rfl
            | some seed => exact .inl rfl

theorem learns_examine (c : JudgeConfig) (features : Features) (j : Judge) (s : Submission)
    (facts : Facts) : Learns c s facts (examine c features j s facts).1 := by
  unfold examine
  split
  case h_1 => exact .refl c s facts
  case h_2 =>
    split
    case h_1 => exact .refl c s facts
    case h_2 =>
      split
      case h_1 => exact .refl c s facts
      case h_2 => exact learns_checkVoters c features s facts

/-- Whoever checks the voters records them, and a seed. -/
theorem complete_of_checkVoters (h : checkVoters c features s facts = (facts', .ok ())) :
    facts'.Complete := by
  obtain ⟨state, a, learned, -, hrecord, -, rfl⟩ := checkVoters_eq_ok.mp h
  obtain ⟨rfl, -⟩ := Facts.recordIndexed_eq_ok hrecord
  rw [Facts.recordSeed_eq]
  exact ⟨rfl, rfl⟩

-- =========================================================== decisions

/-- A judge that recorded the votes of an attestation, if there is one. -/
def recorded (j : Judge) : Option IndexedAttestation → Judge
  | none => j
  | some indexed => (apply j indexed).value

/-- The verdict follows from the checks and the clock; votes are recorded
if it is that the submission was applied, and not otherwise. -/
theorem process_value (c : JudgeConfig) (features : Features) (j : Judge) (s : Submission)
    (facts : Facts) :
    (process c features j s facts).value
      = match examine c features j s facts with
        | (facts, .error (.missing root)) => (j, facts, .unknownBlock root)
        | (facts, .error (.rejection reason)) => (j, facts, .invalid reason)
        | (facts, .ok ()) =>
          if j.currentSlot ≤ s.data.slot then (j, facts, .savedForFuture)
          else (j.recorded facts.indexed, facts, .successful) := by
  unfold process
  rcases examine c features j s facts with ⟨facts', (root | reason) | u⟩
  · rfl
  · rfl
  · dsimp only
    split
    case isTrue => rfl
    case isFalse =>
      cases facts'.indexed with
      | none => rfl
      | some indexed => rfl

-- ============================================================= blocks

theorem tree_recorded (j : Judge) (indexed : Option IndexedAttestation) :
    (j.recorded indexed).store.tree = j.store.tree := by
  cases indexed with
  | none => rfl
  | some indexed => rfl

theorem tree_process (c : JudgeConfig) (features : Features) (j : Judge) (s : Submission)
    (facts : Facts) : (process c features j s facts).value.1.store.tree = j.store.tree := by
  rw [process_value]
  split
  case h_1 => rfl
  case h_2 => rfl
  case h_3 facts' _ =>
    split
    case isTrue => rfl
    case isFalse => exact tree_recorded j facts'.indexed

theorem tree_applied (c : JudgeConfig) (ledger : Ledger) (j : Judge) (due : List Submission) :
    (Manager.applied (processor c) ledger j due).store.tree = j.store.tree :=
  Manager.applied_kept (P := fun j' : Judge => j'.store.tree = j.store.tree)
    (fun _ _ hsame => hsame) rfl due

-- =========================================================== verdicts

/-- The target is looked for first, then the head. -/
theorem missingBlock?_eq (store : Store) (d : AttestationData) :
    missingBlock? store d
      = if store.tree.contains d.target.root then
          if store.tree.contains d.beaconBlockRoot then none else some d.beaconBlockRoot
        else some d.target.root := by
  unfold missingBlock?
  cases htarget : store.tree.contains d.target.root with
  | false => simp [htarget]
  | true =>
      cases hhead : store.tree.contains d.beaconBlockRoot with
      | false => simp [htarget, hhead]
      | true => simp [htarget, hhead]

/-- The missing block is one that the data depend on. -/
theorem missingBlock?_eq_some {store : Store} {d : AttestationData}
    (h : missingBlock? store d = some root) :
    (root = d.target.root ∨ root = d.beaconBlockRoot) ∧ store.tree.contains root = false := by
  refine ⟨?_, ?_⟩
  · have hmem := List.mem_of_find?_eq_some h
    simpa using hmem
  · have hfound := List.find?_some h
    simpa using hfound

/-- A block is missing only where the search for one found it, and then
nothing is learned of the submission. -/
theorem examine_missing (h : (examine c features j s facts).2 = .error (.missing root)) :
    missingBlock? j.store s.data = some root ∧ (examine c features j s facts).1 = facts := by
  unfold examine at h ⊢
  cases htime : checkTime c j.currentSlot s.attestation with
  | error reason =>
      rw [htime] at h
      cases h
  | ok u =>
      rw [htime] at h
      dsimp only at h ⊢
      cases hmissing : missingBlock? j.store s.data with
      | some found =>
          rw [hmissing] at h
          injection h with h
          injection h with h
          rw [h]
          exact ⟨rfl, rfl⟩
      | none =>
          rw [hmissing] at h
          dsimp only at h
          split at h
          case h_1 => cases h
          case h_2 =>
            -- a rejection, if anything
            revert h
            cases (checkVoters c features s facts).2 with
            | ok u => exact fun h => nomatch h
            | error reason => exact fun h => nomatch h

/-- The verdict is that a block is missing if that is what stands in the
way. -/
theorem process_unknownBlock_iff :
    (process c features j s facts).value.2.2 = .unknownBlock root
      ↔ (examine c features j s facts).2 = .error (.missing root) := by
  rw [process_value]
  split
  case h_1 heq => simp [heq]
  case h_2 heq => simp [heq]
  case h_3 heq =>
    split
    case isTrue => simp [heq]
    case isFalse => simp [heq]

theorem process_unknownBlock
    (h : (process c features j s facts).value.2.2 = .unknownBlock root) :
    missingBlock? j.store s.data = some root :=
  (examine_missing (process_unknownBlock_iff.mp h)).1

/-- A submission for which a block is missing is put aside as it is. -/
theorem process_eq_of_unknownBlock
    (h : (process c features j s facts).value.2.2 = .unknownBlock root) :
    (process c features j s facts).value = (j, facts, .unknownBlock root) := by
  have hmissing := process_unknownBlock_iff.mp h
  have hexamine : examine c features j s facts = (facts, .error (.missing root)) :=
    Prod.ext (examine_missing hmissing).2 hmissing
  rw [process_value, hexamine]

/-- A submission is saved if it passes all checks before its slot is
over. The judge stays as it is. -/
theorem process_savedForFuture
    (h : (process c features j s facts).value.2.2 = .savedForFuture) :
    ∃ facts', examine c features j s facts = (facts', .ok ()) ∧ j.currentSlot ≤ s.data.slot
      ∧ (process c features j s facts).value = (j, facts', .savedForFuture) := by
  rw [process_value] at h ⊢
  rcases hexamine : examine c features j s facts with ⟨facts', (root | reason) | u⟩
  · rw [hexamine] at h
    cases h
  · rw [hexamine] at h
    cases h
  · rw [hexamine] at h
    dsimp only at h ⊢
    split at h
    case isTrue hearly => exact ⟨facts', rfl, hearly, if_pos hearly⟩
    case isFalse => cases h

/-- A submission was applied if it passes all checks once its slot is
over, and then its votes are recorded. -/
theorem process_successful
    (h : (process c features j s facts).value.2.2 = .successful) :
    ∃ facts', examine c features j s facts = (facts', .ok ()) ∧ s.data.slot < j.currentSlot
      ∧ (process c features j s facts).value
        = (j.recorded facts'.indexed, facts', .successful) := by
  rw [process_value] at h ⊢
  rcases hexamine : examine c features j s facts with ⟨facts', (root | reason) | u⟩
  · rw [hexamine] at h
    cases h
  · rw [hexamine] at h
    cases h
  · rw [hexamine] at h
    dsimp only at h ⊢
    split at h
    case isTrue => cases h
    case isFalse hover => exact ⟨facts', rfl, UInt64.not_le.mp hover, if_neg hover⟩

theorem learns_process (c : JudgeConfig) (features : Features) (j : Judge) (s : Submission)
    (facts : Facts) : Learns c s facts (process c features j s facts).value.2.1 := by
  have hlearns := learns_examine c features j s facts
  rw [process_value]
  rcases hexamine : examine c features j s facts with ⟨facts', (root | reason) | u⟩
  · rw [hexamine] at hlearns
    exact hlearns
  · rw [hexamine] at hlearns
    exact hlearns
  · rw [hexamine] at hlearns
    dsimp only
    split
    case isTrue => exact hlearns
    case isFalse => exact hlearns

/-- Any other verdict leaves the judge as it is. -/
theorem process_state (h : (process c features j s facts).value.2.2 ≠ .successful) :
    (process c features j s facts).value.1 = j := by
  rw [process_value] at h ⊢
  split
  case h_1 => rfl
  case h_2 => rfl
  case h_3 heq =>
    rw [heq] at h
    dsimp only at h
    split
    case isTrue => rfl
    case isFalse hover => exact absurd (by rw [if_neg hover]) h

/-- Before its slot is over no vote of a submission is recorded, and the
verdict is not that it was applied. -/
theorem process_early (c : JudgeConfig) (features : Features) (facts : Facts)
    (h : j.currentSlot ≤ s.data.slot) :
    (process c features j s facts).value.1 = j
      ∧ (process c features j s facts).value.2.2 ≠ .successful := by
  rw [process_value]
  split
  case h_1 => simp
  case h_2 => simp
  case h_3 => simp [h]

-- ============================================================== clocks

theorem currentSlot_recorded (j : Judge) (indexed : Option IndexedAttestation) :
    (j.recorded indexed).currentSlot = j.currentSlot := by
  cases indexed with
  | none => rfl
  | some indexed => rfl

/-- No verdict moves the clock. -/
theorem currentSlot_process (c : JudgeConfig) (features : Features) (j : Judge) (s : Submission)
    (facts : Facts) : (process c features j s facts).value.1.currentSlot = j.currentSlot := by
  rw [process_value]
  split
  case h_1 => rfl
  case h_2 => rfl
  case h_3 facts' _ =>
    split
    case isTrue => rfl
    case isFalse => exact currentSlot_recorded j facts'.indexed

theorem currentSlot_applied (c : JudgeConfig) (ledger : Ledger) (j : Judge)
    (due : List Submission) :
    (Manager.applied (processor c) ledger j due).currentSlot = j.currentSlot :=
  Manager.applied_kept (P := fun j' : Judge => j'.currentSlot = j.currentSlot)
    (fun _ _ hsame => hsame) rfl due

/-- A clock shows the latest slot that began. -/
theorem toNat_onSlot (j : Judge) (slot : Slot) :
    (j.onSlot slot).currentSlot.toNat = max j.currentSlot.toNat slot.toNat := by
  show (if j.currentSlot ≤ slot then slot else j.currentSlot).toNat = _
  by_cases hle : j.currentSlot ≤ slot
  · rw [if_pos hle]
    exact (Nat.max_eq_right (UInt64.le_iff_toNat_le.mp hle)).symm
  · have hlt := UInt64.lt_iff_toNat_lt.mp (UInt64.not_le.mp hle)
    rw [if_neg hle]
    omega

/-- A clock never goes back, and does not stay behind a slot that begins. -/
theorem le_onSlot (j : Judge) (slot : Slot) :
    j.currentSlot ≤ (j.onSlot slot).currentSlot ∧ slot ≤ (j.onSlot slot).currentSlot := by
  rw [UInt64.le_iff_toNat_le, UInt64.le_iff_toNat_le, toNat_onSlot]
  exact ⟨Nat.le_max_left _ _, Nat.le_max_right _ _⟩

end Judge

end ChainHead
