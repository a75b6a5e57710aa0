/-
The table of votes as a function from validators to trackers.

A tracker that the table does not reach is blank, so the length of the
table is of no consequence: every operation on the table is an operation
on the tracker of each validator it is about. A validator that is listed
twice in one attestation votes once, because a vote does not replace
itself (`record_record`).
-/
import ChainHead.Vote.Delta
import Mathlib.Algebra.Order.BigOperators.Group.Finset

namespace ChainHead

variable {root : Root} {epoch : Epoch}

/-- To record a vote again changes nothing. -/
theorem Tracker.record_record (v : Tracker) (root : Root) (epoch : Epoch) :
    ((v.record root epoch).1.record root epoch).1 = (v.record root epoch).1 := by
  unfold record
  by_cases h : v.accepts epoch = true
  · rw [if_pos h]
    dsimp only
    split <;> rfl
  · rw [if_neg h]
    dsimp only
    rw [if_neg h]

theorem Tracker.record_of_accepts {v : Tracker} (h : v.accepts epoch = true) :
    (v.record root epoch).1 = { v with next := root, nextEpoch := epoch } := by
  rw [record, if_pos h]

theorem Tracker.record_of_not_accepts {v : Tracker} (h : ¬ v.accepts epoch = true) :
    (v.record root epoch).1 = v := by
  rw [record, if_neg h]

theorem Tracker.accepts_iff (v : Tracker) (epoch : Epoch) :
    v.accepts epoch = true ↔ v.nextEpoch.toNat < epoch.toNat ∨ v = {} := by
  unfold accepts isBlank
  rw [Bool.or_eq_true, decide_eq_true_iff, decide_eq_true_iff, UInt64.lt_iff_toNat_lt]

/-- A vote leaves no trace if there is one of a later epoch, whichever
comes first. -/
theorem Tracker.record_of_lt (v : Tracker) (root later : Root) {epoch' : Epoch}
    (hlt : epoch.toNat < epoch'.toNat) :
    ((v.record root epoch).1.record later epoch').1 = (v.record later epoch').1
      ∧ ((v.record later epoch').1.record root epoch).1 = (v.record later epoch').1 := by
  by_cases h' : v.accepts epoch' = true
  · constructor
    · by_cases h : v.accepts epoch = true
      · have hnext : ({ v with next := root, nextEpoch := epoch } : Tracker).accepts epoch'
            = true := (accepts_iff _ _).mpr (Or.inl hlt)
        rw [record_of_accepts h, record_of_accepts hnext, record_of_accepts h']
      · rw [record_of_not_accepts h]
    · apply record_of_not_accepts
      rw [record_of_accepts h', accepts_iff]
      intro hor
      cases hor with
      | inl hle => exact absurd hle (Nat.not_lt_of_lt hlt)
      | inr hblank =>
          have hzero : epoch' = 0 := congrArg nextEpoch hblank
          rw [hzero] at hlt
          exact absurd hlt (Nat.not_lt_zero _)
  · have h : ¬ v.accepts epoch = true := by
      rw [accepts_iff] at h' ⊢
      exact fun hor => h' (hor.imp_left fun hnext => Nat.lt_trans hnext hlt)
    rw [record_of_not_accepts h, record_of_not_accepts h', record_of_not_accepts h]
    exact ⟨rfl, rfl⟩

/-- Two votes can be recorded in either order, unless they name different
roots in one epoch. -/
theorem Tracker.record_comm (v : Tracker) {root' : Root} {epoch' : Epoch}
    (hsame : epoch = epoch' → root = root') :
    ((v.record root epoch).1.record root' epoch').1
      = ((v.record root' epoch').1.record root epoch).1 := by
  rcases Nat.lt_trichotomy epoch.toNat epoch'.toNat with hlt | heq | hlt
  · obtain ⟨hearly, hlate⟩ := v.record_of_lt root root' hlt
    rw [hearly, hlate]
  · have hepoch : epoch = epoch' := UInt64.toNat_inj.mp heq
    rw [hsame hepoch, hepoch]
  · obtain ⟨hearly, hlate⟩ := v.record_of_lt root' root hlt
    rw [hearly, hlate]

/-- A vote is recorded, or it leaves no trace. -/
theorem Tracker.record_cases (v : Tracker) (root : Root) (epoch : Epoch) :
    (v.record root epoch).1 = v
      ∨ (v.record root epoch).1 = { v with next := root, nextEpoch := epoch } := by
  unfold record
  split
  case isTrue => exact .inr rfl
  case isFalse => exact .inl rfl

/-- A vote does not touch what is counted. -/
theorem Tracker.record_current (v : Tracker) (root : Root) (epoch : Epoch) :
    (v.record root epoch).1.current = v.current := by
  unfold record
  split <;> rfl

namespace VoteTable

-- ============================================== statement vocabulary

/-- The tracker of a validator, blank if the table does not reach that far. -/
def tracker (t : VoteTable) (v : Nat) : Tracker :=
  t.trackers.getD v {}

/-- Whether votes for one root in one epoch make the difference between two
tables: who had no vote of that epoch or a later one has this one, and
nothing else is different. -/
structure Voted (root : Root) (epoch : Epoch) (validators : List ValidatorIndex)
    (t t' : VoteTable) : Prop where
  newer : ∀ v ∈ validators, (t.tracker v.toNat).nextEpoch < epoch ∨ t.tracker v.toNat = {} →
    t'.tracker v.toNat = { t.tracker v.toNat with next := root, nextEpoch := epoch }
  older : ∀ v ∈ validators, epoch ≤ (t.tracker v.toNat).nextEpoch → t.tracker v.toNat ≠ {} →
    t'.tracker v.toNat = t.tracker v.toNat
  others : ∀ v, v ∉ validators.map (·.toNat) → t'.tracker v = t.tracker v

/-- What the balances of all validators sum to. -/
def total (balances : Balances) : Nat :=
  ∑ v ∈ Finset.range balances.size, (balances.getD v 0).toNat

-- =========================================================== trackers

theorem tracker_of_size_le {t : VoteTable} {v : Nat} (h : t.trackers.size ≤ v) :
    t.tracker v = {} := by
  unfold tracker
  rw [Array.getD_eq_getD_getElem?, Array.getElem?_eq_none h]
  rfl

theorem tracker_reach (t : VoteTable) (validator : ValidatorIndex) (v : Nat) :
    (t.reach validator).tracker v = t.tracker v := by
  unfold tracker reach
  simp only [Array.getD_eq_getD_getElem?, Array.getElem?_append, Array.getElem?_replicate]
  by_cases hv : v < t.trackers.size
  · rw [if_pos hv]
  · rw [if_neg hv, Array.getElem?_eq_none (Nat.le_of_not_lt hv)]
    split <;> rfl

theorem lt_size_reach (t : VoteTable) (validator : ValidatorIndex) :
    validator.toNat < (t.reach validator).trackers.size := by
  unfold reach
  rw [Array.size_append, Array.size_replicate]
  omega

theorem tracker_record (t : VoteTable) (validator : ValidatorIndex) (root : Root)
    (epoch : Epoch) (v : Nat) :
    (t.record validator root epoch).1.tracker v
      = if v = validator.toNat then ((t.tracker v).record root epoch).1
        else t.tracker v := by
  have hreach := tracker_reach t validator
  have hlt := lt_size_reach t validator
  unfold record
  by_cases hv : v = validator.toNat
  · subst hv
    rw [if_pos rfl, ← hreach]
    unfold tracker
    simp only [Array.getD_eq_getD_getElem?, Array.getElem?_setIfInBounds_self, if_pos hlt]
    rfl
  · rw [if_neg hv, ← hreach]
    unfold tracker
    simp only [Array.getD_eq_getD_getElem?]
    rw [Array.getElem?_setIfInBounds_ne (Ne.symm hv)]

/-- An attestation is a vote of each validator listed. -/
theorem tracker_recordAll (t : VoteTable) (root : Root) (epoch : Epoch)
    (validators : List ValidatorIndex) (v : Nat) :
    (t.recordAll root epoch validators).1.tracker v
      = if v ∈ validators.map (·.toNat) then ((t.tracker v).record root epoch).1
        else t.tracker v := by
  induction validators generalizing t with
  | nil => simp [recordAll]
  | cons validator rest ih =>
      simp only [recordAll, ih, tracker_record, List.map_cons, List.mem_cons]
      by_cases hv : v = validator.toNat
      · simp only [if_pos hv, if_pos (Or.inl hv), Tracker.record_record, ite_self]
      · simp only [hv, if_false, false_or]

theorem voted_recordAll (t : VoteTable) (root : Root) (epoch : Epoch)
    (validators : List ValidatorIndex) :
    Voted root epoch validators t (t.recordAll root epoch validators).1 where
  newer v hv hnewer := by
    have haccepts : (t.tracker v.toNat).accepts epoch = true :=
      (Tracker.accepts_iff _ _).mpr (hnewer.imp_left UInt64.lt_iff_toNat_lt.mp)
    rw [tracker_recordAll, if_pos (List.mem_map_of_mem hv), Tracker.record_of_accepts haccepts]
  older v hv holder hvoted := by
    have hnot : ¬(t.tracker v.toNat).accepts epoch = true := by
      rw [Tracker.accepts_iff, not_or, Nat.not_lt]
      exact ⟨UInt64.le_iff_toNat_le.mp holder, hvoted⟩
    rw [tracker_recordAll, if_pos (List.mem_map_of_mem hv), Tracker.record_of_not_accepts hnot]
  others v hv := by rw [tracker_recordAll, if_neg hv]

/-- Attestations do not touch what is counted. -/
theorem current_recordAll (t : VoteTable) (root : Root) (epoch : Epoch)
    (validators : List ValidatorIndex) (v : Nat) :
    ((t.recordAll root epoch validators).1.tracker v).current = (t.tracker v).current := by
  rw [tracker_recordAll]
  split
  case isTrue => exact Tracker.record_current _ root epoch
  case isFalse => rfl

theorem tracker_commit (t : VoteTable) (v : Nat) :
    t.commit.tracker v = (t.tracker v).commit := by
  unfold tracker commit
  rw [Array.getD_eq_getD_getElem?, Array.getD_eq_getD_getElem?, Array.getElem?_map]
  cases t.trackers[v]? with
  | none => rfl
  | some w => rfl

/-- The latest message is what the tracker is to count, unless it is blank. -/
theorem latestMessage?_eq_some {t : VoteTable} {validator : ValidatorIndex}
    {message : Root × Epoch} : t.latestMessage? validator = some message
      ↔ t.tracker validator.toNat ≠ {}
        ∧ message = ((t.tracker validator.toNat).next, (t.tracker validator.toNat).nextEpoch) := by
  unfold latestMessage? get? tracker
  rw [Array.getD_eq_getD_getElem?]
  cases t.trackers[validator.toNat]? with
  | none => simp
  | some v =>
      unfold Tracker.isBlank
      by_cases hblank : v = {}
      · simp [hblank]
      · simp [eq_comm]

-- =========================================================== balances

theorem balance_of_size_le {balances : Balances} {v : Nat} (h : balances.size ≤ v) :
    balances.getD v 0 = 0 := by
  rw [Array.getD_eq_getD_getElem?, Array.getElem?_eq_none h]
  rfl

/-- A sum over validators does not depend on how far it goes, once the
rest is nothing. -/
theorem sum_range_eq {M : Type} [AddCommMonoid M] {f : Nat → M} {a b : Nat}
    (ha : ∀ v, a ≤ v → f v = 0) (hb : ∀ v, b ≤ v → f v = 0) :
    ∑ v ∈ Finset.range a, f v = ∑ v ∈ Finset.range b, f v := by
  rcases Nat.le_total a b with h | h
  · exact (Finset.eventually_constant_sum ha h).symm
  · exact Finset.eventually_constant_sum hb h

/-- No part of the balances exceeds the total. -/
theorem sum_range_le_total (balances : Balances) (k : Nat) :
    ∑ v ∈ Finset.range k, (balances.getD v 0).toNat ≤ total balances := by
  rcases Nat.le_total k balances.size with h | h
  · exact Finset.sum_le_sum_of_subset (Finset.range_subset_range.mpr h)
  · refine Nat.le_of_eq (Finset.eventually_constant_sum (fun v hv => ?_) h)
    rw [balance_of_size_le hv]
    rfl

end VoteTable

end ChainHead
