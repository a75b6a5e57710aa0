/-
What a pool counts, and what its gauges show.

The size of a pool is kept by hand: an addition that was taken in counts
one more, and what a removal or an eviction takes out of the groups is
taken off. So it is the number of submissions in all groups
(`size_call`), even if different data share a root and the index is not
to be relied on: each operation replaces one group or erases some, and
takes from the size what these had and the new ones have not.

Everything that changes a pool sets the gauges at its end, or changes
nothing that they show. A selection for a block leaves the groups alone
and counts itself. `Metered` says that the count is right and the gauges
show it, and every pool is metered that can be reached by calls and
selections (`metered_operated`).
-/
import ChainHead.Proofs.Pool.Refusal

namespace ChainHead.Pool

variable {p : Pool}

-- ========================================================== operations

/-- What can be asked of a pool: a call, or a selection for a block on a
state. -/
inductive Operation where
  | call (call : Call)
  | selection (selection : Selection) (state : BeaconState)

/-- The pool after one operation. -/
def operate (preset : Preset) (p : Pool) : Operation → Pool
  | .call c => p.call preset c
  | .selection sel state => (p.attestationsForBlock preset sel state).value.1

/-- The pool after operations, given newest first. -/
def operated (preset : Preset) (start : Pool) : List Operation → Pool
  | [] => start
  | o :: earlier => (operated preset start earlier).operate preset o

/-- A selection is counted, even if it fails, and changes nothing else. -/
theorem selection_state (preset : Preset) (p : Pool) (sel : Selection) (state : BeaconState) :
    (p.attestationsForBlock preset sel state).value.1
      = { p with metrics := p.metrics.countPacking } := by
  unfold attestationsForBlock
  dsimp only
  rw [Logged.value_bind]
  split
  case h_1 => rfl
  case h_2 => rfl

-- ============================================================== counting

/-- The group that a submission is to join has as many members as there
are at its root. -/
theorem size_joined (p : Pool) (s : Submission) (seed : Root) :
    (p.joined s seed).size = (p.groups[s.dataRoot]?.map Group.size).getD 0 := by
  unfold joined
  rw [Std.ExtTreeMap.getD_eq_getD_getElem?]
  cases p.groups[s.dataRoot]? with
  | none => rfl
  | some g => rfl

/-- A group that is filed replaces the one that was joined. -/
theorem length_filed (p : Pool) (s : Submission) (seed : Root) (g : Group) (size : Nat) :
    (p.filed s g size).stored.length + (p.joined s seed).size = p.stored.length + g.size := by
  have hfiled : (p.filed s g size).stored.length
      = g.size + (storedIn (p.groups.erase s.dataRoot)).length :=
    length_storedIn_insert p.groups s.dataRoot g
  have hbefore : _ = p.stored.length := length_storedIn_erase p.groups s.dataRoot
  have hjoined := p.size_joined s seed
  omega

theorem size_add (h : p.size = p.stored.length) (preset : Preset) (s : Submission)
    (facts : Facts) :
    (p.call preset (.add s facts)).size = (p.call preset (.add s facts)).stored.length := by
  cases hseed : facts.seed with
  | none =>
      rw [call_add_unseeded _ _ _ hseed]
      exact h
  | some seed =>
      rw [call_add _ _ _ hseed]
      rcases (p.joined s seed).add_cases s with ⟨heq, -⟩ | ⟨members, heq, hperm⟩
      · have hlength := p.length_filed s seed (p.joined s seed) p.size
        rw [heq]
        show p.size = (p.filed s (p.joined s seed) p.size).stored.length
        omega
      · have hlength := p.length_filed s seed { p.joined s seed with members } (p.size + 1)
        have hone : ({ p.joined s seed with members } : Group).size = (p.joined s seed).size + 1 :=
          hperm.length_eq
        rw [heq]
        show p.size + 1 = (p.filed s { p.joined s seed with members } (p.size + 1)).stored.length
        omega

theorem size_removeEqual (h : p.size = p.stored.length) (a : Attestation) :
    (p.removeEqual a).size = (p.removeEqual a).stored.length := by
  rcases p.removeEqual_cases a with ⟨-, heq⟩ | ⟨g, hg, hcases⟩
  · rw [heq]
    exact h
  · have hsize := size_remove h hg a
    rcases hcases with ⟨hnil, heq⟩ | ⟨-, heq⟩
    · rw [hnil, List.length_nil, Nat.zero_add] at hsize
      rw [heq]
      exact hsize
    · rw [heq]
      exact hsize.trans (length_storedIn_insert _ _ _).symm

theorem size_foldl_removeEqual (h : p.size = p.stored.length) (as : List Attestation) :
    (as.foldl removeEqual p).size = (as.foldl removeEqual p).stored.length := by
  induction as generalizing p with
  | nil => exact h
  | cons a rest ih => exact ih (size_removeEqual h a)

/-- The size is right after a call if it was before. -/
theorem size_call (h : p.size = p.stored.length) (preset : Preset) (c : Call) :
    (p.call preset c).size = (p.call preset c).stored.length := by
  cases c with
  | add s facts => exact size_add h preset s facts
  | remove a => exact size_removeEqual h a
  | removeAll as => exact size_foldl_removeEqual h as
  | slot slot =>
      rw [call_slot]
      split
      case h_1 => exact h
      case h_2 first _ => exact size_evicted h first

-- =============================================================== gauges

/-- Whether the size of a pool counts what its groups hold, and its gauges
are set. -/
structure Metered (p : Pool) : Prop where
  size : p.size = p.stored.length
  gauges : p.updateMetrics = p

namespace Metered

theorem empty (retentionEpochs : UInt64) : Metered { retentionEpochs } where
  size := rfl
  gauges := rfl

theorem call (h : p.Metered) (preset : Preset) (c : Call) : (p.call preset c).Metered where
  size := size_call h.size preset c
  gauges := updateMetrics_call h.gauges preset c

theorem operate (h : p.Metered) (preset : Preset) (o : Operation) :
    (p.operate preset o).Metered := by
  cases o with
  | call c => exact h.call preset c
  | selection sel state =>
      show ((p.attestationsForBlock preset sel state).value.1).Metered
      rw [selection_state]
      refine ⟨h.size, ?_⟩
      exact congrArg (fun q : Pool => { q with metrics := q.metrics.countPacking }) h.gauges

/-- The gauges show how many submissions and groups there are. -/
theorem shown (h : p.Metered) :
    p.metrics.size = Metrics.gauge p.stored.length
      ∧ p.metrics.groups = Metrics.gauge p.groups.size := by
  have hmetrics := congrArg Pool.metrics h.gauges
  refine ⟨?_, (congrArg PoolMetrics.groups hmetrics).symm⟩
  rw [← h.size]
  exact (congrArg PoolMetrics.size hmetrics).symm

end Metered

theorem metered_operated (preset : Preset) (retentionEpochs : UInt64)
    (operations : List Operation) : (operated preset { retentionEpochs } operations).Metered := by
  induction operations with
  | nil => exact .empty retentionEpochs
  | cons o earlier ih => exact ih.operate preset o

end ChainHead.Pool
