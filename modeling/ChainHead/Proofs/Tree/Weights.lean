/-
Weights are exact, or nothing has happened.

Applying scores answers in one of two ways. Either every weight has
changed by the exact sum of the deltas of its subtree, or the tree is
the one before the call. Which of them it is can be told in advance for
deltas that are small together: if their absolute values sum to less
than `2 ^ 63`, then no sum that the pass comes across leaves the range
(`contained_of_sum_abs_lt`), and a refusal means that a new weight would
have been no word.

Sums over subtrees are given by a relation, so that they can be reasoned
about; `walksUpTo` decides it, so that they can be computed.
-/
import ChainHead.Proofs.Tree.Run
import Mathlib.Algebra.Order.BigOperators.Group.Finset
import Mathlib.Algebra.Order.Ring.Int

namespace ChainHead.Tree

open Finset (range)

variable {t : Tree} {nodes : Array Node} {d : Nat → Int} {i j : Nat}

-- ================================================= computable subtrees

/-- Whether some steps along parent links from a position come to
another. -/
def walksUpTo (nodes : Array Node) (ancestor : Nat) : (steps : Nat) → (start : Nat) → Bool
  | 0, j => j == ancestor
  | steps + 1, j =>
    j == ancestor || (parentAt nodes j).any (walksUpTo nodes ancestor steps)

/-- Parents come first, so a walk is over after as many steps as there
are positions before its start. -/
theorem walksUpTo_iff (hr : Rooted nodes) {steps : Nat} (hsteps : j ≤ steps) :
    walksUpTo nodes i steps j = true ↔ Below nodes i j := by
  induction steps generalizing j with
  | zero =>
      have hnone : parentAt nodes j = none := by
        cases hp : parentAt nodes j with
        | none => rfl
        | some p => exact absurd (hr j p hp) (by omega)
      rw [below_iff_parent, hnone]
      simp [walksUpTo]
  | succ steps ih =>
      rw [below_iff_parent, walksUpTo, Bool.or_eq_true, beq_iff_eq, Option.any_eq_true]
      refine or_congr_right (exists_congr fun p => and_congr_right fun hp => ?_)
      have hlt := hr j p hp
      exact ih (by omega)

/-- The sum over a subtree, computed. -/
theorem shift_eq_sum_walksUpTo (hr : Rooted nodes) (d : Nat → Int) (i : Nat) :
    shift nodes d i = ∑ x ∈ range nodes.size with walksUpTo nodes i x x = true, d x := by
  classical
  unfold shift
  refine Finset.sum_congr (Finset.filter_congr fun x _ => ?_) fun _ _ => rfl
  rw [walksUpTo_iff hr (Nat.le_refl x)]

-- ======================================================== small deltas

/-- No sum of some deltas is greater than that of all absolute values. -/
theorem contained_of_sum_abs_lt (h : ∑ x ∈ range nodes.size, |d x| < 2 ^ 63) :
    Contained nodes d := by
  intro S hS
  have habs : |∑ x ∈ S, d x| < 2 ^ 63 := calc
    |∑ x ∈ S, d x| ≤ ∑ x ∈ S, |d x| := Finset.abs_sum_le_sum_abs d S
    _ ≤ ∑ x ∈ range nodes.size, |d x| :=
        Finset.sum_le_sum_of_subset_of_nonneg hS fun x _ _ => abs_nonneg (d x)
    _ < 2 ^ 63 := h
  obtain ⟨hlow, hhigh⟩ := abs_lt.mp habs
  exact ⟨Int.le_of_lt hlow, hhigh⟩

-- ====================================================== all or nothing

/-- After any run, a call that applies scores either moves every weight
by the exact sum of the deltas of the block and its descendants, or
leaves the tree, epochs included, as it was; it does the first whenever
the deltas are as many as the blocks and small together, and every new
weight is a word. -/
theorem applyScores_exact_or_absent (justifiedEpoch finalizedEpoch : Epoch)
    (pruneThreshold : Nat) (calls : List Call) (deltas : Array Delta)
    (newJustified newFinalized : Epoch) :
    let t := (empty justifiedEpoch finalizedEpoch pruneThreshold).after calls
    let scored := t.applyScores deltas newJustified newFinalized
    (scored.2 = .ok () → scored.1.size = t.size ∧
        ∀ (i : Nat) n, t.nodes[i]? = some n → ∃ n', scored.1.nodes[i]? = some n' ∧
          n'.root = n.root ∧
          (n'.weight.toNat : Int) = n.weight.toNat + shift t.nodes (deltaAt deltas) i)
      ∧ (∀ error, scored.2 = .error error → scored.1 = t)
      ∧ (deltas.size = t.size → ∑ x ∈ range t.size, |deltaAt deltas x| < 2 ^ 63 →
          (∀ i < t.size, Fits t.nodes (deltaAt deltas) i) → scored.2 = .ok ()) := by
  intro t scored
  have hsound : Sound t := (sound_empty justifiedEpoch finalizedEpoch pruneThreshold).after calls
  rcases hsound.applyScores_cases deltas newJustified newFinalized with
    ⟨hsize, heq⟩ | ⟨-, i, hi, heq, hnofit⟩ | ⟨-, t', heq, hscored⟩
  case inl =>
    have hresult : scored = (t, .error (.deltaCount deltas.size t.size)) := heq
    rw [hresult]
    exact ⟨fun hok => (nomatch hok), fun _ _ => rfl, fun hcount => absurd hcount hsize⟩
  case inr.inl =>
    have hresult : scored = (t, .error (.overflow i)) := heq
    rw [hresult]
    exact ⟨fun hok => (nomatch hok), fun _ _ => rfl, fun _ hsmall hfits =>
      absurd (hfits i hi) (hnofit (contained_of_sum_abs_lt hsmall))⟩
  case inr.inr =>
    have hresult : scored = (t', .ok ()) := heq
    rw [hresult]
    refine ⟨fun _ => ⟨hscored.size, fun i n hn => ?_⟩, fun _ hfail => (nomatch hfail),
      fun _ _ _ => rfl⟩
    obtain ⟨n', hn', hsame⟩ := hscored.get hn
    exact ⟨n', hn', root_eq_of_unscored hsame, hscored.weight i n n' hn hn'⟩

/-- Weight moves between siblings, and their parent loses the
difference; what one of them does not have cannot be taken. -/
theorem applyScores_exact_or_absent_reversal :
    let t := (empty 1 1 0).after reversal
    let scored := t.applyScores #[0, -20, 5] 2 1
    let refused := t.applyScores #[0, 20, -11] 2 1
    (t.nodes.toList.map (·.weight) = [30, 20, 10]
        ∧ scored.1.nodes.toList.map (·.weight) = [15, 0, 15])
      ∧ scored.2 = .ok () ∧ refused.1 = t := by
  intro t scored refused
  obtain ⟨-, -, hok⟩ := applyScores_exact_or_absent 1 1 0 reversal #[0, -20, 5] 2 1
  obtain ⟨-, habsent, -⟩ := applyScores_exact_or_absent 1 1 0 reversal #[0, 20, -11] 2 1
  have hrooted : Rooted t.nodes := ((sound_empty 1 1 0).after reversal).rooted
  have hfits : ∀ i < t.size, Fits t.nodes (deltaAt #[0, -20, 5]) i := by
    intro i hi
    refine ⟨_, Array.getElem?_eq_getElem hi, ?_⟩
    rw [shift_eq_sum_walksUpTo hrooted]
    revert i
    decide +kernel
  exact ⟨by decide +kernel, hok (by decide +kernel) (by decide +kernel) hfits,
    habsent (.overflow 2) (by decide +kernel)⟩

end ChainHead.Tree
