/-
Which blocks a store knows.

A block becomes known by being added and in no other way. Head updates
move weights and links and leave the index alone, finalizations only
take blocks out of it. This holds of any store, sound or not, so nothing
has to be known of the store that somebody else fills.
-/
import ChainHead.Proofs.Map
import ChainHead.Proofs.Store.Calls

namespace ChainHead

-- =============================================================== trees

namespace Tree

variable {t t' : Tree} {root : Root}

theorem positions_offerChild {parent child : Nat} (h : t.offerChild parent child = .ok t') :
    t'.positions = t.positions := by
  unfold offerChild at h
  cases hc : t.nodes[child]? with
  | none =>
      rw [hc] at h
      cases h
  | some c =>
      cases hp : t.nodes[parent]? with
      | none =>
          rw [hc, hp] at h
          cases h
      | some p =>
          rw [hc, hp] at h
          cases hlinks : t.linksAfter child p c with
          | error e =>
              simp only [hlinks] at h
              cases h
          | ok links =>
              simp only [hlinks] at h
              injection h with h
              rw [← h]

theorem positions_refreshLinks (k : Nat) (t : Tree) :
    (refreshLinks k t).1.positions = t.positions := by
  induction k generalizing t with
  | zero => rfl
  | succ k ih =>
      unfold refreshLinks
      split
      case h_1 => exact ih t
      case h_2 p _ =>
        cases hoffer : t.offerChild p k with
        | error e => rfl
        | ok t' => exact (ih t').trans (positions_offerChild hoffer)

theorem positions_applyScores (t : Tree) (deltas : Array Delta)
    (justifiedEpoch finalizedEpoch : Epoch) :
    (t.applyScores deltas justifiedEpoch finalizedEpoch).1.positions = t.positions := by
  unfold applyScores
  split
  case isTrue => rfl
  case isFalse =>
    split
    case h_1 => rfl
    case h_2 => exact positions_refreshLinks _ _

/-- Shifted positions are those of the same blocks. -/
theorem contains_shiftPositions {count : Nat} {positions shifted : Std.ExtTreeMap Root Nat}
    (h : shiftPositions count positions = .ok shifted) (root : Root) :
    shifted.contains root = positions.contains root := by
  unfold shiftPositions at h
  split at h
  case h_1 => cases h
  case h_2 =>
    injection h with h
    rw [← h, Std.ExtTreeMap.contains_map]

/-- What is left after blocks were dropped was there before. -/
theorem contains_of_prune {finalizedRoot : Root}
    (h : (t.prune finalizedRoot).value.1.contains root = true) : t.contains root = true := by
  have hdrained : ∀ dropped : List Root,
      (dropped.foldl (fun m root => m.erase root) t.positions).contains root = true →
        t.contains root = true := by
    intro dropped hin
    rw [Std.ExtTreeMap.contains_eq_isSome_getElem?, Map.getElem?_foldl_erase] at hin
    split at hin
    case isTrue => cases hin
    case isFalse => exact (Std.ExtTreeMap.contains_eq_isSome_getElem? ..).trans hin
  unfold prune at h
  split at h
  case h_1 => exact h
  case h_2 count _ =>
    split at h
    case isTrue => exact h
    case isFalse =>
      dsimp only at h
      split at h
      case h_1 => exact hdrained _ h
      case h_2 positions hshift =>
        have hshifted : positions.contains root = true := by
          split at h
          case h_1 => exact h
          case h_2 => exact h
        exact hdrained _ ((contains_shiftPositions hshift root).symm.trans hshifted)

end Tree

-- =============================================================== calls

namespace Store

theorem positions_applyVotes (s : Store) (sharing : Sharing) :
    (s.applyVotes sharing).state.tree.positions = s.tree.positions := by
  unfold applyVotes
  split
  case h_1 => rfl
  case h_2 deltas _ =>
    have hscores := s.tree.positions_applyScores deltas s.snapshot.justified.epoch
      s.snapshot.finalized.epoch
    split
    case h_1 tree _ heq =>
      rw [heq] at hscores
      exact hscores
    case h_2 tree heq =>
      rw [heq] at hscores
      exact hscores

theorem positions_updateHead (s : Store) (features : Features) (sharing : Sharing) :
    (s.updateHeadShared features sharing).value.state.tree.positions = s.tree.positions := by
  have hvotes := positions_applyVotes { s with metrics := s.metrics.countHeadUpdate } sharing
  rw [updateHead_value]
  split
  case h_1 u e heq =>
    rw [heq] at hvotes
    exact hvotes
  case h_2 u heq =>
    rw [heq] at hvotes
    exact hvotes

/-- A call makes at most the block known that it adds. -/
theorem contains_call {s : Store} {c : Call} {root : Root}
    (h : (s.call c).tree.contains root = true) :
    s.tree.contains root = true
      ∨ ∃ b justified finalized, c = .block b justified finalized ∧ root = b.hashTreeRoot := by
  cases c with
  | block b justified finalized =>
      simp only [call] at h
      rcases s.onBlock_cases b justified finalized with ⟨-, heq⟩ | ⟨hnew, metrics, heq⟩
      · rw [heq] at h
        exact Or.inl h
      · rw [heq] at h
        rcases (Tree.contains_extend _ _ _).mp h with heq | hin
        · exact Or.inr ⟨b, justified, finalized, rfl, heq.symm⟩
        · exact Or.inl hin
  | attestation a => exact Or.inl h
  | justified checkpoint balancesOf =>
      simp only [call] at h
      rcases s.updateJustified_cases checkpoint balancesOf with
        ⟨reason, -, heq⟩ | ⟨balances, -, heq⟩
      · rw [heq] at h
        exact Or.inl h
      · rw [heq] at h
        exact Or.inl h
  | finalized checkpoint =>
      obtain ⟨metrics, hstate⟩ := updateFinalizedBlock_state
        { s with snapshot := s.snapshot.withFinalized checkpoint } checkpoint.root
      simp only [call, updateFinalized, hstate] at h
      exact Or.inl (Tree.contains_of_prune h)
  | finalizedBlock root =>
      obtain ⟨metrics, hstate⟩ := s.updateFinalizedBlock_state root
      simp only [call, hstate] at h
      exact Or.inl (Tree.contains_of_prune h)
  | pruneThreshold n => exact Or.inl h
  | head features sharing =>
      refine Or.inl ?_
      show s.tree.positions.contains root = true
      rw [← s.positions_updateHead features sharing]
      exact h

end Store

end ChainHead
