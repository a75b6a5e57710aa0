/-
Runs of a tree, and best links that no run can spoil.

A run is the list of its calls, newest first; a call that fails leaves
what the operation left. `Sound.after` is the one induction over runs.
With it, `bestLinked_of_applyScores` says of every call that applies
scores, after any run, that the best links are those that can be read
off weights, roots, epochs and parents (`BestLinked`): nothing is left
of the links of before.
-/
import ChainHead.Proofs.Tree.Drop
import ChainHead.Proofs.Tree.Rescore

namespace ChainHead.Tree

variable {t t' : Tree} {i : Nat}

-- =============================================================== calls

/-- What can be asked of a tree. -/
inductive Call where
  | insert (slot : Slot) (root parentRoot stateRoot : Root)
      (justifiedEpoch finalizedEpoch : Epoch)
  | applyScores (deltas : Array Delta) (justifiedEpoch finalizedEpoch : Epoch)
  | prune (finalizedRoot : Root)
  | pruneThreshold (threshold : Nat)

/-- The tree after one call, whether that failed or not. -/
def call (t : Tree) : Call → Tree
  | .insert slot root parentRoot stateRoot justifiedEpoch finalizedEpoch =>
    match t.insert slot root parentRoot stateRoot justifiedEpoch finalizedEpoch with
    | .ok t' => t'
    | .error _ => t
  | .applyScores deltas justifiedEpoch finalizedEpoch =>
    (t.applyScores deltas justifiedEpoch finalizedEpoch).1
  | .prune finalizedRoot => (t.prune finalizedRoot).value.1
  | .pruneThreshold threshold => t.setPruneThreshold threshold

/-- The tree after a run, given newest call first. -/
def after (start : Tree) : List Call → Tree
  | [] => start
  | c :: earlier => (after start earlier).call c

/-- No call makes a sound tree unsound. -/
theorem Sound.call (h : Sound t) (c : Call) : Sound (t.call c) := by
  cases c with
  | insert slot root parentRoot stateRoot justifiedEpoch finalizedEpoch =>
      simp only [Tree.call]
      split
      case h_1 t' hok => exact h.insert hok
      case h_2 => exact h
  | applyScores deltas justifiedEpoch finalizedEpoch =>
      exact h.applyScores deltas justifiedEpoch finalizedEpoch
  | prune finalizedRoot => exact h.prune finalizedRoot
  | pruneThreshold threshold => exact h.setPruneThreshold threshold

/-- No run makes a sound tree unsound. -/
theorem Sound.after (h : Sound t) (calls : List Call) : Sound (t.after calls) := by
  induction calls with
  | nil => exact h
  | cons c earlier ih => exact ih.call c

-- ========================================================== best links

/-- Whether the best child of a block is the greatest of the children
that lead to a possible head, and its best descendant the end of the
chain of best children. -/
structure BestLinked (t : Tree) (i : Nat) : Prop where
  child : ∀ c, bestChildAt t.nodes i = some c ↔ t.IsBestChild i c
  childless : bestChildAt t.nodes i = none ↔ ∀ c, ¬ t.Candidate i c
  descendant : ∀ e, bestDescendantAt t.nodes i = some e ↔
    bestChildAt t.nodes i ≠ none ∧ LastBest t.nodes i e

/-- A tree whose links are refreshed has the best links. -/
theorem Sound.bestLinked (h : Sound t) (hfresh : Refreshing t 0) (i : Nat) :
    BestLinked t i where
  child := fun _ => hfresh.bestChildAt_eq_some_iff h.rank_injective
  childless := hfresh.bestChildAt_eq_none_iff
  descendant := by
    intro e
    constructor
    · intro he
      refine ⟨fun hnone => ?_, ?_⟩
      · rw [h.alone i hnone] at he
        cases he
      · have hlast := hfresh.lastBest i
        rw [he] at hlast
        exact hlast
    · rintro ⟨hchild, hlast⟩
      obtain ⟨b, hb⟩ := Option.ne_none_iff_exists'.mp hchild
      obtain ⟨d, hd, -, -⟩ := h.descendant i b hb
      have hlast' := hfresh.lastBest i
      rw [hd] at hlast'
      rw [hd]
      exact congrArg some (hlast'.unique hlast)

/-- After any run, a call that applies scores sets every best link
anew. -/
theorem bestLinked_of_applyScores {justifiedEpoch finalizedEpoch : Epoch}
    {pruneThreshold : Nat} {calls : List Call} {deltas : Array Delta}
    {newJustified newFinalized : Epoch}
    (hok : ((empty justifiedEpoch finalizedEpoch pruneThreshold).after calls).applyScores
      deltas newJustified newFinalized = (t', .ok ())) :
    t'.justifiedEpoch = newJustified ∧ t'.finalizedEpoch = newFinalized ∧
      ∀ i, BestLinked t' i := by
  have hsound := (sound_empty justifiedEpoch finalizedEpoch pruneThreshold).after calls
  rcases hsound.applyScores_cases deltas newJustified newFinalized with
    ⟨-, heq⟩ | ⟨-, i, -, heq, -⟩ | ⟨-, u, heq, hscored⟩
  · rw [hok] at heq
    injection heq with _ herror
    cases herror
  · rw [hok] at heq
    injection heq with _ herror
    cases herror
  · rw [hok] at heq
    injection heq with htree
    rw [htree]
    exact ⟨hscored.justifiedEpoch, hscored.finalizedEpoch,
      (hscored.sound hsound).bestLinked hscored.refreshing⟩

/-- Two siblings, of which the heavier one stops being viable. -/
def reversal : List Call :=
  [.applyScores #[0, 20, 10] 1 1,
    .insert 2 3 1 0 2 1,
    .insert 1 2 1 0 1 1,
    .insert 0 1 0 0 1 1]

/-- The link to the heavier sibling goes with its viability. -/
theorem bestLinked_after_reversal :
    let before := (empty 1 1 0).after reversal
    let after := before.applyScores #[0, 0, 0] 2 1
    (bestChildAt before.nodes 0 = some 1 ∧ bestChildAt after.1.nodes 0 = some 2) ∧
      ∀ i, BestLinked after.1 i := by
  intro before after
  have hok : before.applyScores #[0, 0, 0] 2 1 = (after.1, .ok ()) :=
    Prod.ext rfl (by decide +kernel)
  exact ⟨by decide +kernel, (bestLinked_of_applyScores hok).2.2⟩

end ChainHead.Tree
