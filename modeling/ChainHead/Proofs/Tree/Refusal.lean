/-
What can go wrong with a tree: little, and without a trace.

Operations on trees check every position before they use it, and some of
these checks come when half of the work is done: blocks were dropped,
weights were written. In a sound tree none of them fails. What is left
are the refusals that a caller can bring about, by a block that is known
or unknown, by a list of deltas of the wrong length or by one that does
not fit (`Call.Refused`); they come first, so a call that is refused has
changed nothing (`Sound.answer_error`). The search for the head changes
nothing at all, and fails only for want of a start or of a viable end.
-/
import ChainHead.Proofs.Tree.Run

namespace ChainHead.Tree

variable {t : Tree} {error : Error} {c : Call}

-- ============================================== statement vocabulary

/-- What a call answers, besides the tree that it leaves. -/
def answer (t : Tree) : Call → Except Error Unit
  | .insert slot root parentRoot stateRoot justifiedEpoch finalizedEpoch =>
    (t.insert slot root parentRoot stateRoot justifiedEpoch finalizedEpoch).map fun _ => ()
  | .applyScores deltas justifiedEpoch finalizedEpoch =>
    (t.applyScores deltas justifiedEpoch finalizedEpoch).2
  | .prune finalizedRoot => (t.prune finalizedRoot).value.2
  | .pruneThreshold _ => .ok ()

/-- The errors that a call can end in, each with what has to be the
case. -/
inductive Call.Refused (t : Tree) : Call → Error → Prop
  | known (slot root parentRoot stateRoot justifiedEpoch finalizedEpoch)
      (hknown : t.contains root = true) :
      Refused t (.insert slot root parentRoot stateRoot justifiedEpoch finalizedEpoch)
        (.blockAlreadyKnown root)
  | miscounted (deltas justifiedEpoch finalizedEpoch) (hsize : deltas.size ≠ t.size) :
      Refused t (.applyScores deltas justifiedEpoch finalizedEpoch)
        (.deltaCount deltas.size t.size)
  | overflow (deltas justifiedEpoch finalizedEpoch i) (hsize : deltas.size = t.size)
      (hi : i < t.size) :
      Refused t (.applyScores deltas justifiedEpoch finalizedEpoch) (.overflow i)
  | unknown (finalizedRoot) (hunknown : t.contains finalizedRoot = false) :
      Refused t (.prune finalizedRoot) (.finalizedUnknown finalizedRoot)

/-- The errors that a search for the head can end in. -/
inductive NoHead (t : Tree) (root : Root) : Error → Prop
  | unknown (hunknown : t.contains root = false) : NoHead t root (.justifiedUnknown root)
  | notViable (i : Nat) (n : Node) (hn : t.nodes[i]? = some n) (hviable : t.isViable n = false) :
      NoHead t root (.headNotViable n.root n.justifiedEpoch n.finalizedEpoch t.justifiedEpoch
        t.finalizedEpoch)

-- ============================================================ refusals

/-- A call that fails was refused, and leaves a sound tree alone. -/
theorem Sound.answer_error (h : Sound t) (hfail : t.answer c = .error error) :
    t.call c = t ∧ c.Refused t error := by
  cases c with
  | insert slot root parentRoot stateRoot justifiedEpoch finalizedEpoch =>
      simp only [answer] at hfail
      simp only [Tree.call]
      rcases t.insert_cases slot root parentRoot stateRoot justifiedEpoch finalizedEpoch with
        ⟨hknown, heq⟩ | ⟨-, heq⟩
      · rw [heq] at hfail ⊢
        injection hfail with hfail
        exact ⟨rfl, hfail ▸ .known _ _ _ _ _ _ hknown⟩
      · rw [heq] at hfail
        cases hfail
  | applyScores deltas justifiedEpoch finalizedEpoch =>
      simp only [answer] at hfail
      simp only [Tree.call]
      rcases h.applyScores_cases deltas justifiedEpoch finalizedEpoch with
        ⟨hsize, heq⟩ | ⟨hsize, i, hi, heq, -⟩ | ⟨-, u, heq, -⟩
      · rw [heq] at hfail ⊢
        injection hfail with hfail
        exact ⟨rfl, hfail ▸ .miscounted _ _ _ hsize⟩
      · rw [heq] at hfail ⊢
        injection hfail with hfail
        exact ⟨rfl, hfail ▸ .overflow _ _ _ i hsize hi⟩
      · rw [heq] at hfail
        cases hfail
  | prune finalizedRoot =>
      simp only [answer] at hfail
      simp only [Tree.call]
      rcases h.prune_cases finalizedRoot with
        ⟨hunknown, heq⟩ | ⟨count, -, ⟨-, heq⟩ | ⟨-, u, heq, -⟩⟩
      · rw [heq] at hfail ⊢
        injection hfail with hfail
        exact ⟨rfl, hfail ▸ .unknown _ (contains_eq_false_iff.mpr hunknown)⟩
      · rw [heq] at hfail
        cases hfail
      · rw [heq] at hfail
        cases hfail
  | pruneThreshold threshold => cases hfail

/-- A search for the head in a sound tree finds one, or there is none. -/
theorem Sound.findHead_error (h : Sound t) {root : Root}
    (hfail : t.findHead root = .error error) : t.NoHead root error := by
  rcases h.findHead_cases root with ⟨hunknown, heq⟩ | ⟨i, n, -, hn, heq⟩
  · rw [heq] at hfail
    injection hfail with hfail
    exact hfail ▸ .unknown (contains_eq_false_iff.mpr hunknown)
  · rw [heq, verdict] at hfail
    split at hfail
    case isTrue => cases hfail
    case isFalse hviable =>
      injection hfail with hfail
      exact hfail ▸ .notViable _ n hn (Bool.eq_false_iff.mpr hviable)

/-- After any run the index, the parent links and the links to best
blocks of a tree agree with its array; a call that fails was refused and
changes nothing, and a search for the head fails only if there is none. -/
theorem represented_after (justifiedEpoch finalizedEpoch : Epoch) (pruneThreshold : Nat)
    (calls : List Call) :
    let t := (empty justifiedEpoch finalizedEpoch pruneThreshold).after calls
    Sound t
      ∧ (∀ c error, t.answer c = .error error → t.call c = t ∧ c.Refused t error)
      ∧ ∀ root error, t.findHead root = .error error → t.NoHead root error := by
  intro t
  have h : Sound t := (sound_empty justifiedEpoch finalizedEpoch pruneThreshold).after calls
  exact ⟨h, fun _ _ hfail => h.answer_error hfail, fun _ _ hfail => h.findHead_error hfail⟩

/-- A block that was dropped and comes back below one that stayed. -/
def comeback : List Call :=
  .insert 3 1 3 0 1 1 :: .prune 2 :: reversal

/-- It has no weight to lose, and the attempt to take some leaves no
trace. -/
theorem represented_after_comeback :
    let t := (empty 1 1 0).after comeback
    let c : Call := .applyScores #[0, 0, -1] 1 1
    (t.nodes.toList.map (·.parent) = [none, none, some 1] ∧ t.answer c = .error (.overflow 2))
      ∧ Sound t ∧ t.call c = t ∧ c.Refused t (.overflow 2) := by
  intro t c
  have hfail : t.answer c = .error (.overflow 2) := by decide +kernel
  obtain ⟨hsound, hrefused, -⟩ := represented_after 1 1 0 comeback
  exact ⟨⟨by decide +kernel, hfail⟩, hsound, hrefused c _ hfail⟩

end ChainHead.Tree
