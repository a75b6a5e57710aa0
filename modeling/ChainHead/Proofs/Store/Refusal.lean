/-
What a call on a store leaves behind when it fails.

A block that is known, balances that cannot be had and a finalized root
that is unknown are refused (`Call.Refused`), and a call that is refused
has changed nothing, with one exception. To finalize a checkpoint is to
replace the one before and then to drop blocks; if its block is unknown,
nothing is dropped, but the checkpoint stays replaced (`leftBy`). The
epochs that blocks are held against at the next head update are then
those of a checkpoint that was refused (`refused_but_finalized`).
-/
import ChainHead.Proofs.Store.Calls
import ChainHead.Proofs.Tree.Refusal

namespace ChainHead.Store

open VoteTable (Balances)
open ChainHead.Tree (Sound contains_eq_false_iff)

variable {s : Store} {c : Call} {error : Error}

-- ============================================== statement vocabulary

/-- What a call answers, besides the store that it leaves. -/
def answer (s : Store) : Call → Except Error Unit
  | .block b justified finalized => (s.onBlock b justified finalized).result.map fun _ => ()
  | .attestation _ => .ok ()
  | .justified checkpoint balancesOf => (s.updateJustified checkpoint balancesOf).value.result
  | .finalized checkpoint => (s.updateFinalized checkpoint).value.result
  | .finalizedBlock root => (s.updateFinalizedBlock root).value.result
  | .pruneThreshold _ => .ok ()
  | .head features sharing => (s.updateHeadShared features sharing).value.result.map fun _ => ()

/-- What a call leaves of a store by which it is refused. -/
def leftBy (s : Store) : Call → Store
  | .finalized checkpoint => { s with snapshot := s.snapshot.withFinalized checkpoint }
  | _ => s

/-- The errors that a call can end in, head updates apart, each with
what has to be the case. -/
inductive Call.Refused (s : Store) : Call → Error → Prop
  | known (b justified finalized) (hknown : s.tree.contains b.hashTreeRoot = true) :
      Refused s (.block b justified finalized) (.tree (.blockAlreadyKnown b.hashTreeRoot))
  | withheld (checkpoint balancesOf reason) (hreason : balancesOf checkpoint = .error reason) :
      Refused s (.justified checkpoint balancesOf) (.balances reason)
  | unfounded (checkpoint) (hunknown : s.tree.contains checkpoint.root = false) :
      Refused s (.finalized checkpoint) (.tree (.finalizedUnknown checkpoint.root))
  | unknown (root) (hunknown : s.tree.contains root = false) :
      Refused s (.finalizedBlock root) (.tree (.finalizedUnknown root))

-- ============================================================ refusals

/-- Dropping blocks fails only for want of the finalized one, and then
does nothing. -/
theorem updateFinalizedBlock_error (h : Sound s.tree) {root : Root}
    (hfail : (s.updateFinalizedBlock root).value.result = .error error) :
    (s.updateFinalizedBlock root).value.state = s ∧ s.tree.contains root = false
      ∧ error = .tree (.finalizedUnknown root) := by
  unfold updateFinalizedBlock at hfail ⊢
  rw [Logged.value_bind] at hfail ⊢
  rcases h.prune_cases root with ⟨hunknown, heq⟩ | ⟨count, -, ⟨-, heq⟩ | ⟨-, t', heq, -⟩⟩
  · rw [heq] at hfail ⊢
    injection hfail with hfail
    exact ⟨rfl, contains_eq_false_iff.mpr hunknown, hfail.symm⟩
  · rw [heq] at hfail
    cases hfail
  · rw [heq] at hfail
    cases hfail

/-- A call that fails was refused, and leaves a store with a sound tree
alone, but for a finalized checkpoint. -/
theorem call_refused (h : Sound s.tree) (hc : ∀ features sharing, c ≠ .head features sharing)
    (hfail : s.answer c = .error error) : s.call c = s.leftBy c ∧ c.Refused s error := by
  cases c with
  | block b justified finalized =>
      simp only [answer] at hfail
      simp only [call, leftBy]
      rcases s.onBlock_cases b justified finalized with ⟨hknown, heq⟩ | ⟨-, metrics, heq⟩
      · rw [heq] at hfail ⊢
        injection hfail with hfail
        exact ⟨rfl, hfail ▸ .known b justified finalized hknown⟩
      · rw [heq] at hfail
        cases hfail
  | attestation a => cases hfail
  | justified checkpoint balancesOf =>
      simp only [answer] at hfail
      simp only [call, leftBy]
      rcases s.updateJustified_cases checkpoint balancesOf with
        ⟨reason, hreason, heq⟩ | ⟨balances, -, heq⟩
      · rw [heq] at hfail ⊢
        injection hfail with hfail
        exact ⟨rfl, hfail ▸ .withheld checkpoint balancesOf reason hreason⟩
      · rw [heq] at hfail
        cases hfail
  | finalized checkpoint =>
      -- blocks are dropped from the store with the new checkpoint
      obtain ⟨hsame, hunknown, herror⟩ := updateFinalizedBlock_error
        (s := { s with snapshot := s.snapshot.withFinalized checkpoint }) h hfail
      exact ⟨hsame, herror ▸ .unfounded checkpoint hunknown⟩
  | finalizedBlock root =>
      obtain ⟨hsame, hunknown, herror⟩ := updateFinalizedBlock_error h hfail
      exact ⟨hsame, herror ▸ .unknown root hunknown⟩
  | pruneThreshold threshold => cases hfail
  | head features sharing => exact absurd rfl (hc features sharing)

/-- After any run, a call other than a head update that fails was
refused and leaves all as it was, except that a finalized checkpoint has
been replaced by then. -/
theorem call_of_answer_error (justified finalized : Checkpoint) (pruneThreshold : Nat)
    (calls : List Call) :
    let s := (empty justified finalized pruneThreshold).after calls
    ∀ c error, (∀ features sharing, c ≠ .head features sharing) → s.answer c = .error error →
      s.call c = s.leftBy c ∧ c.Refused s error := by
  intro s c error hc hfail
  exact call_refused (sound_run justified finalized pruneThreshold calls) hc hfail

/-- A store of one block, which is justified. -/
def founded : Store :=
  let genesis : BeaconBlock := {}
  (empty { root := genesis.hashTreeRoot } {} 256).after [.block genesis {} {}]

/-- A checkpoint of a later epoch, for a block that is not there. -/
def unfounded : Call :=
  .finalized { epoch := 1, root := 1 }

theorem answer_unfounded : founded.answer unfounded = .error (.tree (.finalizedUnknown 1)) := by
  decide +kernel

/-- Its refusal leaves the tree, the votes and the applied balances, and
of the snapshot all but the version and the checkpoint. -/
theorem call_of_answer_error_unfounded :
    founded.answer unfounded = .error (.tree (.finalizedUnknown 1))
      ∧ founded.call unfounded = { founded with
          snapshot := { founded.snapshot with
            version := 1, finalized := { epoch := 1, root := 1 } } } := by
  refine ⟨answer_unfounded, ?_⟩
  exact (call_of_answer_error _ _ _ _ unfounded _ (fun _ _ => Call.noConfusion)
    answer_unfounded).1

/-- The refused checkpoint has been taken in, and the head that was
there before is no longer found. -/
theorem refused_but_finalized :
    founded.answer unfounded = .error (.tree (.finalizedUnknown 1))
      ∧ (founded.call unfounded).snapshot ≠ founded.snapshot
      ∧ ((founded.call unfounded).updateHead {}).value.result
        ≠ (founded.updateHead {}).value.result := by
  refine ⟨answer_unfounded, ?_⟩
  decide +kernel

end ChainHead.Store
