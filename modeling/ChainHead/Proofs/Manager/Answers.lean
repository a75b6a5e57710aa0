/-
Which block an answer names.

The answer that a block is unknown comes from two places. A judge names
the block that it missed. But an attestation that waits already is turned
away before it gets to the judge, and then the answer names its head,
whatever it waits for. As long as the imports are reported, what waits
has reason to; so the block that is named is known exactly if the head
is and an equal attestation waits, which can only be for its target
(`unknownBlock_answer`).
-/
import ChainHead.Proofs.Manager.Kept
import ChainHead.Proofs.Manager.Parked

namespace ChainHead

/-- As all that waits is filed under its target or head, equal
attestations are found. -/
theorem Parked.contains_iff {known : Root → Prop} {late : List Root} {q : BlockQueue}
    (h : Parked known late q) (a : Attestation) :
    q.contains a = true ↔ ∃ (t : Ticket) (w : Waiting),
      q.entries[t]? = some w ∧ w.submission.attestation = a := by
  rw [h.sound.contains_iff]
  refine exists_congr fun t => exists_congr fun w => ?_
  refine and_congr_right fun hw => and_iff_left_of_imp fun hequal => ?_
  have hown := h.own t w hw
  rw [Submission.data, hequal] at hown
  exact hown.symm

namespace Manager

/-- The answer that a block is unknown is given only if the target or the
head is, and the block that it names is unknown, unless that is a head
that is known of an attestation that waits already. -/
theorem unknownBlock_answer (c : JudgeConfig) (m : Manager Judge) (capacity : Nat)
    (retention : UInt64) (occasions : List (Occasion Judge.StateSource Store.Call))
    (hreported : unreported c (m.withQueue capacity retention) occasions = [])
    (stateAt : Judge.StateSource) (features : Features) (s : Submission) (root : Root) :
    let m' := afterAll (Judge.settingAt c) (m.withQueue capacity retention) occasions
    (m'.onAttestation (Judge.processorAt c stateAt) features s).value.2
      = .unknownBlock root →
    (∃ missing, (missing = s.data.target.root ∨ missing = s.data.beaconBlockRoot)
        ∧ ¬m'.knows missing)
      ∧ (m'.knows root ↔ m'.knows s.data.beaconBlockRoot
        ∧ ∃ (t : Ticket) (w : Waiting), m'.untilBlock.entries[t]? = some w
          ∧ w.submission.attestation = s.attestation) := by
  intro m' hanswer
  have hparked := parked_after c m capacity retention occasions
  change Parked m'.knows _ m'.untilBlock at hparked
  rw [hreported] at hparked
  rw [← hparked.contains_iff]
  cases hwaiting : m'.untilBlock.contains s.attestation with
  | true =>
      rw [onAttestation_waiting _ _ _ _ hwaiting] at hanswer
      obtain ⟨t, w, hw, hequal⟩ := (hparked.contains_iff s.attestation).mp hwaiting
      have hown := hparked.own t w hw
      rw [Submission.data, hequal] at hown
      have hmissing : ¬m'.knows w.blockRoot := fun hknown =>
        List.not_mem_nil (hparked.awaited t w hw hknown)
      injection hanswer with hroot
      rw [← hroot]
      exact ⟨⟨w.blockRoot, hown, hmissing⟩, (and_iff_left rfl).symm⟩
  | false =>
      obtain ⟨metrics, hjudged⟩ :=
        onAttestation_judged (Judge.processorAt c stateAt) features m' s c.preset hwaiting rfl
      rw [hjudged] at hanswer
      obtain ⟨hown, hmissing⟩ := Judge.missingBlock?_eq_some (Judge.process_unknownBlock hanswer)
      have hunknown : ¬m'.knows root := ne_true_of_eq_false hmissing
      exact ⟨⟨root, hown, hunknown⟩, iff_of_false hunknown fun hboth =>
        Bool.false_ne_true hboth.2⟩

-- ======================================================= two answers

/-- The first block arrives and is reported. -/
def opening : List (Call Store.Call) :=
  [.blockImported {} firstBlock.hashTreeRoot, .meanwhile (.block firstBlock {} {})]

/-- The same, while states can be looked up. -/
def openingSeen : List (Occasion Judge.StateSource Store.Call) :=
  opening.map seen

/-- A vote for the second block is told that this is missing, also while
they cannot. -/
theorem unknownBlock_answer_opening :
    let m' := afterAll (Judge.settingAt plainJudge) (plainStart.withQueue 1 32) openingSeen
    let vote := plainVote 0 1 secondBlock.hashTreeRoot
    (unreported plainJudge (plainStart.withQueue 1 32) openingSeen = []
        ∧ (m'.onAttestation (Judge.processorAt plainJudge unseen) {} vote).value.2
          = .unknownBlock secondBlock.hashTreeRoot)
      ∧ (∃ missing, (missing = vote.data.target.root ∨ missing = vote.data.beaconBlockRoot)
          ∧ ¬m'.knows missing)
        ∧ (m'.knows secondBlock.hashTreeRoot ↔ m'.knows vote.data.beaconBlockRoot
          ∧ ∃ (t : Ticket) (w : Waiting), m'.untilBlock.entries[t]? = some w
            ∧ w.submission.attestation = vote.attestation) := by
  refine (and_iff_left_of_imp fun hseen =>
    unknownBlock_answer plainJudge plainStart 1 32 openingSeen hseen.1 unseen {}
      (plainVote 0 1 secondBlock.hashTreeRoot) secondBlock.hashTreeRoot hseen.2).mpr ?_
  decide +kernel

/-- A vote for the first block, with the second as its target. -/
def misplacedVote : Submission :=
  { id := 0, attestation :=
    { bits := ⟨2, [0b01]⟩
      data :=
        { beaconBlockRoot := firstBlock.hashTreeRoot
          target := { root := secondBlock.hashTreeRoot } } } }

/-- While that vote waits for its target, the one who hands it in again
is told that its head is missing, which is there. -/
theorem known_block_named :
    let occasions := seen (.attestation {} misplacedVote) :: openingSeen
    let m' := afterAll (Judge.settingAt plainJudge) (plainStart.withQueue 1 32) occasions
    unreported plainJudge (plainStart.withQueue 1 32) occasions = []
      ∧ (m'.onAttestation (Judge.processor plainJudge) {} misplacedVote).value.2
        = .unknownBlock firstBlock.hashTreeRoot
      ∧ m'.knows firstBlock.hashTreeRoot := by
  decide +kernel

end Manager

end ChainHead
