/-
What the metrics of the three components show.

Every component keeps its metrics by hand, each in its own way. A store
sets its gauge where a block is added and where blocks are dropped; what
else it does, a head update above all, leaves the number of blocks as it
is, and dropping blocks fails only before one is gone. A pool and a
manager set theirs whenever they change what is shown.

So the metrics of a component can be read off what it holds, whatever was
asked of it and however often that failed. A gauge is a signed word of 64
bits, and stays at the greatest one.
-/
import ChainHead.Proofs.Manager.Outcomes
import ChainHead.Proofs.Queue.Slots
import ChainHead.Proofs.Store.Calls

namespace ChainHead

-- ================================================================ store

namespace Store

open ChainHead.Tree (Sound)

variable {s : Store}

/-- Whether the gauge of a store shows how many blocks it has. -/
def Gauged (s : Store) : Prop :=
  s.metrics.blocks = Metrics.gauge s.tree.size

namespace Gauged

theorem onBlock (h : s.Gauged) (b : BeaconBlock) (justified finalized : Checkpoint) :
    (s.onBlock b justified finalized).state.Gauged := by
  unfold Store.onBlock
  dsimp only
  split
  case h_1 => exact h
  case h_2 => rfl

/-- Dropping blocks either fails and leaves the tree alone, or sets the
gauge. -/
theorem updateFinalizedBlock (h : s.Gauged) (hsound : Sound s.tree) (root : Root) :
    (s.updateFinalizedBlock root).value.state.Gauged := by
  unfold Store.updateFinalizedBlock
  rw [Logged.value_bind]
  rcases hsound.prune_cases root with ⟨-, heq⟩ | ⟨count, -, ⟨-, heq⟩ | ⟨-, t', heq, -⟩⟩
  · rw [heq]
    exact h
  · rw [heq]
    rfl
  · rw [heq]
    rfl

/-- A head update moves weights from block to block, not blocks. -/
theorem updateHead (h : s.Gauged) (hsound : Sound s.tree) (features : Features)
    (sharing : Sharing) : (s.updateHeadShared features sharing).value.state.Gauged := by
  rcases updateHead_cases hsound features sharing with
    ⟨i, heq, -⟩ | ⟨deltas, t', -, -, hscored, heq⟩
  · rw [heq]
    exact h
  · rw [heq]
    show s.metrics.blocks = Metrics.gauge t'.nodes.size
    rw [hscored.size]
    exact h

theorem call (h : s.Gauged) (hsound : Sound s.tree) (c : Call) : (s.call c).Gauged := by
  cases c with
  | block b justified finalized => exact h.onBlock b justified finalized
  | attestation a => exact h
  | justified checkpoint balancesOf =>
      simp only [Store.call]
      rcases s.updateJustified_cases checkpoint balancesOf with
        ⟨reason, -, heq⟩ | ⟨balances, -, heq⟩
      · rw [heq]
        exact h
      · rw [heq]
        exact h
  | finalized checkpoint =>
      exact updateFinalizedBlock (s := { s with snapshot := s.snapshot.withFinalized checkpoint })
        h hsound checkpoint.root
  | finalizedBlock root => exact h.updateFinalizedBlock hsound root
  | pruneThreshold threshold => exact h
  | head features sharing => exact h.updateHead hsound features sharing

end Gauged

theorem gauged_after (justified finalized : Checkpoint) (pruneThreshold : Nat)
    (calls : List Call) : ((empty justified finalized pruneThreshold).after calls).Gauged := by
  induction calls with
  | nil => rfl
  | cons c earlier ih => exact ih.call (sound_run justified finalized pruneThreshold earlier) c

end Store

-- ======================================================= all components

/-- A manager as it is made: nothing waits yet, and nothing was counted.
Its processor and its pool may have been in use, and facts may be
known. -/
def Manager.made {σ : Type} (processor : σ) (pool : Pool) (capacity : Nat) (retention : UInt64)
    (ledger : Ledger) (line : Line) : Manager σ :=
  { processor, pool, untilBlock := { capacity, retention }, ledger, line }

/-- The metrics never drift from what they are about. After any calls of
a store, failed ones included, its gauge shows how many blocks there are;
after any operations on a pool its gauges show how many submissions and
groups there are. After any operations on a manager the gauges show how
many submissions wait for blocks and for slots, those of its pool are
still right, and its counters add up to the number of submissions that
were put before the processor. -/
theorem metrics_accurate :
    (∀ (justified finalized : Checkpoint) (pruneThreshold : Nat) (calls : List Store.Call),
      let s := (Store.empty justified finalized pruneThreshold).after calls
      s.metrics.blocks = min s.tree.nodes.size (2 ^ 63 - 1))
    ∧ (∀ (preset : Preset) (retentionEpochs : UInt64) (operations : List Pool.Operation),
      let p := Pool.operated preset { retentionEpochs } operations
      p.metrics.size = min p.stored.length (2 ^ 63 - 1)
        ∧ p.metrics.groups = min p.groups.size (2 ^ 63 - 1))
    ∧ ∀ (σ ε : Type) (w : Manager.Setting σ ε) (processor : σ) (retentionEpochs : UInt64)
        (before : List Pool.Operation) (capacity : Nat) (retention : UInt64) (ledger : Ledger)
        (line : Line) (operations : List (Manager.Operation ε)),
      let pool := Pool.operated w.preset { retentionEpochs } before
      let start := Manager.made processor pool capacity retention ledger line
      let m := Manager.operated w start operations
      m.metrics.pending = min m.untilBlock.waitlist.entries.length (2 ^ 63 - 1)
        ∧ m.metrics.future = min m.untilSlot.waiting.length (2 ^ 63 - 1)
        ∧ m.pool.metrics.size = min m.pool.stored.length (2 ^ 63 - 1)
        ∧ m.pool.metrics.groups = min m.pool.groups.size (2 ^ 63 - 1)
        ∧ ∑ label ∈ outcomeLabels, m.metrics.outcomes.getD label 0
          = Manager.decisions w start operations := by
  refine ⟨Store.gauged_after, fun preset retentionEpochs operations =>
    (Pool.metered_operated preset retentionEpochs operations).shown, ?_⟩
  intro σ ε w processor retentionEpochs before capacity retention ledger line operations pool
    start m
  have hstart : start.Gauged := by
    refine ⟨?_, ?_, Pool.metered_operated w.preset retentionEpochs before⟩
    · rfl
    · rfl
  have hgauged : m.Gauged := Manager.gauged_operated w operations hstart
  obtain ⟨hsize, hgroups⟩ := hgauged.pool.shown
  refine ⟨?_, ?_, hsize, hgroups, Manager.sum_counters w operations rfl⟩
  · rw [← BlockQueue.size_eq_length]
    exact hgauged.pending
  · rw [← SlotQueue.size_eq_length]
    exact hgauged.future

/-- A vote for a block that is missing waits for it, one whose slot is not
over waits for the slot, and the first waits only once. -/
example :
    let calls := [.attestation {} (Manager.plainVote 0 1 Manager.secondBlock.hashTreeRoot),
      .attestation {} (Manager.plainVote 1 2 Manager.firstBlock.hashTreeRoot),
      .attestation {} (Manager.plainVote 2 1 Manager.secondBlock.hashTreeRoot)]
    let m := Manager.operated (Judge.shared Manager.plainJudge) Manager.plainStart
      ((calls ++ Manager.prelude).map .call)
    (m.metrics.pending, m.metrics.future, m.metrics.outcomes.toList)
      = (1, 1, [("saved_for_future", 1), ("unknown_block", 1)]) := by
  decide +kernel

end ChainHead
