/-
What each call does to a store, told apart once.

A call that changes the tree does so by one operation on trees, so every
store that a run can reach has a sound tree, whatever the balances and
however often a call failed (`sound_after`). That is all it takes to say
what a head update does, however the votes are shared
(`updateHead_cases`): either some sum does not fit and the store is as
before, or weights are the old ones moved by the exact effects of all
votes.
-/
import ChainHead.Proofs.Store.Run
import ChainHead.Proofs.Store.Tally
import ChainHead.Proofs.Vote.Division

namespace ChainHead.Store

open VoteTable (Balances total netEffect)
open ChainHead.Tree (Sound Scored Fresh)

variable {s : Store}

-- ============================================================== blocks

/-- The entry of a block that is added. -/
def entry (s : Store) (b : BeaconBlock) (justified finalized : Checkpoint) : Node :=
  s.tree.newNode b.slot b.hashTreeRoot b.parentRoot b.stateRoot justified.epoch finalized.epoch

theorem onBlock_cases (s : Store) (b : BeaconBlock) (justified finalized : Checkpoint) :
    (s.tree.contains b.hashTreeRoot = true
        ∧ s.onBlock b justified finalized
          = ⟨s, .error (.tree (.blockAlreadyKnown b.hashTreeRoot))⟩)
      ∨ (s.tree.contains b.hashTreeRoot = false
        ∧ ∃ metrics, s.onBlock b justified finalized
          = ⟨{ s with tree := s.tree.extend (s.entry b justified finalized), metrics },
            .ok b.hashTreeRoot⟩) := by
  unfold onBlock
  dsimp only
  rcases s.tree.insert_cases b.slot b.hashTreeRoot b.parentRoot b.stateRoot justified.epoch
      finalized.epoch with ⟨hknown, heq⟩ | ⟨hnew, heq⟩
  · rw [heq]
    exact Or.inl ⟨hknown, rfl⟩
  · rw [heq]
    exact Or.inr ⟨hnew, _, rfl⟩

theorem fresh_entry {b : BeaconBlock} (justified finalized : Checkpoint)
    (hnew : s.tree.contains b.hashTreeRoot = false) :
    Fresh s.tree (s.entry b justified finalized) :=
  Tree.fresh_newNode _ _ _ _ _ hnew

-- ========================================================= checkpoints

theorem updateJustified_cases (s : Store) (checkpoint : Checkpoint)
    (balancesOf : Checkpoint → Except String Balances) :
    (∃ reason, balancesOf checkpoint = .error reason
        ∧ (s.updateJustified checkpoint balancesOf).value = ⟨s, .error (.balances reason)⟩)
      ∨ ∃ balances, balancesOf checkpoint = .ok balances
        ∧ (s.updateJustified checkpoint balancesOf).value
          = ⟨{ s with snapshot := s.snapshot.withJustified checkpoint balances }, .ok ()⟩ := by
  unfold updateJustified
  cases balancesOf checkpoint with
  | error reason => exact Or.inl ⟨reason, rfl, rfl⟩
  | ok balances => exact Or.inr ⟨balances, rfl, rfl⟩

/-- Blocks are dropped from the tree, and the result is that of the
tree. -/
theorem updateFinalizedBlock_value (s : Store) (root : Root) :
    ∃ metrics, (s.updateFinalizedBlock root).value
      = ⟨{ s with tree := (s.tree.prune root).value.1, metrics },
        (s.tree.prune root).value.2.mapError .tree⟩ := by
  unfold updateFinalizedBlock
  rw [Logged.value_bind]
  rcases (s.tree.prune root).value with ⟨tree, error | ok⟩
  · exact ⟨s.metrics, rfl⟩
  · exact ⟨_, rfl⟩

theorem updateFinalizedBlock_state (s : Store) (root : Root) :
    ∃ metrics, (s.updateFinalizedBlock root).value.state
      = { s with tree := (s.tree.prune root).value.1, metrics } := by
  obtain ⟨metrics, heq⟩ := s.updateFinalizedBlock_value root
  rw [heq]
  exact ⟨metrics, rfl⟩

-- ======================================================== head updates

/-- A head update is counted, brings weights up to date and, unless that
fails, answers with the head. -/
theorem updateHead_value (s : Store) (features : Features) (sharing : Sharing) :
    (s.updateHeadShared features sharing).value
      = match ({ s with metrics := s.metrics.countHeadUpdate } : Store).applyVotes sharing with
        | ⟨u, .error e⟩ => ⟨u, .error (.tree e)⟩
        | ⟨u, .ok ()⟩ => ⟨u, u.head⟩ := by
  unfold updateHeadShared
  dsimp only
  rcases ({ s with metrics := s.metrics.countHeadUpdate } : Store).applyVotes sharing with
    ⟨u, error | ok⟩
  · rfl
  · dsimp only
    cases hhead : u.head with
    | error e => rfl
    | ok root => rfl

/-- What a store finds was found by its tree. -/
theorem ok_of_mapError {α : Type} {result : Except Tree.Error α} {a : α}
    (h : result.mapError Error.tree = .ok a) : result = .ok a := by
  cases result with
  | error e => cases h
  | ok b =>
      injection h with h
      rw [h]

/-- What all votes and balances do to each position. -/
def effects (s : Store) : Nat → Int :=
  netEffect s.tree.positions s.votes s.applied s.snapshot.balances

/-- Whether weights cannot be brought up to date, because of a position:
there some sum of balances does not fit, or the deltas fit but the new
weight does not. -/
def Overflows (s : Store) (sharing : Sharing) (i : Nat) : Prop :=
  s.deltas sharing = .error (.overflow i)
    ∨ ∃ deltas, s.deltas sharing = .ok deltas
      ∧ s.tree.applyScores deltas s.snapshot.justified.epoch s.snapshot.finalized.epoch
        = (s.tree, .error (.overflow i))

/-- Deltas are the effects of all votes and balances, or some sum of
balances does not fit. -/
theorem deltas_cases (h : Sound s.tree) (sharing : Sharing) :
    (∃ i, s.deltas sharing = .error (.overflow i)
        ∧ (total s.applied < 2 ^ 63 → ¬ total s.snapshot.balances < 2 ^ 63))
      ∨ ∃ deltas, s.deltas sharing = .ok deltas ∧ deltas.size = s.tree.nodes.size
        ∧ Tree.deltaAt deltas = s.effects := by
  have hsize := h.size_positions
  rcases sharing.deltas_cases s.votes s.applied s.snapshot.balances
      (fun root p hp => hsize ▸ h.lt_size_of_position hp) with
    hover | ⟨deltas, hok, hlen, hexact⟩
  · exact Or.inl hover
  · exact Or.inr ⟨deltas, hok, hlen.trans hsize, funext hexact⟩

/-- If balances sum to what a delta can hold, only a weight can fail to
fit. -/
theorem Overflows.not_fits {sharing : Sharing} {i : Nat} (hover : s.Overflows sharing i)
    (h : Sound s.tree) (happlied : total s.applied < 2 ^ 63)
    (hsnapshot : total s.snapshot.balances < 2 ^ 63) :
    i < s.tree.size ∧ ¬ Tree.Fits s.tree.nodes s.effects i := by
  rcases deltas_cases h sharing with ⟨j, -, hlarge⟩ | ⟨deltas, hok, hlen, hexact⟩
  · exact absurd hsnapshot (hlarge happlied)
  rcases hover with herror | ⟨deltas', hok', hscores⟩
  · rw [hok] at herror
    cases herror
  rw [hok, Except.ok.injEq] at hok'
  rw [← hok'] at hscores
  rcases h.applyScores_cases deltas s.snapshot.justified.epoch s.snapshot.finalized.epoch with
    ⟨hne, -⟩ | ⟨-, j, hj, heq, hfits⟩ | ⟨-, t', heq, -⟩
  · exact absurd hlen hne
  · rw [heq] at hscores
    cases hscores
    rw [hexact] at hfits
    exact ⟨hj, hfits (VoteTable.contained_netEffect happlied hsnapshot)⟩
  · rw [heq] at hscores
    cases hscores

/-- Weights are brought up to date, or some sum does not fit and nothing
has changed. -/
theorem applyVotes_cases (h : Sound s.tree) (sharing : Sharing) :
    (∃ i, s.applyVotes sharing = ⟨s, .error (.overflow i)⟩ ∧ s.Overflows sharing i)
      ∨ ∃ deltas t', s.deltas sharing = .ok deltas
        ∧ s.tree.applyScores deltas s.snapshot.justified.epoch s.snapshot.finalized.epoch
          = (t', .ok ())
        ∧ Scored s.tree s.effects s.snapshot.justified.epoch s.snapshot.finalized.epoch t'
        ∧ s.applyVotes sharing = ⟨{ s with
            tree := t', votes := s.votes.commit, applied := s.snapshot.balances }, .ok ()⟩ := by
  unfold applyVotes
  rcases deltas_cases h sharing with ⟨i, herror, -⟩ | ⟨deltas, hok, hlen, hexact⟩
  · rw [herror]
    exact Or.inl ⟨i, rfl, Or.inl herror⟩
  · rw [hok]
    rcases h.applyScores_cases deltas s.snapshot.justified.epoch
        s.snapshot.finalized.epoch with
      ⟨hne, -⟩ | ⟨-, i, -, heq, -⟩ | ⟨-, t', heq, hscored⟩
    · exact absurd hlen hne
    · exact Or.inl ⟨i, by simp only [heq], Or.inr ⟨deltas, hok, heq⟩⟩
    · rw [hexact] at hscored
      exact Or.inr ⟨deltas, t', rfl, heq, hscored, by simp only [heq]⟩

/-- A store whose weights were brought up to date, by a tree that reflects
all votes. -/
def upToDate (s : Store) (tree : Tree) : Store :=
  { s with
    tree
    votes := s.votes.commit
    applied := s.snapshot.balances
    metrics := s.metrics.countHeadUpdate }

/-- A head update changes nothing because some sum does not fit, or
brings weights up to date and looks for the head. -/
theorem updateHead_cases (h : Sound s.tree) (features : Features) (sharing : Sharing) :
    (∃ i, (s.updateHeadShared features sharing).value
          = ⟨{ s with metrics := s.metrics.countHeadUpdate }, .error (.tree (.overflow i))⟩
        ∧ s.Overflows sharing i)
      ∨ ∃ deltas t', s.deltas sharing = .ok deltas
        ∧ s.tree.applyScores deltas s.snapshot.justified.epoch s.snapshot.finalized.epoch
          = (t', .ok ())
        ∧ Scored s.tree s.effects s.snapshot.justified.epoch s.snapshot.finalized.epoch t'
        ∧ (s.updateHeadShared features sharing).value
          = ⟨s.upToDate t', (t'.findHead s.snapshot.justified.root).mapError .tree⟩ := by
  rw [updateHead_value]
  rcases applyVotes_cases (s := { s with metrics := s.metrics.countHeadUpdate }) h sharing with
    ⟨i, heq, hover⟩ | ⟨deltas, t', hdeltas, hscores, hscored, heq⟩
  · rw [heq]
    exact Or.inl ⟨i, rfl, hover⟩
  · rw [heq]
    exact Or.inr ⟨deltas, t', hdeltas, hscores, hscored, rfl⟩

-- ================================================================ votes

theorem votes_applyVotes (s : Store) (sharing : Sharing) :
    (s.applyVotes sharing).state.votes = s.votes
      ∨ (s.applyVotes sharing).state.votes = s.votes.commit := by
  unfold applyVotes
  split
  case h_1 => exact .inl rfl
  case h_2 =>
    split
    case h_1 => exact .inl rfl
    case h_2 => exact .inr rfl

/-- Only an attestation brings votes. A head update may commit those that
are there. -/
theorem votes_call {c : Call} (hc : ∀ a, c ≠ .attestation a) :
    (s.call c).votes = s.votes ∨ (s.call c).votes = s.votes.commit := by
  cases c with
  | attestation a => exact absurd rfl (hc a)
  | block b justified finalized =>
      simp only [call]
      rcases s.onBlock_cases b justified finalized with ⟨-, heq⟩ | ⟨-, metrics, heq⟩
      · exact .inl (by rw [heq])
      · exact .inl (by rw [heq])
  | justified checkpoint balancesOf =>
      simp only [call]
      rcases s.updateJustified_cases checkpoint balancesOf with
        ⟨reason, -, heq⟩ | ⟨balances, -, heq⟩
      · exact .inl (by rw [heq])
      · exact .inl (by rw [heq])
  | finalized checkpoint =>
      obtain ⟨metrics, hstate⟩ := updateFinalizedBlock_state
        { s with snapshot := s.snapshot.withFinalized checkpoint } checkpoint.root
      simp only [call, updateFinalized, hstate, true_or]
  | finalizedBlock root =>
      obtain ⟨metrics, hstate⟩ := s.updateFinalizedBlock_state root
      simp only [call, hstate, true_or]
  | pruneThreshold n => exact .inl rfl
  | head features sharing =>
      have happlied := votes_applyVotes { s with metrics := s.metrics.countHeadUpdate } sharing
      simp only [call, updateHead_value]
      generalize ({ s with metrics := s.metrics.countHeadUpdate } : Store).applyVotes sharing
        = step at happlied ⊢
      rcases step with ⟨u, error | ok⟩
      · exact happlied
      · exact happlied

-- ================================================================ runs

theorem sound_call (h : Sound s.tree) (c : Call) : Sound (s.call c).tree := by
  cases c with
  | block b justified finalized =>
      simp only [call]
      rcases s.onBlock_cases b justified finalized with ⟨-, heq⟩ | ⟨hnew, metrics, heq⟩
      · rw [heq]
        exact h
      · rw [heq]
        exact h.extend (fresh_entry justified finalized hnew)
  | attestation a => exact h
  | justified checkpoint balancesOf =>
      simp only [call]
      rcases s.updateJustified_cases checkpoint balancesOf with
        ⟨reason, -, heq⟩ | ⟨balances, -, heq⟩
      · rw [heq]
        exact h
      · rw [heq]
        exact h
  | finalized checkpoint =>
      obtain ⟨metrics, hstate⟩ := updateFinalizedBlock_state
        { s with snapshot := s.snapshot.withFinalized checkpoint } checkpoint.root
      simp only [call, updateFinalized, hstate]
      exact h.prune checkpoint.root
  | finalizedBlock root =>
      obtain ⟨metrics, hstate⟩ := s.updateFinalizedBlock_state root
      simp only [call, hstate]
      exact h.prune root
  | pruneThreshold n => exact h.setPruneThreshold n
  | head features sharing =>
      simp only [call]
      rcases updateHead_cases h features sharing with ⟨i, heq, -⟩ | ⟨deltas, t', -, -, hscored, heq⟩
      · rw [heq]
        exact h
      · rw [heq]
        exact hscored.sound h

/-- Every store that a run can reach has a sound tree. -/
theorem sound_after (h : Sound s.tree) (calls : List Call) : Sound (s.after calls).tree := by
  induction calls with
  | nil => exact h
  | cons c earlier ih => exact sound_call ih c

theorem sound_run (justified finalized : Checkpoint) (pruneThreshold : Nat)
    (calls : List Call) : Sound ((empty justified finalized pruneThreshold).after calls).tree :=
  sound_after (Tree.sound_empty _ _ _) calls

end ChainHead.Store
