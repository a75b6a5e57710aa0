/-
The books of a store: what weights are after any funded run, however
votes, blocks and drops are mixed.

# The books

A vote is counted towards the root it names whether or not a block with
that root is there; its balance reaches a weight only if one is. If the
block arrives later, or comes back after it was dropped, the balance is
counted for it and was never added. That is the `debt` of the block: the
applied balances of the votes that were counted for its root when it
came in. It stays what it was then, and it stays as long as the block
does. With debts entered, the books balance (`Balanced`): the weight of a
block and what is owed in its subtree make up the tally of the counted
votes.

# Overdraft

When weights are brought up to date, a block loses the old balances of
its subtree and gains the new ones, so the new weight is the new tally
less what is owed. That is a word unless the subtree is owed more than
the new tally (`Balanced.applyVotes_cases`). So an overflow is always an
overdraft, and an overdraft is always reported (`overflow_iff_owed`).
-/
import ChainHead.Proofs.Store.Calls

namespace ChainHead.Store

open VoteTable (Balances total support netChange)
open ChainHead.Tree (Sound Scored Fresh)

variable {s : Store} {t' : Tree} {debts : Root → Nat}

-- ============================================== statement vocabulary

/-- The root that the balance of a validator is counted towards. -/
def counted (s : Store) (v : Nat) : Root :=
  (s.votes.tracker v).current

/-- The root that a validator voted for last. -/
def wanted (s : Store) (v : Nat) : Root :=
  (s.votes.tracker v).next

/-- Debts after a call: a block that is added is owed the applied
balances that were counted towards its root before it came. -/
def debtAfter (s : Store) (debts : Root → Nat) : Call → Root → Nat
  | .block b _ _ =>
    if s.tree.contains b.hashTreeRoot then debts
    else Function.update debts b.hashTreeRoot (support s.counted s.applied b.hashTreeRoot)
  | _ => debts

/-- Debts after a run. -/
def debt (start : Store) : List Call → Root → Nat
  | [] => fun _ => 0
  | c :: earlier => (start.after earlier).debtAfter (debt start earlier) c

/-- Weights and debts make up the tally of what is counted; see the head
of the file. -/
structure Balanced (s : Store) (debts : Root → Nat) : Prop where
  sound : Sound s.tree
  unnamed : s.tree.position? 0 = none
  applied : total s.applied < 2 ^ 63
  snapshot : total s.snapshot.balances < 2 ^ 63
  balance : ∀ (i : Nat) n, s.tree.nodes[i]? = some n →
    n.weight.toNat + s.tree.owed debts n.root = s.tree.tally s.counted s.applied n.root

/-- A store without blocks owes nothing. -/
theorem balanced_empty (justified finalized : Checkpoint) (pruneThreshold : Nat) :
    Balanced (.empty justified finalized pruneThreshold) fun _ => 0 where
  sound := Tree.sound_empty _ _ _
  unnamed := by simp [empty, Tree.empty, Tree.position?]
  applied := by simp [empty, total]
  snapshot := by simp [empty, total]
  balance := by simp [empty, Tree.empty]

-- ======================================================= bringing up to date

/-- Weights are brought up to date unless a subtree is owed more than it
will have. -/
theorem Balanced.applyVotes_cases (h : Balanced s debts) (sharing : Sharing) :
    (∃ i n, s.tree.nodes[i]? = some n ∧ s.applyVotes sharing = ⟨s, .error (.overflow i)⟩
        ∧ s.tree.tally s.wanted s.snapshot.balances n.root < s.tree.owed debts n.root)
      ∨ ∃ t', Scored s.tree (netChange s.tree.positions s.votes s.applied s.snapshot.balances)
          s.snapshot.justified.epoch s.snapshot.finalized.epoch t'
        ∧ s.applyVotes sharing = ⟨{ s with
            tree := t', votes := s.votes.commit, applied := s.snapshot.balances }, .ok ()⟩ := by
  have hfun : s.effects = netChange s.tree.positions s.votes s.applied s.snapshot.balances :=
    VoteTable.netEffect_eq_netChange h.unnamed s.votes s.applied s.snapshot.balances
  rcases Store.applyVotes_cases h.sound sharing with
    ⟨i, heq, hover⟩ | ⟨deltas, t', -, -, hscored, heq⟩
  · obtain ⟨hi, hnot⟩ := hover.not_fits h.sound h.applied h.snapshot
    obtain ⟨n, hn⟩ : ∃ n, s.tree.nodes[i]? = some n := ⟨_, Array.getElem?_eq_getElem hi⟩
    refine Or.inl ⟨i, n, hn, heq, ?_⟩
    by_contra hle
    have hshift := h.sound.shift_netChange h.unnamed hn s.votes s.applied s.snapshot.balances
    have hbalance := h.balance i n hn
    have htotal := s.tree.tally_le_total s.wanted s.snapshot.balances n.root
    have hsnapshot := h.snapshot
    unfold wanted at hle htotal
    unfold counted at hbalance
    apply hnot
    rw [hfun]
    refine ⟨n, hn, ?_⟩
    rw [hshift]
    omega
  · rw [hfun] at hscored
    exact Or.inr ⟨t', hscored, heq⟩

-- ======================================================= what calls do

/-- Everything that a call can do to a store whose books balance. -/
inductive Moves (s : Store) : Call → Store → Prop
  | known (b justified finalized) (hknown : s.tree.contains b.hashTreeRoot = true) :
      Moves s (.block b justified finalized) s
  | add (b justified finalized n metrics) (hnew : s.tree.contains b.hashTreeRoot = false)
      (hn : Fresh s.tree n) (hroot : n.root = b.hashTreeRoot) :
      Moves s (.block b justified finalized) { s with tree := s.tree.extend n, metrics }
  | vote (a) :
      Moves s (.attestation a) { s with
        votes := (s.votes.recordAll a.data.beaconBlockRoot a.data.target.epoch a.indices).1 }
  | refuse (checkpoint balancesOf) : Moves s (.justified checkpoint balancesOf) s
  | justify (checkpoint balancesOf balances) (hok : balancesOf checkpoint = .ok balances) :
      Moves s (.justified checkpoint balancesOf)
        { s with snapshot := s.snapshot.withJustified checkpoint balances }
  | finalize (checkpoint metrics) :
      Moves s (.finalized checkpoint) { s with
        tree := (s.tree.prune checkpoint.root).value.1
        snapshot := s.snapshot.withFinalized checkpoint
        metrics }
  | drop (root metrics) :
      Moves s (.finalizedBlock root) { s with tree := (s.tree.prune root).value.1, metrics }
  | threshold (n) : Moves s (.pruneThreshold n) { s with tree := s.tree.setPruneThreshold n }
  | overdraw (features sharing metrics) : Moves s (.head features sharing) { s with metrics }
  | settle (features sharing metrics t')
      (hscored : Scored s.tree
        (netChange s.tree.positions s.votes s.applied s.snapshot.balances)
        s.snapshot.justified.epoch s.snapshot.finalized.epoch t') :
      Moves s (.head features sharing) { s with
        tree := t', votes := s.votes.commit, applied := s.snapshot.balances, metrics }

theorem Balanced.withMetrics (h : Balanced s debts) (metrics : StoreMetrics) :
    Balanced { s with metrics } debts :=
  ⟨h.sound, h.unnamed, h.applied, h.snapshot, h.balance⟩

/-- Every call makes one of the moves. -/
theorem Balanced.moves (h : Balanced s debts) (c : Call) : Moves s c (s.call c) := by
  cases c with
  | block b justified finalized =>
      simp only [call]
      rcases s.onBlock_cases b justified finalized with
        ⟨hknown, heq⟩ | ⟨hnew, metrics, heq⟩
      · rw [heq]
        exact .known b justified finalized hknown
      · rw [heq]
        exact .add b justified finalized _ metrics hnew (fresh_entry justified finalized hnew) rfl
  | attestation a => exact .vote a
  | justified checkpoint balancesOf =>
      simp only [call]
      rcases s.updateJustified_cases checkpoint balancesOf with
        ⟨reason, -, heq⟩ | ⟨balances, hok, heq⟩
      · rw [heq]
        exact .refuse checkpoint balancesOf
      · rw [heq]
        exact .justify checkpoint balancesOf balances hok
  | finalized checkpoint =>
      obtain ⟨metrics, hstate⟩ := updateFinalizedBlock_state
        { s with snapshot := s.snapshot.withFinalized checkpoint } checkpoint.root
      simp only [call, updateFinalized, hstate]
      exact .finalize checkpoint metrics
  | finalizedBlock root =>
      obtain ⟨metrics, hstate⟩ := s.updateFinalizedBlock_state root
      simp only [call, hstate]
      exact .drop root metrics
  | pruneThreshold n => exact .threshold n
  | head features sharing =>
      simp only [call, updateHead_value]
      rcases (h.withMetrics s.metrics.countHeadUpdate).applyVotes_cases sharing with
        ⟨i, n, -, heq, -⟩ | ⟨t', hscored, heq⟩
      · rw [heq]
        exact .overdraw features sharing s.metrics.countHeadUpdate
      · rw [heq]
        exact .settle features sharing s.metrics.countHeadUpdate t' hscored

/-- What was wanted is counted once weights are brought up to date. -/
theorem counted_commit (s : Store) (tree : Tree) (applied : Balances) :
    counted { s with tree, votes := s.votes.commit, applied } = s.wanted := by
  funext v
  unfold counted wanted
  rw [VoteTable.tracker_commit]
  rfl

-- ======================================================= the books balance

namespace Balanced

/-- A new block enters the books with no weight and with what was counted
for its root before it came. -/
theorem extend (h : Balanced s debts) {n : Node} (hn : Fresh s.tree n) (hroot : n.root ≠ 0)
    (metrics : StoreMetrics) :
    Balanced { s with tree := s.tree.extend n, metrics }
      (Function.update debts n.root (support s.counted s.applied n.root)) where
  sound := h.sound.extend hn
  unnamed := by
    show (s.tree.extend n).position? 0 = none
    rw [Tree.position_extend, if_neg hroot]
    exact h.unnamed
  applied := h.applied
  snapshot := h.snapshot
  balance := by
    intro i m hm
    have howed := h.sound.owed_extend hn debts
      (Function.update debts n.root (support s.counted s.applied n.root))
      (fun r hr => Function.update_of_ne hr _ _) m.root
    have htally := h.sound.tally_extend hn s.counted s.applied m.root
    rw [Function.update_self] at howed
    show m.weight.toNat + (s.tree.extend n).owed _ m.root
      = (s.tree.extend n).tally s.counted s.applied m.root
    rw [howed, htally]
    change (s.tree.extend n).nodes[i]? = some m at hm
    rw [Tree.get_extend] at hm
    by_cases hi : i = s.tree.nodes.size
    · rw [if_pos hi] at hm
      injection hm with hm
      rw [← hm, h.sound.owed_eq_zero hn.absent, h.sound.tally_eq_zero hn.absent, hn.weight,
        Nat.zero_add]
      exact Nat.zero_add _
    · rw [if_neg hi] at hm
      rw [← Nat.add_assoc, h.balance i m hm]

/-- Votes that are not counted yet are not in the books. -/
theorem withVotes (h : Balanced s debts) {votes : VoteTable}
    (hsame : ∀ v, (votes.tracker v).current = (s.votes.tracker v).current) :
    Balanced { s with votes } debts where
  sound := h.sound
  unnamed := h.unnamed
  applied := h.applied
  snapshot := h.snapshot
  balance := by
    have hcounted : counted { s with votes } = s.counted := funext hsame
    intro i n hn
    rw [hcounted]
    exact h.balance i n hn

/-- Balances that are not applied yet are not in the books. -/
theorem withSnapshot (h : Balanced s debts) {snapshot : Snapshot}
    (htotal : total snapshot.balances < 2 ^ 63) : Balanced { s with snapshot } debts :=
  ⟨h.sound, h.unnamed, h.applied, htotal, h.balance⟩

/-- Dropping blocks takes whole accounts out of the books. -/
theorem prune (h : Balanced s debts) (root : Root) :
    Balanced { s with tree := (s.tree.prune root).value.1 } debts := by
  have hkeep : ∀ t', t' = s.tree → Balanced { s with tree := t' } debts := by
    rintro t' rfl
    exact h
  rcases h.sound.prune_cases root with ⟨-, heq⟩ | ⟨count, -, ⟨-, heq⟩ | ⟨-, t', heq, hdropped⟩⟩
  · exact hkeep _ (by rw [heq])
  · exact hkeep _ (by rw [heq])
  · rw [heq]
    have hsound := hdropped.sound h.sound
    refine ⟨hsound, ?_, h.applied, h.snapshot, ?_⟩
    · show t'.position? 0 = none
      rw [hdropped.position, h.unnamed]
      rfl
    · intro i n' hn'
      have hpos := hsound.position_root hn'
      show n'.weight.toNat + t'.owed debts n'.root = t'.tally s.counted s.applied n'.root
      rw [hdropped.owed h.sound hpos, hdropped.tally h.sound hpos]
      change t'.nodes[i]? = some n' at hn'
      rw [hdropped.get, Option.map_eq_some_iff] at hn'
      obtain ⟨n, hn, rfl⟩ := hn'
      exact h.balance _ n hn

/-- Once weights are brought up to date, the books are about the latest
votes and balances. -/
theorem scored (h : Balanced s debts)
    (hscored : Scored s.tree
      (netChange s.tree.positions s.votes s.applied s.snapshot.balances)
      s.snapshot.justified.epoch s.snapshot.finalized.epoch t') :
    Balanced { s with tree := t', votes := s.votes.commit, applied := s.snapshot.balances }
      debts where
  sound := hscored.sound h.sound
  unnamed := (hscored.position 0).trans h.unnamed
  applied := h.snapshot
  snapshot := h.snapshot
  balance := by
    intro i n' hn'
    obtain ⟨n, hn, hsame⟩ := hscored.get_old hn'
    have hroot := Tree.root_eq_of_unscored hsame
    have hweight := hscored.weight i n n' hn hn'
    have hbalance := h.balance i n hn
    rw [h.sound.shift_netChange h.unnamed hn] at hweight
    rw [counted_commit]
    show n'.weight.toNat + t'.owed debts n'.root
      = t'.tally s.wanted s.snapshot.balances n'.root
    rw [hscored.owed, hscored.tally, ← hroot]
    unfold counted at hbalance
    unfold wanted
    omega

/-- No subtree was owed more than its votes gave it. -/
theorem owed_le (h : Balanced s debts)
    (hscored : Scored s.tree
      (netChange s.tree.positions s.votes s.applied s.snapshot.balances)
      s.snapshot.justified.epoch s.snapshot.finalized.epoch t') (top : Root) :
    s.tree.owed debts top ≤ s.tree.tally s.wanted s.snapshot.balances top := by
  cases hpos : s.tree.position? top with
  | none =>
      rw [h.sound.owed_eq_zero hpos]
      exact Nat.zero_le _
  | some i =>
      obtain ⟨n, hn, rfl⟩ := h.sound.get_position hpos
      obtain ⟨n', hn', -⟩ := hscored.get hn
      have hweight := hscored.weight i n n' hn hn'
      have hbalance := h.balance i n hn
      rw [h.sound.shift_netChange h.unnamed hn] at hweight
      unfold counted at hbalance
      unfold wanted
      omega

/-- No funded call puts the books out of balance. -/
theorem call (h : Balanced s debts) {c : Call} (hc : c.Funded) :
    Balanced (s.call c) (s.debtAfter debts c) := by
  have hmoves := h.moves c
  generalize s.call c = u at hmoves ⊢
  cases hmoves with
  | known b justified finalized hknown =>
      simp only [debtAfter, if_pos hknown]
      exact h
  | add b justified finalized n metrics hnew hn hroot =>
      simp only [debtAfter]
      rw [if_neg (Bool.eq_false_iff.mp hnew), ← hroot]
      exact h.extend hn (fun hzero => hc (hroot ▸ hzero)) metrics
  | vote a => exact h.withVotes fun v => VoteTable.current_recordAll _ _ _ _ v
  | refuse => exact h
  | justify checkpoint balancesOf balances hok =>
      have htotal : total ((balancesOf checkpoint).toOption.getD #[]) < 2 ^ 63 := hc
      rw [hok] at htotal
      exact h.withSnapshot htotal
  | finalize checkpoint metrics =>
      have hnew : Balanced { s with snapshot := s.snapshot.withFinalized checkpoint } debts :=
        h.withSnapshot h.snapshot
      exact (hnew.prune checkpoint.root).withMetrics metrics
  | drop root metrics => exact (h.prune root).withMetrics metrics
  | threshold n =>
      exact ⟨h.sound.setPruneThreshold n, h.unnamed, h.applied, h.snapshot, h.balance⟩
  | overdraw features sharing metrics => exact h.withMetrics metrics
  | settle features sharing metrics t' hscored => exact (h.scored hscored).withMetrics metrics

/-- No funded run does. -/
theorem after {start : Store} (h : Balanced start fun _ => 0) {calls : List Call}
    (hcalls : Funded calls) : Balanced (start.after calls) (debt start calls) := by
  induction calls with
  | nil => exact h
  | cons c earlier ih =>
      exact (ih fun c' hc' => hcalls c' (List.mem_cons_of_mem c hc')).call
        (hcalls c List.mem_cons_self)

end Balanced

-- ========================================================== overdrafts

/-- To look for the head overflows nothing. -/
theorem head_ne_overflow (h : Sound s.tree) (i : Nat) :
    s.head ≠ .error (.tree (.overflow i)) := by
  unfold head
  rcases h.findHead_cases s.snapshot.justified.root with ⟨-, heq⟩ | ⟨_, n, -, -, heq⟩
  · rw [heq]
    intro herror
    injection herror with herror
    cases herror
  · rw [heq]
    unfold Tree.verdict
    intro herror
    split at herror
    case isTrue => cases herror
    case isFalse =>
      injection herror with herror
      cases herror

/-- After a funded run, a head update overflows exactly if some subtree
is owed more than its votes will give it. -/
theorem overflow_iff_owed {justified finalized : Checkpoint} {pruneThreshold : Nat}
    {calls : List Call} (hcalls : Funded calls) (features : Features) (sharing : Sharing) :
    let start := empty justified finalized pruneThreshold
    let s := start.after calls
    (∃ i, (s.updateHeadShared features sharing).value.result = .error (.tree (.overflow i)))
      ↔ ∃ top, s.tree.tally s.wanted s.snapshot.balances top
          < s.tree.owed (debt start calls) top := by
  intro start s
  have h : Balanced s (debt start calls) :=
    (balanced_empty justified finalized pruneThreshold).after hcalls
  have hcounted := h.withMetrics s.metrics.countHeadUpdate
  rw [updateHead_value]
  rcases hcounted.applyVotes_cases sharing with ⟨i, n, -, heq, hlt⟩ | ⟨t', hscored, heq⟩
  · rw [heq]
    exact ⟨fun _ => ⟨n.root, hlt⟩, fun _ => ⟨i, rfl⟩⟩
  · rw [heq]
    have hsound := (hcounted.scored hscored).sound
    refine ⟨fun ⟨i, hi⟩ => absurd hi (head_ne_overflow hsound i), fun ⟨top, hlt⟩ => ?_⟩
    exact absurd hlt (Nat.not_lt_of_le (hcounted.owed_le hscored top))

/-- A vote for a block that is not there yet is counted; then the block
comes, and the vote moves elsewhere. -/
def lateBlock : List Call :=
  let genesis : BeaconBlock := {}
  let block : BeaconBlock := { slot := 1, parentRoot := genesis.hashTreeRoot }
  let vote (root : Root) (epoch : Epoch) : Call :=
    .attestation { indices := [0], data := { beaconBlockRoot := root, target := { epoch } } }
  [vote genesis.hashTreeRoot 1,
    .block block {} {},
    .head {} (.halving 1),
    vote block.hashTreeRoot 0,
    .justified { root := genesis.hashTreeRoot } fun _ => .ok #[10],
    .block genesis {} {}]

theorem funded_lateBlock : Funded lateBlock := by
  decide +kernel

theorem result_lateBlock :
    (((empty {} {} 256).after lateBlock).updateHeadShared {} (.halving 1)).value.result
      = .error (.tree (.overflow 1)) := by
  decide +kernel

/-- Its balance is taken from a block it was never given to. -/
theorem overflow_after_lateBlock :
    Funded lateBlock ∧
      ∃ i, (((empty {} {} 256).after lateBlock).updateHeadShared {} (.halving 1)).value.result
        = .error (.tree (.overflow i)) :=
  ⟨funded_lateBlock, 1, result_lateBlock⟩

/-- The block is owed more than the vote, now elsewhere, will give it. -/
theorem owed_after_lateBlock :
    let start := empty {} {} 256
    let s := start.after lateBlock
    Funded lateBlock ∧ ∃ top, s.tree.tally s.wanted s.snapshot.balances top
      < s.tree.owed (debt start lateBlock) top :=
  ⟨funded_lateBlock, (overflow_iff_owed funded_lateBlock {} (.halving 1)).mp ⟨1, result_lateBlock⟩⟩

end ChainHead.Store
