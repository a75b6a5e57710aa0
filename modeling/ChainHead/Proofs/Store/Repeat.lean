/-
A head update does all of its work or none, and to repeat it at once
changes nothing, unless it was given up for a sum that depends on who
sums.

If some sum does not fit (`Overflows`), nothing but the count of updates
has changed. Otherwise every vote is counted where it is wanted, at the
balances of the snapshot; then no validator has any effect, however the
votes are shared (`Sharing.deltas_commit`), no weight moves, and links
that are up to date stay as they are (`applyVotes_upToDate`). That holds
whether or not there is a head to be found, so the repetition answers
what the first update did.

# Another sharing

Deltas are exact whenever there are any, so two sharings that come to
deltas come to the same. But if balances sum to more than a delta can
hold, a worker may come across a sum that does not fit where workers that
share otherwise do not. A repetition after such an overflow can find
what the first update did not (`overflow_not_repeated`).
-/
import ChainHead.Proofs.Store.Books
import ChainHead.Proofs.Store.Refusal
import ChainHead.Proofs.Tree.Embedding

namespace ChainHead

variable {positions : Std.ExtTreeMap Root Nat}

namespace VoteTable

-- ======================================================= counted votes

/-- Validators that are counted where they want to be have no effect
while balances stay. -/
theorem partDeltas_settled (balances : Balances) (deltas : Array Delta) :
    ∀ (trackers : List Tracker) (start : Nat), (∀ v ∈ trackers, v.current = v.next) →
      partDeltas positions balances balances deltas start trackers = .ok deltas := by
  intro trackers
  induction trackers with
  | nil =>
      intro start _
      rfl
  | cons v rest ih =>
      intro start hsettled
      obtain ⟨hv, hrest⟩ := List.forall_mem_cons.mp hsettled
      have hidle : isIdle v (balances.getD start 0) (balances.getD start 0) = true := by
        simp [isIdle, hv]
      simp only [partDeltas, countVote, if_pos hidle]
      exact ih (start + 1) hrest

theorem sumDeltas_zero (n first : Nat) :
    sumDeltas first (List.replicate n 0) (List.replicate n 0) = .ok (List.replicate n 0) := by
  induction n generalizing first with
  | zero => rfl
  | succ n ih =>
      simp only [List.replicate_succ, sumDeltas, ih]
      rfl

theorem commit_commit (t : VoteTable) : t.commit.commit = t.commit := by
  unfold commit
  simp only [Array.map_map]
  rfl

end VoteTable

open VoteTable (Balances total)

/-- Nor have they if workers share them. -/
theorem Division.deltas_settled (balances : Balances) (division : Division) :
    ∀ first, (∀ v ∈ division.trackers, v.current = v.next) →
      division.deltas positions balances balances first
        = .ok (Array.replicate positions.size 0) := by
  induction division with
  | part trackers => exact VoteTable.partDeltas_settled balances _ trackers
  | join left right ihLeft ihRight =>
      intro first hsettled
      rw [Division.trackers, List.forall_mem_append] at hsettled
      simp only [Division.deltas, ihLeft _ hsettled.1, ihRight _ hsettled.2, Bind.bind,
        Except.bind, Array.toList_replicate, VoteTable.sumDeltas_zero]
      rfl

/-- Once all votes are counted, there is nothing to change. -/
theorem Sharing.deltas_commit (sharing : Sharing) (t : VoteTable)
    (positions : Std.ExtTreeMap Root Nat) (balances : Balances) :
    sharing.deltas t.commit positions balances balances
      = .ok (Array.replicate positions.size 0) := by
  have hsettled : ∀ v ∈ (sharing.divide t.commit.trackers.toList).trackers,
      v.current = v.next := by
    intro v hv
    rw [sharing.trackers_divide] at hv
    simp only [VoteTable.commit, Array.toList_map, List.mem_map] at hv
    obtain ⟨w, -, rfl⟩ := hv
    rfl
  unfold deltas
  simp only [Division.deltas_settled balances _ 0 hsettled]

namespace Store

open ChainHead.Tree (Sound Scored deltaAt)

variable {s : Store} {tree : Tree} {d : Nat → Int} {sharing resharing : Sharing}

-- ========================================================== repetition

/-- If balances sum to what a delta can hold, deltas are the same however
the votes are shared. -/
theorem deltas_eq (h : Sound s.tree) (happlied : total s.applied < 2 ^ 63)
    (hsnapshot : total s.snapshot.balances < 2 ^ 63) :
    s.deltas resharing = s.deltas sharing := by
  have hsize := h.size_positions
  rcases deltas_cases h sharing with ⟨i, -, hlarge⟩ | ⟨deltas, hok, -, -⟩
  · exact absurd hsnapshot (hlarge happlied)
  rcases deltas_cases h resharing with ⟨i, -, hlarge⟩ | ⟨deltas', hok', -, -⟩
  · exact absurd hsnapshot (hlarge happlied)
  rw [hok, hok', sharing.deltas_unique resharing
    (fun root p hp => hsize ▸ h.lt_size_of_position hp) hok hok']

/-- What is done to the weights depends on the deltas alone, not on who
came to them or on the count of updates. -/
theorem applyVotes_congr (hsame : s.deltas resharing = s.deltas sharing)
    (metrics : StoreMetrics) :
    ({ s with metrics } : Store).applyVotes resharing
      = ⟨{ (s.applyVotes sharing).state with metrics }, (s.applyVotes sharing).result⟩ := by
  have hdeltas : ({ s with metrics } : Store).deltas resharing = s.deltas sharing := hsame
  unfold applyVotes
  rw [hdeltas]
  cases s.deltas sharing with
  | error e => rfl
  | ok deltas =>
      dsimp only
      rcases s.tree.applyScores deltas s.snapshot.justified.epoch
          s.snapshot.finalized.epoch with ⟨tree, error | ok⟩
      · rfl
      · rfl

/-- Nor does a head update depend on anything else, such as what is to be
logged. -/
theorem updateHead_congr (hsame : s.deltas resharing = s.deltas sharing)
    (metrics : StoreMetrics) (features again : Features) :
    (({ s with metrics } : Store).updateHeadShared again resharing).value
      = ⟨{ (s.updateHeadShared features sharing).value.state with
          metrics := metrics.countHeadUpdate },
        (s.updateHeadShared features sharing).value.result⟩ := by
  rw [updateHead_value, updateHead_value]
  dsimp only
  have hcounted := applyVotes_congr (Eq.refl (s.deltas sharing)) s.metrics.countHeadUpdate
  rw [applyVotes_congr hsame metrics.countHeadUpdate, hcounted]
  rcases s.applyVotes sharing with ⟨u, error | ok⟩
  · rfl
  · rfl

/-- A store that is up to date has no deltas. -/
theorem deltas_upToDate (h : Sound s.tree)
    (hscored : Scored s.tree d s.snapshot.justified.epoch s.snapshot.finalized.epoch tree) :
    (s.upToDate tree).deltas sharing = .ok (Array.replicate tree.size 0) := by
  have hdeltas := sharing.deltas_commit s.votes tree.positions s.snapshot.balances
  rw [(hscored.sound h).size_positions] at hdeltas
  exact hdeltas

/-- A store that is up to date is brought up to date without change. -/
theorem applyVotes_upToDate (h : Sound s.tree)
    (hscored : Scored s.tree d s.snapshot.justified.epoch s.snapshot.finalized.epoch tree) :
    (s.upToDate tree).applyVotes sharing = ⟨s.upToDate tree, .ok ()⟩ := by
  have hsound : Sound tree := hscored.sound h
  have hzero : deltaAt (Array.replicate tree.size 0) = fun _ => 0 :=
    funext (Tree.deltaAt_replicate _)
  unfold applyVotes
  rw [deltas_upToDate h hscored]
  simp only [upToDate]
  rcases hsound.applyScores_cases (Array.replicate tree.size 0)
      s.snapshot.justified.epoch s.snapshot.finalized.epoch with
    ⟨hsize, -⟩ | ⟨-, i, hi, -, hfits⟩ | ⟨-, t', heq, hscored'⟩
  · rw [Array.size_replicate] at hsize
    exact absurd rfl hsize
  · -- a weight to which nothing is added fits
    rw [hzero] at hfits
    have hn := Array.getElem?_eq_getElem hi
    have hlt := tree.nodes[i].weight.toNat_lt
    refine absurd ⟨_, hn, ?_⟩ (hfits fun S _ => by simp)
    unfold Tree.shift
    rw [Finset.sum_const_zero]
    omega
  · rw [hzero] at hscored'
    have hsame : t' = tree := hscored'.eq_of_zero hsound (hscored.bestLinked h)
      hscored.justifiedEpoch hscored.finalizedEpoch
    simp only [heq, hsame, VoteTable.commit_commit]

/-- After any run, however votes were and are shared, a head update that
does not fit changes nothing, and any other one leaves what it is to
leave whether or not there is a head. The update repeated answers the
same and changes nothing more, if it was not given up for a sum that did
not fit, if balances sum to what a delta can hold, or if it comes to the
same deltas or the same reason why there are none. -/
theorem updateHead_repeat (justified finalized : Checkpoint) (pruneThreshold : Nat)
    (calls : List Call) (features again : Features) (sharing resharing : Sharing) :
    let s := (empty justified finalized pruneThreshold).after calls
    let first := (s.updateHeadShared features sharing).value
    ((∃ i, first
          = ⟨{ s with metrics := s.metrics.countHeadUpdate }, .error (.tree (.overflow i))⟩
        ∧ s.Overflows sharing i)
        ∨ ∃ deltas tree,
          s.deltas sharing = .ok deltas
          ∧ s.tree.applyScores deltas s.snapshot.justified.epoch s.snapshot.finalized.epoch
            = (tree, .ok ())
          ∧ first.state = s.upToDate tree
          ∧ first.result = first.state.head
          ∧ (∀ error, first.result = .error error →
            ∃ e, error = .tree e ∧ tree.NoHead s.snapshot.justified.root e)
          ∧ ∀ sharing : Sharing,
            first.state.deltas sharing = .ok (Array.replicate first.state.tree.size 0))
      ∧ ((∀ i, first.result ≠ .error (.tree (.overflow i)))
          ∨ (total s.applied < 2 ^ 63 ∧ total s.snapshot.balances < 2 ^ 63)
          ∨ s.deltas resharing = s.deltas sharing →
        (first.state.updateHeadShared again resharing).value
          = ⟨{ first.state with metrics := first.state.metrics.countHeadUpdate },
            first.result⟩) := by
  intro s first
  have h : Sound s.tree := sound_run justified finalized pruneThreshold calls
  rcases updateHead_cases h features sharing with
    ⟨i, heq, hover⟩ | ⟨deltas, tree, hdeltas, hscores, hscored, heq⟩
  · have hfirst : first = ⟨{ s with metrics := s.metrics.countHeadUpdate },
        .error (.tree (.overflow i))⟩ := heq
    refine ⟨Or.inl ⟨i, hfirst, hover⟩, fun hrepeats => ?_⟩
    have hsame : s.deltas resharing = s.deltas sharing := by
      rcases hrepeats with hfits | ⟨happlied, hsnapshot⟩ | hsame
      · exact absurd (congrArg Step.result hfirst) (hfits i)
      · exact deltas_eq h happlied hsnapshot
      · exact hsame
    have hagain := updateHead_congr hsame s.metrics.countHeadUpdate features again
    change _ = (⟨{ first.state with metrics := _ }, first.result⟩ : Step Store Error Root)
      at hagain
    rw [hfirst] at hagain ⊢
    exact hagain
  · have hfirst : first
        = ⟨s.upToDate tree, (tree.findHead s.snapshot.justified.root).mapError .tree⟩ := heq
    rw [hfirst]
    refine ⟨Or.inr ⟨deltas, tree, hdeltas, hscores, rfl, rfl, fun error herror => ?_,
      fun _ => deltas_upToDate h hscored⟩, fun _ => ?_⟩
    · -- whatever is found, it is found in a sound tree
      cases hhead : tree.findHead s.snapshot.justified.root with
      | ok root =>
          rw [hhead] at herror
          cases herror
      | error e =>
          rw [hhead] at herror
          injection herror with herror
          exact ⟨e, herror.symm, (hscored.sound h).findHead_error hhead⟩
    · have hagain := applyVotes_congr (Eq.refl ((s.upToDate tree).deltas resharing))
        (s.upToDate tree).metrics.countHeadUpdate
      rw [applyVotes_upToDate h hscored] at hagain
      rw [updateHead_value, hagain]
      rfl

/-- The vote that moved does not fit, whoever takes it into account. -/
theorem updateHead_repeat_lateBlock :
    let s := (empty {} {} 256).after lateBlock
    let first := (s.updateHeadShared {} (.halving 1)).value
    (first.result = .error (.tree (.overflow 1))
        ∧ total s.applied < 2 ^ 63 ∧ total s.snapshot.balances < 2 ^ 63)
      ∧ (first.state.updateHeadShared {} (.halving 2)).value
        = ⟨{ first.state with metrics := first.state.metrics.countHeadUpdate },
          first.result⟩ := by
  have hrepeat := (updateHead_repeat {} {} 256 lateBlock {} {} (.halving 1) (.halving 2)).2
  refine (and_iff_left_of_imp fun hseen => hrepeat (Or.inr (Or.inl hseen.2))).mpr ?_
  decide +kernel

/-- Two of eight validators own more than a delta can hold. Both were
counted for one block when one of them turns to another, and the other
loses some of its balance. -/
def seesaw : List Call :=
  let genesis : BeaconBlock := {}
  let left : BeaconBlock := { slot := 1, parentRoot := genesis.hashTreeRoot }
  let right : BeaconBlock := { slot := 2, parentRoot := genesis.hashTreeRoot }
  let vote (validator : ValidatorIndex) (block : BeaconBlock) (epoch : Epoch) : Call :=
    .attestation
      { indices := [validator],
        data := { beaconBlockRoot := block.hashTreeRoot, target := { epoch } } }
  let balances (sixth seventh : Gwei) : Call :=
    .justified { root := genesis.hashTreeRoot } fun _ =>
      .ok #[0, 0, 0, 0, 0, 0, sixth, seventh]
  [vote 6 right 1,
    balances 6000000000000000000 5000000000000000000,
    .head {} (.halving 2),
    vote 7 left 0,
    .head {} (.halving 2),
    vote 6 left 0,
    balances 6000000000000000000 6000000000000000000,
    .block right {} {},
    .block left {} {},
    .block genesis {} {}]

/-- A worker that takes both of them into account comes across a sum that
does not fit, and the head update is given up. Two workers, one of which
took half of the table from the other, do not when the update is
repeated. And even a repetition that answers the same is counted. -/
theorem overflow_not_repeated :
    (let s := (empty {} {} 256).after seesaw
      let first := (s.updateHeadShared {} (.halving 2)).value
      let second :=
        (first.state.updateHeadShared {} (.splitting (.half (.even 1) (.even 2)))).value
      first.result = .error (.tree (.overflow 1))
        ∧ first.state.tree.nodes.toList.map (·.weight)
          = [12000000000000000000, 12000000000000000000, 0]
        ∧ second.result = .ok
          ({ slot := 2, parentRoot := ({} : BeaconBlock).hashTreeRoot } : BeaconBlock).hashTreeRoot
        ∧ second.state.tree.nodes.toList.map (·.weight)
          = [11000000000000000000, 5000000000000000000, 6000000000000000000])
      ∧ let first := (founded.updateHead {}).value
        let second := (first.state.updateHead {}).value
        second.result = first.result
          ∧ (first.state.metrics.headUpdates, second.state.metrics.headUpdates) = (1, 2) := by
  decide +kernel

end Store

end ChainHead
