/-
What order buys: nothing is ever owed, and trackers hold the latest
messages.

In an orderly run every root that a validator ever voted for was the
root of a block by then (`Faithful`). A block that comes in for the
first time finds no vote counted for it, and one that comes back is
refused or was never dropped, so all debts are zero (`debt_eq_zero`) and
the books of `Balanced` say that weights are tallies
(`weight_eq_tally`).

The same invariant says what a tracker holds. A tracker is blank until
the first vote, which names a block and so is not the zero root; from
then on only a greater target epoch replaces it. That is how the latest
message of a history is chosen as well.
-/
import ChainHead.Proofs.Store.Books

namespace ChainHead.Store

open ChainHead.Tree (Sound)

variable {s : Store} {debts : Root → Nat} {calls earlier : List Call} {c : Call} {root : Root}

-- ======================================================= what calls touch

/-- Dropping blocks adds none. -/
theorem position_of_prune (h : Sound s.tree) {root r : Root} {i : Nat}
    (hpos : (s.tree.prune root).value.1.position? r = some i) :
    ∃ j, s.tree.position? r = some j := by
  rcases h.prune_cases root with ⟨-, heq⟩ | ⟨count, -, ⟨-, heq⟩ | ⟨-, t', heq, hdropped⟩⟩
  · rw [heq] at hpos
    exact ⟨i, hpos⟩
  · rw [heq] at hpos
    exact ⟨i, hpos⟩
  · rw [heq] at hpos
    change t'.position? r = some i at hpos
    rw [hdropped.position, Option.bind_eq_some_iff] at hpos
    obtain ⟨j, hj, -⟩ := hpos
    exact ⟨j, hj⟩

/-- A block that is there after a move was there before, or is the one
that the call was about. -/
theorem Moves.position {u : Store} (hmoves : Moves s c u) (h : Sound s.tree) {r : Root}
    {i : Nat} (hpos : u.tree.position? r = some i) :
    (∃ j, s.tree.position? r = some j)
      ∨ ∃ b justified finalized, c = .block b justified finalized ∧ r = b.hashTreeRoot := by
  cases hmoves with
  | add b justified finalized n metrics hnew hn hroot =>
      change (s.tree.extend n).position? r = some i at hpos
      rw [Tree.position_extend] at hpos
      by_cases hr : n.root = r
      · exact Or.inr ⟨b, justified, finalized, rfl, by rw [← hr, hroot]⟩
      · rw [if_neg hr] at hpos
        exact Or.inl ⟨i, hpos⟩
  | finalize checkpoint metrics => exact Or.inl (position_of_prune h hpos)
  | drop root metrics => exact Or.inl (position_of_prune h hpos)
  | settle features sharing metrics t' hscored =>
      exact Or.inl ⟨i, (hscored.position r).symm.trans hpos⟩
  | _ => exact Or.inl ⟨i, hpos⟩

/-- Votes are recorded by attestations and committed by head updates. -/
theorem Moves.votes {u : Store} (hmoves : Moves s c u) :
    (∃ a, c = .attestation a ∧ u.votes
        = (s.votes.recordAll a.data.beaconBlockRoot a.data.target.epoch a.indices).1)
      ∨ ((∀ a, c ≠ .attestation a) ∧ (u.votes = s.votes ∨ u.votes = s.votes.commit)) := by
  cases hmoves with
  | vote a => exact Or.inl ⟨a, rfl, rfl⟩
  | settle => exact Or.inr ⟨fun _ => by simp, Or.inr rfl⟩
  | _ => exact Or.inr ⟨fun _ => by simp, Or.inl rfl⟩

-- ====================================================== latest messages

/-- Whether a tracker holds a latest message, whose root has to be one
of those known. -/
def Tracks (known : List Root) (v : Tracker) : Option (Root × Epoch) → Prop
  | none => v = {}
  | some (root, epoch) => v.next = root ∧ v.nextEpoch = epoch ∧ root ≠ 0 ∧ root ∈ known

theorem Tracks.mono {known known' : List Root} (h : ∀ root ∈ known, root ∈ known')
    {v : Tracker} {latest? : Option (Root × Epoch)} (ht : Tracks known v latest?) :
    Tracks known' v latest? := by
  cases latest? with
  | none => exact ht
  | some m =>
      obtain ⟨hnext, hepoch, hne, hmem⟩ := ht
      exact ⟨hnext, hepoch, hne, h _ hmem⟩

/-- To count a vote does not replace it. -/
theorem Tracks.commit {known : List Root} {v : Tracker} {latest? : Option (Root × Epoch)}
    (ht : Tracks known v latest?) : Tracks known v.commit latest? := by
  cases latest? with
  | none =>
      change v = {} at ht
      rw [ht]
      rfl
  | some m => exact ht

/-- A vote that is recorded, if it is, becomes the latest message by the
rule that histories go by. -/
theorem Tracks.record {known : List Root} {v : Tracker} {votes : List (Root × Epoch)}
    (ht : Tracks known v (votes.argmax fun m => m.2.toNat)) {epoch : Epoch}
    (hroot : v.accepts epoch = true → root ≠ 0 ∧ root ∈ known) :
    Tracks known (v.record root epoch).1
      ((votes ++ [(root, epoch)]).argmax fun m => m.2.toNat) := by
  rw [List.argmax_concat]
  unfold Tracker.record
  cases hlatest : votes.argmax fun m => m.2.toNat with
  | none =>
      rw [hlatest] at ht
      change v = {} at ht
      have haccepts : v.accepts epoch = true := by
        unfold Tracker.accepts Tracker.isBlank
        rw [ht]
        simp
      rw [if_pos haccepts]
      exact ⟨rfl, rfl, hroot haccepts⟩
  | some m =>
      rw [hlatest] at ht
      obtain ⟨hnext, hepoch, hne, hmem⟩ := ht
      have hblank : v.isBlank = false := by
        unfold Tracker.isBlank
        rw [decide_eq_false_iff_not]
        rintro rfl
        exact hne hnext.symm
      have haccepts : v.accepts epoch = true ↔ m.2.toNat < epoch.toNat := by
        unfold Tracker.accepts
        rw [hblank, Bool.or_false, decide_eq_true_eq, hepoch, UInt64.lt_iff_toNat_lt]
      dsimp only
      by_cases hlt : m.2.toNat < epoch.toNat
      · rw [if_pos (haccepts.mpr hlt), if_pos hlt]
        exact ⟨rfl, rfl, hroot (haccepts.mpr hlt)⟩
      · rw [if_neg (fun h => hlt (haccepts.mp h)), if_neg hlt]
        exact ⟨hnext, hepoch, hne, hmem⟩

-- ======================================================= the invariant

/-- Whether a store knows what its history told it: blocks and counted
votes name imported roots, trackers hold the latest messages. -/
structure Faithful (s : Store) (calls : List Call) : Prop where
  present : ∀ root i, s.tree.position? root = some i → root ∈ imported calls
  counted : ∀ v, s.counted v = 0 ∨ s.counted v ∈ imported calls
  latest : ∀ v, Tracks (imported calls) (s.votes.tracker v) (latestMessage? calls v)

/-- What is wanted was imported, too. -/
theorem Faithful.wanted (h : Faithful s calls) (v : Nat) :
    s.wanted v = 0 ∨ s.wanted v ∈ imported calls := by
  have ht := h.latest v
  unfold Store.wanted
  cases hlatest : latestMessage? calls v with
  | none =>
      rw [hlatest] at ht
      change s.votes.tracker v = {} at ht
      rw [ht]
      exact Or.inl rfl
  | some m =>
      rw [hlatest] at ht
      obtain ⟨hnext, -, -, hmem⟩ := ht
      rw [hnext]
      exact Or.inr hmem

theorem faithful_empty (justified finalized : Checkpoint) (pruneThreshold : Nat) :
    Faithful (.empty justified finalized pruneThreshold) [] where
  present := by simp [empty, Tree.empty, Tree.position?]
  counted := fun v => Or.inl (by simp [Store.counted, empty, VoteTable.tracker])
  latest := fun v => by
    show VoteTable.tracker {} v = {}
    simp [VoteTable.tracker]

theorem mem_imported_cons (c : Call) (earlier : List Call) :
    ∀ root ∈ imported earlier, root ∈ imported (c :: earlier) := by
  intro root hroot
  unfold imported at hroot ⊢
  rw [List.filterMap_cons]
  split
  · exact hroot
  · exact List.mem_cons_of_mem _ hroot

theorem votesBy_of_ne_attestation (h : ∀ a, c ≠ .attestation a) (v : Nat) :
    votesBy v (c :: earlier) = votesBy v earlier := by
  cases c with
  | attestation a => exact absurd rfl (h a)
  | _ => rfl

/-- An orderly call keeps a store faithful. -/
theorem Faithful.call {start : Store} (hbalanced : Balanced (start.after earlier) debts)
    (h : Faithful (start.after earlier) earlier) (hfunded : c.Funded)
    (horder : c.InOrder start earlier) :
    Faithful ((start.after earlier).call c) (c :: earlier) := by
  have hmoves := hbalanced.moves c
  have hmono := mem_imported_cons c earlier
  have hnonzero : ∀ root i, (start.after earlier).tree.position? root = some i → root ≠ 0 := by
    rintro root i hpos rfl
    rw [hbalanced.unnamed] at hpos
    cases hpos
  refine ⟨fun root i hpos => ?_, fun v => ?_, fun v => ?_⟩
  · rcases hmoves.position hbalanced.sound hpos with ⟨j, hj⟩ | ⟨b, justified, finalized, rfl, rfl⟩
    · exact hmono root (h.present root j hj)
    · exact List.mem_cons_self
  · unfold Store.counted
    rcases hmoves.votes with ⟨a, -, heq⟩ | ⟨-, heq | heq⟩
    · rw [heq, VoteTable.current_recordAll]
      exact (h.counted v).imp_right (hmono _)
    · rw [heq]
      exact (h.counted v).imp_right (hmono _)
    · rw [heq, VoteTable.tracker_commit]
      exact (h.wanted v).imp_right (hmono _)
  · have hold := (h.latest v).mono hmono
    rcases hmoves.votes with ⟨a, rfl, heq⟩ | ⟨hne, heq | heq⟩
    · rw [heq, VoteTable.tracker_recordAll]
      unfold latestMessage? votesBy
      by_cases hv : v ∈ a.indices.map (·.toNat)
      · rw [if_pos hv, if_pos hv]
        refine Tracks.record hold fun haccepts => ?_
        obtain ⟨validator, hmem, rfl⟩ := List.mem_map.mp hv
        obtain ⟨i, hi⟩ := Tree.contains_iff.mp (horder validator hmem haccepts)
        exact ⟨hnonzero _ i hi, hmono _ (h.present _ i hi)⟩
      · rw [if_neg hv, if_neg hv]
        exact hold
    · rw [heq]
      unfold latestMessage?
      rw [votesBy_of_ne_attestation hne]
      exact hold
    · rw [heq, VoteTable.tracker_commit]
      unfold latestMessage?
      rw [votesBy_of_ne_attestation hne]
      exact hold.commit

-- ======================================================== orderly runs

theorem Orderly.funded {start : Store} (h : Orderly start calls) : Funded calls := by
  induction calls with
  | nil => simp [Funded]
  | cons c earlier ih =>
      obtain ⟨hearlier, hfunded, -⟩ := h
      exact List.forall_mem_cons.mpr ⟨hfunded, ih hearlier⟩

section

variable {justified finalized : Checkpoint} {pruneThreshold : Nat}

theorem Orderly.balanced (h : Orderly (empty justified finalized pruneThreshold) calls) :
    Balanced ((empty justified finalized pruneThreshold).after calls)
      (debt (empty justified finalized pruneThreshold) calls) :=
  (balanced_empty justified finalized pruneThreshold).after h.funded

theorem Orderly.faithful (h : Orderly (empty justified finalized pruneThreshold) calls) :
    Faithful ((empty justified finalized pruneThreshold).after calls) calls := by
  induction calls with
  | nil => exact faithful_empty justified finalized pruneThreshold
  | cons c earlier ih =>
      obtain ⟨hearlier, hfunded, horder⟩ := h
      exact (ih hearlier).call hearlier.balanced hfunded horder

/-- In an orderly run no block is ever owed anything. -/
theorem Orderly.debt_eq_zero (h : Orderly (empty justified finalized pruneThreshold) calls)
    (root : Root) : debt (empty justified finalized pruneThreshold) calls root = 0 := by
  induction calls with
  | nil => rfl
  | cons c earlier ih =>
      obtain ⟨hearlier, hfunded, horder⟩ := h
      cases c with
      | block b justified finalized =>
          simp only [debt, debtAfter]
          split
          case isTrue => exact ih hearlier
          case isFalse hnew =>
            by_cases hroot : root = b.hashTreeRoot
            · -- no vote was counted for a block that was never imported
              rw [hroot, Function.update_self]
              unfold VoteTable.support
              refine Finset.sum_eq_zero fun v _ => if_neg fun hv => ?_
              rcases hearlier.faithful.counted v with hzero | hmem
              · exact hfunded (hv.symm.trans hzero)
              · rw [hv] at hmem
                exact hnew (horder hmem)
            · rw [Function.update_of_ne hroot]
              exact ih hearlier
      | _ => exact ih hearlier

theorem Orderly.owed_eq_zero (h : Orderly (empty justified finalized pruneThreshold) calls)
    (t : Tree) (top : Root) :
    t.owed (debt (empty justified finalized pruneThreshold) calls) top = 0 := by
  unfold Tree.owed
  simp [h.debt_eq_zero]

/-- After an orderly run, the weight of every block is the exact sum of
the applied balances of the validators that are counted towards it or
one of its descendants. -/
theorem weight_eq_tally (h : Orderly (empty justified finalized pruneThreshold) calls) :
    let s := (empty justified finalized pruneThreshold).after calls
    ∀ (i : Nat) n, s.tree.nodes[i]? = some n →
      n.weight.toNat = s.tree.tally s.counted s.applied n.root := by
  intro s i n hn
  have hbalance := h.balanced.balance i n hn
  rw [h.owed_eq_zero] at hbalance
  exact hbalance

end

/-- Two siblings, the heavier of which loses its vote to the other after
weights were brought up to date. -/
def contest : List Call :=
  let genesis : BeaconBlock := {}
  let left : BeaconBlock := { slot := 1, parentRoot := genesis.hashTreeRoot }
  let right : BeaconBlock := { slot := 2, parentRoot := genesis.hashTreeRoot }
  let vote (validator : ValidatorIndex) (block : BeaconBlock) (epoch : Epoch) : Call :=
    .attestation
      { indices := [validator],
        data := { beaconBlockRoot := block.hashTreeRoot, target := { epoch } } }
  [vote 1 left 1,
    .head {} (.halving 1),
    vote 1 right 0,
    vote 0 left 0,
    .justified { root := genesis.hashTreeRoot } fun _ => .ok #[10, 20],
    .block right {} {},
    .block left {} {},
    .block genesis {} {}]

theorem orderly_contest : Orderly (empty {} {} 256) contest := by
  decide +kernel

/-- Weights are tallies after the contest. -/
theorem weight_eq_tally_contest :
    let s := (empty {} {} 256).after contest
    s.tree.nodes.toList.map (·.weight) = [30, 10, 20]
      ∧ ∀ (i : Nat) n, s.tree.nodes[i]? = some n →
        n.weight.toNat = s.tree.tally s.counted s.applied n.root :=
  ⟨by decide +kernel, weight_eq_tally orderly_contest⟩

end ChainHead.Store
