/-
The head does not depend on the order in which blocks and votes arrive.

Take new blocks and any attestations, in two orders in which each block
comes after its parent, if that is among them. Then both stores end up
with the same blocks under the same parents, though at other positions
(`Arrived`): a parent link is set when a block arrives, and by then its
parent is there or will never be. And both have the same vote for every
validator, since of two votes the one with the later epoch stays and two
of one epoch are the same. So the stores match and head updates answer
the same.

Votes may come before their blocks, and a vote may repeat the epoch of
one that the store had before for another root: that one stays, whatever
the order.
-/
import ChainHead.Proofs.Store.View

namespace ChainHead.Store

open ChainHead.Tree (Sound born)
open VoteTable (total)

variable {s u u' start : Store} {known : List Root} {earlier calls calls' : List Call}

-- ============================================== statement vocabulary

/-- Whether a call is an attestation or a block that is new, arrives once
and comes after its parent, if that is one of those known to come. -/
def Call.Arrives (start : Store) (known : List Root) (earlier : List Call) : Call → Prop
  | .block b _ _ => start.tree.contains b.hashTreeRoot = false
      ∧ b.hashTreeRoot ∉ imported earlier
      ∧ (b.parentRoot ∈ known → b.parentRoot ∈ imported earlier)
  | .attestation _ => True
  | _ => False

/-- Every call of a run is an attestation or a block that arrives in
turn. -/
def Arriving (start : Store) (known : List Root) : List Call → Prop
  | [] => True
  | c :: earlier => Arriving start known earlier ∧ c.Arrives start known earlier

/-- The attestations that a run was told of. -/
def attestations (calls : List Call) : List IndexedAttestation :=
  calls.filterMap fun
    | .attestation a => some a
    | _ => none

/-- Whether no validator votes for two roots in one epoch by two
attestations. -/
def Compatible (a a' : IndexedAttestation) : Prop :=
  ∀ v ∈ a.indices, v ∈ a'.indices → a.data.target.epoch = a'.data.target.epoch →
    a.data.beaconBlockRoot = a'.data.beaconBlockRoot

/-- No validator votes for two roots in one epoch. -/
def Unequivocal (calls : List Call) : Prop :=
  ∀ a ∈ attestations calls, ∀ a' ∈ attestations calls, Compatible a a'

instance (start : Store) (known : List Root) (earlier : List Call) :
    (c : Call) → Decidable (c.Arrives start known earlier)
  | .block b _ _ => inferInstanceAs (Decidable (start.tree.contains b.hashTreeRoot = false
      ∧ b.hashTreeRoot ∉ imported earlier
      ∧ (b.parentRoot ∈ known → b.parentRoot ∈ imported earlier)))
  | .attestation _ => isTrue trivial
  | .justified _ _ | .finalized _ | .finalizedBlock _ | .pruneThreshold _ | .head _ _ =>
    isFalse id

instance (start : Store) (known : List Root) :
    (calls : List Call) → Decidable (Arriving start known calls)
  | [] => isTrue trivial
  | c :: earlier =>
    have := instDecidableArriving start known earlier
    inferInstanceAs (Decidable (Arriving start known earlier ∧ c.Arrives start known earlier))

-- there are finitely many validators, but not few enough to go through
instance (a a' : IndexedAttestation) : Decidable (Compatible a a') :=
  List.decidableBAll
    (fun v => v ∈ a'.indices → a.data.target.epoch = a'.data.target.epoch →
      a.data.beaconBlockRoot = a'.data.beaconBlockRoot)
    a.indices

instance (calls : List Call) : Decidable (Unequivocal calls) :=
  inferInstanceAs (Decidable (∀ a ∈ attestations calls, ∀ a' ∈ attestations calls,
    Compatible a a'))

-- =============================================================== votes

/-- What a call does to the tracker of a validator. -/
def Call.cast (v : Nat) : Call → Tracker → Tracker
  | .attestation a, w =>
    if v ∈ a.indices.map (·.toNat) then
      (w.record a.data.beaconBlockRoot a.data.target.epoch).1
    else w
  | _, w => w

/-- Calls that do not contradict each other can be made in either
order. -/
theorem Unequivocal.cast_comm (h : Unequivocal calls) {c c' : Call} (hc : c ∈ calls)
    (hc' : c' ∈ calls) (v : Nat) (w : Tracker) :
    c'.cast v (c.cast v w) = c.cast v (c'.cast v w) := by
  cases c with
  | attestation a =>
      cases c' with
      | attestation a' =>
          simp only [Call.cast]
          by_cases hv : v ∈ a.indices.map (·.toNat)
          · by_cases hv' : v ∈ a'.indices.map (·.toNat)
            · obtain ⟨i, hi, hvi⟩ := List.mem_map.mp hv
              obtain ⟨i', hi', hvi'⟩ := List.mem_map.mp hv'
              have hsame : i = i' := UInt64.toNat_inj.mp (hvi.trans hvi'.symm)
              have hagree := h a (List.mem_filterMap.mpr ⟨_, hc, rfl⟩) a'
                (List.mem_filterMap.mpr ⟨_, hc', rfl⟩) i hi (hsame ▸ hi')
              simp only [if_pos hv, if_pos hv']
              exact w.record_comm hagree
            · simp only [if_neg hv']
          · simp only [if_neg hv]
      | _ => rfl
  | _ => cases c' <;> rfl

/-- The order of votes makes no difference to any validator. -/
theorem Unequivocal.foldr_cast (h : Unequivocal calls) (hperm : calls.Perm calls') (v : Nat)
    (w : Tracker) : calls.foldr (Call.cast v) w = calls'.foldr (Call.cast v) w :=
  hperm.foldr_eq' (fun _ hc _ hc' w => h.cast_comm hc hc' v w) w

-- =============================================================== blocks

theorem mem_imported {root : Root} :
    root ∈ imported calls
      ↔ ∃ b justified finalized, Call.block b justified finalized ∈ calls
        ∧ b.hashTreeRoot = root := by
  unfold imported
  rw [List.mem_filterMap]
  constructor
  · intro ⟨c, hc, hroot⟩
    cases c with
    | block b justified finalized =>
        injection hroot with hroot
        exact ⟨b, justified, finalized, hc, hroot⟩
    | _ => cases hroot
  · intro ⟨b, justified, finalized, hc, hroot⟩
    exact ⟨_, hc, congrArg some hroot⟩

/-- What a store has become by blocks and votes that arrived, told
without regard to their order. -/
structure Arrived (s : Store) (known : List Root) (calls : List Call) (u : Store) : Prop where
  contains : ∀ root, u.tree.contains root = true
    ↔ s.tree.contains root = true ∨ root ∈ imported calls
  old : ∀ root, root ∉ imported calls → u.tree.view? root = s.tree.view? root
  new : ∀ b justified finalized, Call.block b justified finalized ∈ calls →
    u.tree.view? b.hashTreeRoot = some (born b.hashTreeRoot b.parentRoot
      (s.tree.contains b.parentRoot || decide (b.parentRoot ∈ known))
      justified.epoch finalized.epoch)
  tracker : ∀ v, u.votes.tracker v = calls.foldr (Call.cast v) (s.votes.tracker v)
  justifiedEpoch : u.tree.justifiedEpoch = s.tree.justifiedEpoch
  finalizedEpoch : u.tree.finalizedEpoch = s.tree.finalizedEpoch
  snapshot : u.snapshot = s.snapshot
  applied : u.applied = s.applied

namespace Arrived

/-- A block that arrives finds its parent if that is or will be known. -/
theorem block (h : Arrived s known earlier u) (hsound : Sound u.tree)
    (hknown : imported earlier ⊆ known) {b : BeaconBlock} {justified finalized : Checkpoint}
    (hturn : (Call.block b justified finalized).Arrives s known earlier) :
    Arrived s known (.block b justified finalized :: earlier)
      (u.onBlock b justified finalized).state := by
  obtain ⟨habsent, honce, hparent⟩ := hturn
  have himported : imported (.block b justified finalized :: earlier)
      = b.hashTreeRoot :: imported earlier := rfl
  rcases u.onBlock_cases b justified finalized with ⟨hcontains, -⟩ | ⟨hnew, metrics, heq⟩
  · rcases (h.contains _).mp hcontains with hold | hmem
    · rw [habsent] at hold
      cases hold
    · exact absurd hmem honce
  · have hfresh := fresh_entry justified finalized hnew
    have hlinked : u.tree.contains b.parentRoot
        = (s.tree.contains b.parentRoot || decide (b.parentRoot ∈ known)) := by
      rw [Bool.eq_iff_iff, h.contains, Bool.or_eq_true, decide_eq_true_iff]
      exact or_congr_right ⟨fun hmem => hknown hmem, hparent⟩
    have hother : ∀ root, root ≠ b.hashTreeRoot →
        (u.tree.extend (u.entry b justified finalized)).view? root = u.tree.view? root :=
      fun root hroot => hsound.view?_extend_old _ (Ne.symm hroot)
    rw [heq]
    exact {
      contains := by
        intro root
        rw [Tree.contains_extend, h.contains, himported, List.mem_cons, or_left_comm]
        exact or_congr_right (or_congr_left eq_comm)
      old := by
        intro root hroot
        rw [himported, List.mem_cons, not_or] at hroot
        exact (hother root hroot.1).trans (h.old root hroot.2)
      new := by
        intro b' justified' finalized' hmem
        cases hmem with
        | head => exact hlinked ▸ hsound.view?_extend_new hfresh
        | tail _ hmem =>
            have hmem' := mem_imported.mpr ⟨b', justified', finalized', hmem, rfl⟩
            exact (hother _ fun heq => honce (heq ▸ hmem')).trans
              (h.new b' justified' finalized' hmem)
      tracker := h.tracker
      justifiedEpoch := h.justifiedEpoch
      finalizedEpoch := h.finalizedEpoch
      snapshot := h.snapshot
      applied := h.applied }

theorem attestation (h : Arrived s known earlier u) (a : IndexedAttestation) :
    Arrived s known (.attestation a :: earlier) (u.onAttestation a).value where
  contains := h.contains
  old := h.old
  new := by
    intro b justified finalized hmem
    cases hmem with
    | tail _ hmem => exact h.new b justified finalized hmem
  tracker := by
    intro v
    have hrecorded := u.votes.tracker_recordAll a.data.beaconBlockRoot a.data.target.epoch
      a.indices v
    rw [h.tracker] at hrecorded
    exact hrecorded
  justifiedEpoch := h.justifiedEpoch
  finalizedEpoch := h.finalizedEpoch
  snapshot := h.snapshot
  applied := h.applied

/-- What two orders of the same calls come to is the same. -/
theorem matches_of_perm (h : Arrived s (imported calls) calls u)
    (h' : Arrived s (imported calls') calls' u') (hsound : Sound u.tree)
    (hsound' : Sound u'.tree) (hperm : calls.Perm calls') (hvotes : Unequivocal calls) :
    Matches u u' where
  sound := hsound
  sound' := hsound'
  view := by
    intro root
    have himported : ∀ root, root ∈ imported calls ↔ root ∈ imported calls' := fun root =>
      (hperm.filterMap _).mem_iff
    by_cases hroot : root ∈ imported calls
    · obtain ⟨b, justified, finalized, hmem, hb⟩ := mem_imported.mp hroot
      rw [← hb, h.new b justified finalized hmem,
        h'.new b justified finalized (hperm.mem_iff.mp hmem)]
      simp only [himported]
    · rw [h.old root hroot, h'.old root fun hmem => hroot ((himported root).mpr hmem)]
  justifiedEpoch := h'.justifiedEpoch.trans h.justifiedEpoch.symm
  finalizedEpoch := h'.finalizedEpoch.trans h.finalizedEpoch.symm
  tracker := by
    intro v
    rw [h.tracker, h'.tracker, hvotes.foldr_cast hperm]
  snapshot := h'.snapshot.trans h.snapshot.symm
  applied := h'.applied.trans h.applied.symm

end Arrived

-- ================================================================ runs

theorem arrived_after (h : Sound s.tree) (hcalls : Arriving s known calls)
    (hknown : imported calls ⊆ known) : Arrived s known calls (s.after calls) := by
  induction calls with
  | nil =>
      exact {
        contains := fun root => by simp [after, imported]
        old := fun _ _ => rfl
        new := fun _ _ _ hmem => by cases hmem
        tracker := fun _ => rfl
        justifiedEpoch := rfl
        finalizedEpoch := rfl
        snapshot := rfl
        applied := rfl }
  | cons c earlier ih =>
      obtain ⟨hearlier, hc⟩ := hcalls
      cases c with
      | block b justified finalized =>
          have hsub : imported earlier ⊆ known := fun root hroot =>
            hknown (List.mem_cons_of_mem _ hroot)
          exact (ih hearlier hsub).block (sound_after h earlier) hsub hc
      | attestation a => exact (ih hearlier hknown).attestation a
      | _ => exact hc.elim

/-- After any run, new blocks and unequivocal votes can arrive in any
order that puts parents first: a head update finds the same head or none,
and gives every block the same weight. -/
theorem updateHead_of_perm {justified finalized : Checkpoint} {pruneThreshold : Nat}
    (hperm : calls.Perm calls')
    (hcalls : Arriving ((empty justified finalized pruneThreshold).after earlier)
      (imported calls) calls)
    (hcalls' : Arriving ((empty justified finalized pruneThreshold).after earlier)
      (imported calls') calls')
    (hvotes : Unequivocal calls)
    (happlied :
      total ((empty justified finalized pruneThreshold).after earlier).applied < 2 ^ 63)
    (hsnapshot : total
      ((empty justified finalized pruneThreshold).after earlier).snapshot.balances < 2 ^ 63)
    (features features' : Features) (sharing sharing' : Sharing) :
    let s := (empty justified finalized pruneThreshold).after earlier
    let r := ((s.after calls).updateHeadShared features sharing).value
    let r' := ((s.after calls').updateHeadShared features' sharing').value
    (∀ head, r.result = .ok head ↔ r'.result = .ok head)
      ∧ ∀ head, r.result = .ok head →
        ∀ root, r'.state.tree.weight? root = r.state.tree.weight? root := by
  intro s r r'
  have h : Sound s.tree := sound_run justified finalized pruneThreshold earlier
  have harrived := arrived_after h hcalls (List.Subset.refl _)
  have harrived' := arrived_after h hcalls' (List.Subset.refl _)
  have hmatches := harrived.matches_of_perm harrived' (sound_after h calls)
    (sound_after h calls') hperm hvotes
  rcases hmatches.updateHead (harrived.applied ▸ happlied) (harrived.snapshot ▸ hsnapshot)
      features features' sharing sharing' with ⟨⟨i, hi⟩, i', hi'⟩ | ⟨hresult, hweight⟩
  · -- neither is a head
    have hr : r.result = .error (.tree (.overflow i)) := hi
    have hr' : r'.result = .error (.tree (.overflow i')) := hi'
    rw [hr, hr']
    exact ⟨fun head => ⟨nofun, nofun⟩, nofun⟩
  · have hr : r'.result = r.result := hresult
    rw [hr]
    exact ⟨fun head => Iff.rfl, fun _ _ => hweight⟩

/-- The store to which the two branches below come. -/
def genesisOnly : List Call :=
  let genesis : BeaconBlock := {}
  [.justified { root := genesis.hashTreeRoot } fun _ => .ok #[10, 20],
    .block genesis {} {}]

/-- A branch of two blocks, with the later vote of a validator. -/
def longBranch : List Call :=
  let genesis : BeaconBlock := {}
  let left : BeaconBlock := { slot := 1, parentRoot := genesis.hashTreeRoot }
  let child : BeaconBlock := { slot := 2, parentRoot := left.hashTreeRoot }
  [.block child {} {},
    .block left {} {},
    .attestation
      { indices := [1],
        data := { beaconBlockRoot := child.hashTreeRoot, target := { epoch := 1 } } }]

/-- A branch of one block, with two votes. -/
def shortBranch : List Call :=
  let genesis : BeaconBlock := {}
  let right : BeaconBlock := { slot := 3, parentRoot := genesis.hashTreeRoot }
  [.block right {} {},
    .attestation { indices := [0, 1], data := { beaconBlockRoot := right.hashTreeRoot } }]

/-- Whichever branch comes first, its blocks and votes come to the
same. -/
theorem updateHead_of_perm_branches :
    let s := (empty {} {} 256).after genesisOnly
    let r := ((s.after (longBranch ++ shortBranch)).updateHeadShared {} (.halving 1)).value
    let r' := ((s.after (shortBranch ++ longBranch)).updateHeadShared {} (.halving 2)).value
    (r.state.tree.nodes.toList.map (·.weight) = [30, 10, 20, 20]
        ∧ r'.state.tree.nodes.toList.map (·.weight) = [30, 20, 20, 10])
      ∧ (∀ head, r.result = .ok head ↔ r'.result = .ok head)
      ∧ ∀ head, r.result = .ok head →
        ∀ root, r'.state.tree.weight? root = r.state.tree.weight? root := by
  have hfacts :
      let s := (empty {} {} 256).after genesisOnly
      let r := ((s.after (longBranch ++ shortBranch)).updateHeadShared {} (.halving 1)).value
      let r' := ((s.after (shortBranch ++ longBranch)).updateHeadShared {} (.halving 2)).value
      (r.state.tree.nodes.toList.map (·.weight) = [30, 10, 20, 20]
          ∧ r'.state.tree.nodes.toList.map (·.weight) = [30, 20, 20, 10])
        ∧ Arriving s (imported (longBranch ++ shortBranch)) (longBranch ++ shortBranch)
        ∧ Arriving s (imported (shortBranch ++ longBranch)) (shortBranch ++ longBranch)
        ∧ Unequivocal (longBranch ++ shortBranch)
        ∧ total s.applied < 2 ^ 63 ∧ total s.snapshot.balances < 2 ^ 63 := by
    decide +kernel
  obtain ⟨hweights, hcalls, hcalls', hvotes, happlied, hsnapshot⟩ := hfacts
  exact ⟨hweights, updateHead_of_perm List.perm_append_comm hcalls hcalls' hvotes happlied
    hsnapshot {} {} (.halving 1) (.halving 2)⟩

end ChainHead.Store
