/-
A store that was pruned and one that was not tell no difference.

Run the same calls on both; how the votes are shared when the head is
updated may differ. As long as nothing that pruning took away is asked
for again, the pruned store is at every step what the other would be
without its first blocks (`Trails`): the blocks that went are always
the first, and votes and balances are the same, those for blocks that
went included. Such votes still weigh on the block they name in the one
store and on none in the other, but what they add to goes only to
ancestors of that block, which came before it and went with it.

A block built on one that went is a child in the one store and has no
parent in the other; this is all that shows, and no head depends on it.
-/
import ChainHead.Proofs.Store.Calls
import ChainHead.Proofs.Store.Outline
import ChainHead.Proofs.Tree.Remainder

namespace ChainHead.Store

open ChainHead.Tree (Sound Scored Dropped contains_iff contains_eq_false_iff)

variable {s s' start start' : Store} {gone : Root → Prop} {count : Nat}

-- ============================================== statement vocabulary

/-- Whether pruning took a block away. -/
def Gone (before after : Store) (root : Root) : Prop :=
  before.tree.contains root = true ∧ after.tree.contains root = false

/-- Whether a head update failed because some sum did not fit. -/
def isOverflow : Except Error Root → Bool
  | .error (.tree (.overflow _)) => true
  | _ => false

/-- A call with another sharing, if it is a head update. -/
def Call.sharedBy (resharing : Sharing) : Call → Call
  | .head features _ => .head features resharing
  | c => c

/-- The calls that the pruned store is asked for: the same, but for the
sharings that go with them. -/
def reshared (steps : List (Call × Sharing)) : List Call :=
  steps.map fun step => step.1.sharedBy step.2

/-- Whether a call does without what pruning took away: no such block
comes back or is where a head is looked for. Nor is there another
pruning, or a sum that does not fit. -/
def Call.Avoids (start start' : Store) (earlier : List (Call × Sharing)) :
    Call × Sharing → Prop
  | (.block b _ _, _) => ¬ Gone start start' b.hashTreeRoot
  | (.attestation _, _) | (.justified _ _, _) => True
  | (.head features sharing, resharing) =>
    ¬ Gone start start' (start.after (earlier.map (·.1))).snapshot.justified.root
      ∧ isOverflow
          ((start.after (earlier.map (·.1))).updateHeadShared features sharing).value.result
        = false
      ∧ isOverflow
          ((start'.after (reshared earlier)).updateHeadShared features resharing).value.result
        = false
  | (.finalized _, _) | (.finalizedBlock _, _) | (.pruneThreshold _, _) => False

/-- Every call of a run does without what pruning took away. -/
def Oblivious (start start' : Store) : List (Call × Sharing) → Prop
  | [] => True
  | c :: earlier => Oblivious start start' earlier ∧ Call.Avoids start start' earlier c

instance (before after : Store) (root : Root) : Decidable (Gone before after root) :=
  inferInstanceAs (Decidable (_ ∧ _))

instance (start start' : Store) (earlier : List (Call × Sharing)) :
    (c : Call × Sharing) → Decidable (Call.Avoids start start' earlier c)
  | (.block b _ _, _) => inferInstanceAs (Decidable (¬ Gone start start' b.hashTreeRoot))
  | (.head features sharing, resharing) => inferInstanceAs (Decidable
      (¬ Gone start start' (start.after (earlier.map (·.1))).snapshot.justified.root
        ∧ isOverflow
            ((start.after (earlier.map (·.1))).updateHeadShared features sharing).value.result
          = false
        ∧ isOverflow
            ((start'.after (reshared earlier)).updateHeadShared features resharing).value.result
          = false))
  | (.attestation _, _) | (.justified _ _, _) => isTrue trivial
  | (.finalized _, _) | (.finalizedBlock _, _) | (.pruneThreshold _, _) => isFalse id

instance (start start' : Store) :
    (steps : List (Call × Sharing)) → Decidable (Oblivious start start' steps)
  | [] => isTrue trivial
  | c :: earlier =>
    have := instDecidableOblivious start start' earlier
    inferInstanceAs (Decidable
      (Oblivious start start' earlier ∧ Call.Avoids start start' earlier c))

-- ======================================================= the invariant

/-- Whether a store is what another would be without its first blocks,
those of certain roots. -/
structure Trails (gone : Root → Prop) (count : Nat) (s s' : Store) : Prop where
  sound : Sound s.tree
  dropped : Dropped count s.tree s'.tree
  long : count ≤ s.tree.nodes.size
  late : ∀ root i, ¬ gone root → s.tree.position? root = some i → count ≤ i
  votes : s'.votes = s.votes
  snapshot : s'.snapshot = s.snapshot
  applied : s'.applied = s.applied

/-- A pruned store trails what it was, and keeps the finalized block. -/
theorem trails_prune {root : Root} (h : Sound s.tree)
    (hprune : (s.updateFinalizedBlock root).value = ⟨s', .ok ()⟩) :
    ∃ count, Trails (Gone s s') count s s' ∧ ¬ Gone s s' root := by
  obtain ⟨metrics, heq⟩ := s.updateFinalizedBlock_value root
  rw [hprune] at heq
  injection heq with hstate hresult
  subst hstate
  rcases h.prune_cases root with ⟨-, heq⟩ | ⟨count, hpos, ⟨-, heq⟩ | ⟨-, t', heq, hdropped⟩⟩
  · rw [heq] at hresult
    cases hresult
  · rw [heq]
    refine ⟨0, ⟨h, Dropped.refl _, Nat.zero_le _, fun _ i _ _ => Nat.zero_le i, rfl, rfl, rfl⟩,
      fun ⟨hbefore, hafter⟩ => ?_⟩
    rw [show s.tree.contains root = false from hafter] at hbefore
    cases hbefore
  · rw [heq]
    refine ⟨count, ⟨h, hdropped, Nat.le_of_lt (h.lt_size_of_position hpos),
      fun root i hgone hi => ?_, rfl, rfl, rfl⟩, fun ⟨_, hafter⟩ => ?_⟩
    · by_contra hlt
      refine hgone ⟨contains_iff.mpr ⟨i, hi⟩, contains_eq_false_iff.mpr ?_⟩
      show t'.position? root = none
      rw [hdropped.position, hi, Option.bind_some, Tree.shift?_of_lt (Nat.lt_of_not_le hlt)]
    · -- the finalized block is the first that stays
      have hzero : t'.position? root = some 0 :=
        hdropped.position_eq_some_iff.mpr (by rw [hpos, Nat.zero_add])
      rw [show t'.position? root = none from contains_eq_false_iff.mp hafter] at hzero
      cases hzero

namespace Trails

variable (h : Trails gone count s s')

include h

/-- A block that is not gone is in both stores or in none. -/
theorem contains_iff {root : Root} (hroot : ¬ gone root) :
    s'.tree.contains root = true ↔ s.tree.contains root = true := by
  constructor
  · exact h.dropped.contains_of_contains
  · intro hcontains
    obtain ⟨i, hi⟩ := Tree.contains_iff.mp hcontains
    have hle := h.late root i hroot hi
    exact Tree.contains_iff.mpr ⟨i - count, h.dropped.position_eq_some_iff.mpr
      (hi.trans (congrArg some (by omega)))⟩

/-- What is under a block that is not gone is in the pruned store. -/
theorem contains_of_isUnder {top root : Root} (htop : ¬ gone top)
    (hunder : Ghost.isUnder s.tree.outline top root = true) :
    s'.tree.contains root = true := by
  obtain ⟨i, j, hi, hj, hbelow⟩ := h.sound.isUnder_iff.mp hunder
  have hle := h.late top i htop hi
  have hij := hbelow.le h.sound.rooted
  exact Tree.contains_iff.mpr ⟨j - count, h.dropped.position_eq_some_iff.mpr
    (hj.trans (congrArg some (by omega)))⟩

-- ================================================================ steps

theorem block (b : BeaconBlock) (justified finalized : Checkpoint)
    (hroot : ¬ gone b.hashTreeRoot) :
    Trails gone count (s.onBlock b justified finalized).state
      (s'.onBlock b justified finalized).state := by
  have hiff := h.contains_iff hroot
  rcases s.onBlock_cases b justified finalized with
    ⟨hknown, heq⟩ | ⟨hnew, metrics, heq⟩
  · rcases s'.onBlock_cases b justified finalized with ⟨-, heq'⟩ | ⟨hnew', -⟩
    · rw [heq, heq']
      exact h
    · rw [hiff.mpr hknown] at hnew'
      cases hnew'
  · rcases s'.onBlock_cases b justified finalized with
      ⟨hknown', -⟩ | ⟨-, metrics', heq'⟩
    · rw [hiff.mp hknown'] at hnew
      cases hnew
    · have hentry : s'.entry b justified finalized
          = Tree.shifted count (s.entry b justified finalized) :=
        h.dropped.newNode _ _ _ _ _ _
      rw [heq, heq', hentry]
      exact {
        sound := h.sound.extend (fresh_entry justified finalized hnew)
        dropped := h.dropped.extend h.long _
        long := Nat.le_trans h.long (by simp [Tree.extend])
        late := by
          intro root i hgone hi
          rw [Tree.position_extend] at hi
          split at hi
          case isTrue =>
            injection hi with hi
            exact hi ▸ h.long
          case isFalse => exact h.late root i hgone hi
        votes := h.votes
        snapshot := h.snapshot
        applied := h.applied }

theorem attestation (a : IndexedAttestation) :
    Trails gone count (s.onAttestation a).value (s'.onAttestation a).value where
  sound := h.sound
  dropped := h.dropped
  long := h.long
  late := h.late
  votes := congrArg (fun votes : VoteTable =>
    (votes.recordAll a.data.beaconBlockRoot a.data.target.epoch a.indices).1) h.votes
  snapshot := h.snapshot
  applied := h.applied

theorem justified (checkpoint : Checkpoint)
    (balancesOf : Checkpoint → Except String VoteTable.Balances) :
    Trails gone count (s.updateJustified checkpoint balancesOf).value.state
      (s'.updateJustified checkpoint balancesOf).value.state := by
  unfold updateJustified
  cases balancesOf checkpoint with
  | error reason => exact h
  | ok balances =>
      exact ⟨h.sound, h.dropped, h.long, h.late, h.votes,
        congrArg (·.withJustified checkpoint balances) h.snapshot, h.applied⟩

/-- A head update that overflows in neither store takes both to trees of
which one is the remainder of the other. -/
theorem updateHead (features : Features) (sharing resharing : Sharing)
    (hfits : isOverflow (s.updateHeadShared features sharing).value.result = false)
    (hfits' : isOverflow (s'.updateHeadShared features resharing).value.result = false) :
    Trails gone count (s.updateHeadShared features sharing).value.state
        (s'.updateHeadShared features resharing).value.state
      ∧ (¬ gone s.snapshot.justified.root →
        (s'.updateHeadShared features resharing).value.result
          = (s.updateHeadShared features sharing).value.result) := by
  rcases updateHead_cases h.sound features sharing with
    ⟨i, heq, -⟩ | ⟨-, u, -, -, hscored, heq⟩
  · rw [heq] at hfits
    cases hfits
  rcases updateHead_cases (h.dropped.sound h.sound) features resharing with
    ⟨i, heq', -⟩ | ⟨-, u', -, -, hscored', heq'⟩
  · rw [heq'] at hfits'
    cases hfits'
  rw [h.snapshot] at hscored'
  have heffects : ∀ x < s'.tree.nodes.size, s.effects (x + count) = s'.effects x := by
    intro x _
    unfold effects
    rw [h.votes, h.applied, h.snapshot]
    exact VoteTable.netEffect_congr (fun _ => h.dropped.position_eq_some_iff.symm) _ _ _
  have hdropped := h.dropped.scored h.sound heffects hscored hscored'
  have hlate : ∀ root i, ¬ gone root → u.position? root = some i → count ≤ i := by
    intro root i hgone hi
    rw [hscored.position] at hi
    exact h.late root i hgone hi
  rw [heq, heq']
  refine ⟨⟨hscored.sound h.sound, hdropped, hscored.size ▸ h.long, hlate,
    congrArg VoteTable.commit h.votes, h.snapshot, congrArg (·.balances) h.snapshot⟩,
    fun hgone => ?_⟩
  have hhead := hdropped.findHead (hscored.sound h.sound) fun i hi => hlate _ i hgone hi
  dsimp only
  rw [h.snapshot, hhead]

end Trails

-- ================================================================ runs

/-- A pruned store trails the other for as long as calls do without what
is gone. -/
theorem trails_after (h : Trails (Gone start start') count start start')
    {steps : List (Call × Sharing)} (hoblivious : Oblivious start start' steps) :
    Trails (Gone start start') count (start.after (steps.map (·.1)))
      (start'.after (reshared steps)) := by
  induction steps with
  | nil => exact h
  | cons step earlier ih =>
      obtain ⟨hearlier, hc⟩ := hoblivious
      have hs := ih hearlier
      obtain ⟨c, resharing⟩ := step
      cases c with
      | block b justified finalized => exact hs.block b justified finalized hc
      | attestation a => exact hs.attestation a
      | justified checkpoint balancesOf => exact hs.justified checkpoint balancesOf
      | head features sharing =>
          exact (hs.updateHead features sharing resharing hc.2.1 hc.2.2).1
      | finalized checkpoint => exact hc.elim
      | finalizedBlock root => exact hc.elim
      | pruneThreshold threshold => exact hc.elim

theorem Oblivious.of_suffix {later steps : List (Call × Sharing)}
    (h : Oblivious start start' later) (hsuffix : steps <:+ later) :
    Oblivious start start' steps := by
  induction later with
  | nil =>
      rw [List.suffix_nil.mp hsuffix]
      exact trivial
  | cons c earlier ih =>
      rcases List.suffix_cons_iff.mp hsuffix with heq | hsuffix
      · rw [heq]
        exact h
      · exact ih h.1 hsuffix

/-- After any run and a successful pruning, whatever does without the
blocks that went finds in both stores, at every step, the same blocks
under the finalized one, the same of each block that is left, and the
same head. How votes are shared may differ at each step. -/
theorem pruned_agrees {justified finalized : Checkpoint} {pruneThreshold : Nat}
    {earlier : List Call} {later : List (Call × Sharing)} {top : Root}
    (hprune : (((empty justified finalized pruneThreshold).after earlier).updateFinalizedBlock
      top).value = ⟨s', .ok ()⟩)
    (hoblivious :
      Oblivious ((empty justified finalized pruneThreshold).after earlier) s' later) :
    let s := (empty justified finalized pruneThreshold).after earlier
    ∀ steps, steps <:+ later →
      let whole := s.after (steps.map (·.1))
      let pruned := s'.after (reshared steps)
      (∀ root, Ghost.isUnder whole.tree.outline top root = true →
        pruned.tree.contains root = true)
      ∧ (∀ root, pruned.tree.contains root = true →
        whole.tree.contains root = true
        ∧ pruned.tree.slot? root = whole.tree.slot? root
        ∧ pruned.tree.parentRoot? root = whole.tree.parentRoot? root
        ∧ pruned.tree.weight? root = whole.tree.weight? root
        ∧ pruned.tree.findHead root = whole.tree.findHead root)
      ∧ ∀ features sharing resharing, (.head features sharing, resharing) :: steps <:+ later →
        (pruned.updateHeadShared features resharing).value.result
          = (whole.updateHeadShared features sharing).value.result := by
  intro s steps hsteps whole pruned
  have hsound : Sound s.tree := sound_run justified finalized pruneThreshold earlier
  obtain ⟨count, hstart, htop⟩ := trails_prune hsound hprune
  have h := trails_after hstart (hoblivious.of_suffix hsteps)
  refine ⟨fun root => h.contains_of_isUnder htop, fun root hroot => ?_,
    fun features sharing resharing hhead => ?_⟩
  · obtain ⟨i, hi⟩ := contains_iff.mp hroot
    have hnode := h.dropped.node? hroot
    unfold Tree.slot? Tree.parentRoot? Tree.weight?
    rw [hnode, Option.map_map, Option.map_map, Option.map_map]
    refine ⟨h.dropped.contains_of_contains hroot, rfl, rfl, rfl,
      h.dropped.findHead h.sound fun j hj => ?_⟩
    rw [h.dropped.position_eq_some_iff.mp hi, Option.some.injEq] at hj
    omega
  · obtain ⟨-, hgone, hfits, hfits'⟩ := hoblivious.of_suffix hhead
    exact (h.updateHead features sharing resharing hfits hfits').2 hgone

theorem eq_of_result {σ ε α : Type} {step : Step σ ε α} {result : Except ε α}
    (hresult : step.result = result) : step = ⟨step.state, result⟩ := by
  rw [← hresult]

/-- Two siblings, of which the first has weight. -/
def fork : List Call :=
  let genesis : BeaconBlock := {}
  let left : BeaconBlock := { slot := 1, parentRoot := genesis.hashTreeRoot }
  let right : BeaconBlock := { slot := 2, parentRoot := genesis.hashTreeRoot }
  [.head {} (.halving 1),
    .attestation { indices := [1], data := { beaconBlockRoot := left.hashTreeRoot } },
    .justified { root := genesis.hashTreeRoot } fun _ => .ok #[10, 20],
    .block right {} {},
    .block left {} {},
    .block genesis {} {}]

/-- The root that is finalized: that of the second sibling. -/
def forkTop : Root :=
  let genesis : BeaconBlock := {}
  ({ slot := 2, parentRoot := genesis.hashTreeRoot } : BeaconBlock).hashTreeRoot

/-- A child for each of the siblings, with votes for both, and one vote
that goes over from a block that went to one that is left. One store
halves the votes once, the other twice. -/
def growth : List (Call × Sharing) :=
  let genesis : BeaconBlock := {}
  let left : BeaconBlock := { slot := 1, parentRoot := genesis.hashTreeRoot }
  let orphan : BeaconBlock := { slot := 3, parentRoot := left.hashTreeRoot }
  let child : BeaconBlock := { slot := 4, parentRoot := forkTop }
  let vote (validator : ValidatorIndex) (block : BeaconBlock) : Call :=
    .attestation
      { indices := [validator],
        data := { beaconBlockRoot := block.hashTreeRoot, target := { epoch := 1 } } }
  [.head {} (.halving 1),
    vote 1 child,
    vote 0 orphan,
    .justified { root := forkTop } fun _ => .ok #[5, 30],
    .block orphan {} {},
    .block child {} {}].map fun c => (c, .halving 2)

/-- The pruning takes two blocks, one of them the parent of a block to
come. -/
theorem pruned_agrees_growth :
    let s := (empty {} {} 0).after fork
    let s' := (s.updateFinalizedBlock forkTop).value.state
    let whole := s.after (growth.map (·.1))
    let pruned := s'.after (reshared growth)
    (whole.tree.nodes.toList.map (·.weight) = [35, 5, 30, 30, 5]
      ∧ pruned.tree.nodes.toList.map (·.weight) = [30, 30, 5])
      ∧ (∀ root, pruned.tree.contains root = true →
        pruned.tree.weight? root = whole.tree.weight? root)
      ∧ ((s'.after (reshared growth.tail)).updateHeadShared {} (.halving 2)).value.result
        = ((s.after (growth.tail.map (·.1))).updateHeadShared {} (.halving 1)).value.result := by
  have hfacts :
      let s := (empty {} {} 0).after fork
      let s' := (s.updateFinalizedBlock forkTop).value.state
      ((s.after (growth.map (·.1))).tree.nodes.toList.map (·.weight) = [35, 5, 30, 30, 5]
          ∧ (s'.after (reshared growth)).tree.nodes.toList.map (·.weight) = [30, 30, 5])
        ∧ (s.updateFinalizedBlock forkTop).value.result = .ok ()
        ∧ Oblivious s s' growth := by
    decide +kernel
  obtain ⟨hweights, hresult, hoblivious⟩ := hfacts
  have hagrees := pruned_agrees (eq_of_result hresult) hoblivious
  have hlast : (Call.head {} (.halving 1), Sharing.halving 2) :: growth.tail <:+ growth :=
    ⟨[], rfl⟩
  obtain ⟨-, hblocks, -⟩ := hagrees growth List.suffix_rfl
  obtain ⟨-, -, hheads⟩ := hagrees growth.tail (List.tail_suffix growth)
  exact ⟨hweights, fun root hroot => (hblocks root hroot).2.2.2.1, hheads {} _ _ hlast⟩

end ChainHead.Store
