/-
Votes for the head never dislodge it.

Let votes go over to the head from anywhere (`Ghost.GoneOver`). A block
on the way to the head can only gain by that, and any other block can
only lose (`weight_le_of_isUnder`, `weight_le_of_not_isUnder`). Of the
children that the walk chooses from, one at most is on the way to the
head, and that is the one it chose. What was ahead of all others stays
ahead of them, ties included, since roots do not change; so the walk
takes the same steps (`Tree.Sound.walk_of_goneOver`).

In an orderly run the tree's own head is the head of this walk, and its
weights are those that the walk counts, before the votes and after them.
Votes for the head name a block that is there, so the run stays orderly
and nothing overflows.
-/
import ChainHead.Proofs.Store.Head
import ChainHead.Proofs.Store.View

namespace ChainHead

open VoteTable (Balances)

variable {vote? vote?' : Nat → Option Root} {snapshot : Snapshot} {balances : Balances}
variable {blocks : List Ghost} {a root top : Root}

namespace Ghost

-- =============================================================== votes

/-- Whether votes differ only in that some have gone over to a root. -/
def GoneOver (vote? vote?' : Nat → Option Root) (top : Root) : Prop :=
  ∀ v, vote?' v = vote? v ∨ vote?' v = some top

/-- A block above the root gains. -/
theorem weight_le_of_isUnder (h : GoneOver vote? vote?' top)
    (hunder : isUnder blocks a top = true) :
    weight blocks vote? balances a ≤ weight blocks vote?' balances a := by
  unfold weight
  refine Finset.sum_le_sum fun v _ => ?_
  cases h v with
  | inl hsame => rw [hsame]
  | inr hnew =>
      rw [hnew]
      simp only [hunder, if_true]
      split
      · split
        · exact Nat.le_refl _
        · exact Nat.zero_le _
      · exact Nat.zero_le _

/-- A block that is not above it loses. -/
theorem weight_le_of_not_isUnder (h : GoneOver vote? vote?' top)
    (hunder : isUnder blocks a top = false) :
    weight blocks vote?' balances a ≤ weight blocks vote? balances a := by
  unfold weight
  refine Finset.sum_le_sum fun v _ => ?_
  cases h v with
  | inl hsame => rw [hsame]
  | inr hnew =>
      rw [hnew]
      simp only [hunder, Bool.false_eq_true, if_false]
      exact Nat.zero_le _

-- ============================================================ one step

theorem best?_eq_none_iff {b : Ghost} :
    best? blocks vote? snapshot b = none
      ↔ ∀ c ∈ blocks, c.parent = some b.root → leads blocks snapshot c.root = false := by
  unfold best?
  rw [List.argmax_eq_none, List.filter_eq_nil_iff]
  simp

theorem mem_of_best? {b c : Ghost} (h : best? blocks vote? snapshot b = some c) :
    c ∈ blocks ∧ c.parent = some b.root := by
  have hmem := List.argmax_mem h
  rw [List.mem_filter, Bool.and_eq_true, beq_iff_eq] at hmem
  exact ⟨hmem.1, hmem.2.1⟩

end Ghost

namespace Tree

open Ghost (GoneOver isUnder walk best?)

variable {t t' : Tree}

-- ============================================================ children

/-- A child that the reference knows of is a child in the tree. -/
theorem parentAt_of_ghost {b : Ghost} (hb : b ∈ t.outline)
    (hparent : b.parent = some root) :
    ∃ (i p : Nat) (n m : Node), t.nodes[i]? = some n ∧ t.ghost n = b ∧ t.nodes[p]? = some m
      ∧ m.root = root ∧ parentAt t.nodes i = some p := by
  obtain ⟨i, n, hn, hghost⟩ := mem_outline_iff.mp hb
  have hlink : (n.parent.bind fun p => t.nodes[p]?.map (·.root)) = some root := by
    rw [← hparent, ← hghost]
    rfl
  obtain ⟨p, hp, hroot⟩ := Option.bind_eq_some_iff.mp hlink
  obtain ⟨m, hm, hroot⟩ := Option.map_eq_some_iff.mp hroot
  exact ⟨i, p, n, m, hn, hghost, hm, hroot, (parentAt_of_get hn).trans hp⟩

namespace Sound

theorem isUnder_self (h : Sound t) {b : Ghost} (hb : b ∈ t.outline) :
    isUnder t.outline b.root b.root = true := by
  obtain ⟨i, n, hn, hghost⟩ := mem_outline_iff.mp hb
  rw [← hghost]
  exact (h.isUnder_root_iff hn).mpr ⟨i, h.position_root hn, Below.refl⟩

/-- What is under a child is under its parent. -/
theorem isUnder_of_parent (h : Sound t) {b : Ghost} (hb : b ∈ t.outline)
    (hparent : b.parent = some root) (hunder : isUnder t.outline b.root top = true) :
    isUnder t.outline root top = true := by
  obtain ⟨i, p, n, m, hn, hghost, hm, hroot, hpar⟩ := parentAt_of_ghost hb hparent
  rw [← hghost] at hunder
  obtain ⟨j, hj, hbelow⟩ := (h.isUnder_root_iff hn).mp hunder
  rw [← hroot]
  exact (h.isUnder_root_iff hm).mpr ⟨j, hj, (Below.of_parent hpar).trans hbelow⟩

/-- No block is under two children of one parent. -/
theorem child_unique (h : Sound t) {b c : Ghost} (hb : b ∈ t.outline) (hc : c ∈ t.outline)
    (hbp : b.parent = some root) (hcp : c.parent = some root)
    (hbt : isUnder t.outline b.root top = true) (hct : isUnder t.outline c.root top = true) :
    b = c := by
  obtain ⟨i, p, n, m, hn, hghost, hm, hroot, hpar⟩ := parentAt_of_ghost hb hbp
  obtain ⟨i', p', n', m', hn', hghost', hm', hroot', hpar'⟩ := parentAt_of_ghost hc hcp
  rw [← hghost] at hbt
  rw [← hghost'] at hct
  obtain ⟨j, hj, hbelow⟩ := (h.isUnder_root_iff hn).mp hbt
  obtain ⟨j', hj', hbelow'⟩ := (h.isUnder_root_iff hn').mp hct
  have hpp : p = p' := h.root_injective hm hm' (hroot.trans hroot'.symm)
  rw [hj, Option.some.injEq] at hj'
  rw [← hpp] at hpar'
  rw [← hj'] at hbelow'
  have hii : i = i' := Tree.child_unique h.rooted hpar hpar' hbelow hbelow'
  rw [← hii, hn, Option.some.injEq] at hn'
  rw [← hghost, ← hghost', hn']

theorem eq_of_root (h : Sound t) {b c : Ghost} (hb : b ∈ t.outline) (hc : c ∈ t.outline)
    (hroot : b.root = c.root) : b = c := by
  obtain ⟨i, n, hn, hghost⟩ := mem_outline_iff.mp hb
  obtain ⟨j, m, hm, hghost'⟩ := mem_outline_iff.mp hc
  rw [← hghost, ← hghost'] at hroot
  have hij : i = j := h.root_injective hn hm hroot
  rw [← hij, hn, Option.some.injEq] at hm
  rw [← hghost, ← hghost', hm]

-- ============================================================ the walk

/-- The walk ends under its start. -/
theorem isUnder_walk (h : Sound t) (steps : Nat) {b : Ghost} (hb : b ∈ t.outline) :
    isUnder t.outline b.root (walk t.outline vote? snapshot steps b).root = true := by
  induction steps generalizing b with
  | zero => exact h.isUnder_self hb
  | succ steps ih =>
      rw [walk]
      cases hbest : best? t.outline vote? snapshot b with
      | none => exact h.isUnder_self hb
      | some c =>
          obtain ⟨hc, hparent⟩ := Ghost.mem_of_best? hbest
          exact h.isUnder_of_parent hc hparent (ih hc)

/-- The step towards a root is taken again when votes go over to it. -/
theorem best?_of_goneOver (h : Sound t) (hgone : GoneOver vote? vote?' top) {b c : Ghost}
    (hbest : best? t.outline vote? snapshot b = some c)
    (hunder : isUnder t.outline c.root top = true) :
    best? t.outline vote?' snapshot b = some c := by
  unfold best? at hbest ⊢
  have hmem := List.argmax_mem hbest
  refine argmax_eq_some hmem fun d hd hle => ?_
  have hold := List.le_of_mem_argmax hd hbest
  rw [List.mem_filter, Bool.and_eq_true, beq_iff_eq] at hmem hd
  by_cases hother : isUnder t.outline d.root top = true
  · exact h.child_unique hd.1 hmem.1 hd.2.1 hmem.2.1 hother hunder
  · -- one has gained and the other has lost, so they were level before
    have hgain : Ghost.weight t.outline vote? snapshot.balances c.root
        ≤ Ghost.weight t.outline vote?' snapshot.balances c.root :=
      Ghost.weight_le_of_isUnder hgone hunder
    have hloss : Ghost.weight t.outline vote?' snapshot.balances d.root
        ≤ Ghost.weight t.outline vote? snapshot.balances d.root :=
      Ghost.weight_le_of_not_isUnder hgone (Bool.eq_false_iff.mpr hother)
    rw [Prod.Lex.toLex_le_toLex] at hle hold
    exact h.eq_of_root hd.1 hmem.1 (BitVec.eq_of_toNat_eq (by omega))

/-- The walk takes the same steps when votes go over to its end. -/
theorem walk_of_goneOver (h : Sound t) (steps : Nat) {b : Ghost} (hb : b ∈ t.outline)
    (hgone : GoneOver vote? vote?' (walk t.outline vote? snapshot steps b).root) :
    walk t.outline vote?' snapshot steps b = walk t.outline vote? snapshot steps b := by
  induction steps generalizing b with
  | zero => rfl
  | succ steps ih =>
      rw [walk] at hgone ⊢
      rw [walk]
      cases hbest : best? t.outline vote? snapshot b with
      | none =>
          have hnone : best? t.outline vote?' snapshot b = none :=
            Ghost.best?_eq_none_iff.mpr (Ghost.best?_eq_none_iff.mp hbest)
          rw [hnone]
      | some c =>
          rw [hbest] at hgone
          have hc := (Ghost.mem_of_best? hbest).1
          have hagain := h.best?_of_goneOver hgone hbest (h.isUnder_walk steps hc)
          rw [hagain]
          exact ih hc hgone

/-- The head by definition stays the head when votes go over to it. -/
theorem ghost_head_of_goneOver (h : Sound t) (hgone : GoneOver vote? vote?' top)
    (hhead : Ghost.head t.outline vote? snapshot = .ok top) :
    Ghost.head t.outline vote?' snapshot = .ok top := by
  unfold Ghost.head at hhead ⊢
  cases hfind : Ghost.find? t.outline snapshot.justified.root with
  | none =>
      rw [hfind] at hhead
      cases hhead
  | some b =>
      have hb : b ∈ t.outline := List.mem_of_find?_eq_some hfind
      rw [hfind] at hhead
      dsimp only at hhead ⊢
      split at hhead
      case isFalse => cases hhead
      case isTrue hviable =>
        injection hhead with hhead
        rw [h.walk_of_goneOver _ hb (hhead ▸ hgone), if_pos hviable, hhead]

end Sound

/-- Every block above another has the weight that the reference counts. -/
theorem Weighed.weight?_of_isUnder (h : Weighed t vote? snapshot)
    (hunder : isUnder t.outline a top = true) :
    ∃ w, t.weight? a = some w
      ∧ w.toNat = Ghost.weight t.outline vote? snapshot.balances a := by
  obtain ⟨i, j, hi, -, -⟩ := h.sound.isUnder_iff.mp hunder
  obtain ⟨n, hn, hroot⟩ := h.sound.get_position hi
  rw [← hroot]
  exact ⟨n.weight, h.sound.weight?_root hn, h.weight i n hn⟩

/-- Of two trees with the same blocks, the one in which votes have gone
over to the head of the other has that head too, and no less weight on
the way to it. -/
theorem Weighed.head_of_goneOver (h : Weighed t vote? snapshot) (h' : Weighed t' vote?' snapshot)
    (houtline : t'.outline = t.outline) (hgone : GoneOver vote? vote?' top)
    (hfind : t.findHead snapshot.justified.root = .ok top) :
    t'.findHead snapshot.justified.root = .ok top
      ∧ ∀ root, isUnder t.outline root top = true →
        ∃ w w', t.weight? root = some w ∧ t'.weight? root = some w' ∧ w ≤ w' := by
  constructor
  · rw [h.findHead_eq] at hfind
    rw [h'.findHead_eq, houtline]
    exact h.sound.ghost_head_of_goneOver hgone hfind
  · intro root hunder
    obtain ⟨w, hw, hcount⟩ := h.weight?_of_isUnder hunder
    obtain ⟨w', hw', hcount'⟩ := h'.weight?_of_isUnder (houtline ▸ hunder)
    refine ⟨w, w', hw, hw', ?_⟩
    rw [UInt64.le_iff_toNat_le, hcount, hcount', houtline]
    exact Ghost.weight_le_of_isUnder hgone hunder

end Tree

namespace Store

open Ghost (GoneOver isUnder)

variable {s : Store} {calls : List Call} {votes : List IndexedAttestation}

-- ==================================================== nothing but votes

theorem after_append (start : Store) (later earlier : List Call) :
    start.after (later ++ earlier) = (start.after earlier).after later := by
  induction later with
  | nil => rfl
  | cons c later ih => exact congrArg (call · c) ih

/-- Attestations change nothing but the votes. -/
theorem after_attestations (s : Store) (votes : List IndexedAttestation) :
    ∃ table, s.after (votes.map .attestation) = { s with votes := table } := by
  induction votes with
  | nil => exact ⟨s.votes, rfl⟩
  | cons a votes ih =>
      obtain ⟨table, heq⟩ := ih
      refine ⟨(table.recordAll a.data.beaconBlockRoot a.data.target.epoch a.indices).1, ?_⟩
      rw [List.map_cons, after, heq]
      rfl

/-- An attestation leaves the latest message of a validator, or is it. -/
theorem latestMessage?_attestation (a : IndexedAttestation) (calls : List Call) (v : Nat) :
    latestMessage? (.attestation a :: calls) v = latestMessage? calls v
      ∨ latestMessage? (.attestation a :: calls) v
        = some (a.data.beaconBlockRoot, a.data.target.epoch) := by
  unfold latestMessage?
  rw [votesBy]
  split
  case isFalse => exact Or.inl rfl
  case isTrue =>
    rw [List.argmax_concat]
    cases (votesBy v calls).argmax fun m => m.2.toNat with
    | none => exact Or.inr rfl
    | some m =>
        dsimp only
        split
        case isTrue => exact Or.inr rfl
        case isFalse => exact Or.inl rfl

/-- Attestations for one root move votes to that root only. -/
theorem goneOver_attestations (calls : List Call)
    (hvotes : ∀ a ∈ votes, a.data.beaconBlockRoot = top) :
    GoneOver (fun v => (latestMessage? calls v).map (·.1))
      (fun v => (latestMessage? (votes.map .attestation ++ calls) v).map (·.1)) top := by
  intro v
  induction votes with
  | nil => exact Or.inl rfl
  | cons a votes ih =>
      obtain ⟨ha, hrest⟩ := List.forall_mem_cons.mp hvotes
      dsimp only
      rw [List.map_cons, List.cons_append]
      rcases latestMessage?_attestation a (votes.map .attestation ++ calls) v with hold | hnew
      · rw [hold]
        exact ih hrest
      · rw [hnew, ← ha]
        exact Or.inr rfl

section

variable {justified finalized : Checkpoint} {pruneThreshold : Nat}

/-- Attestations for a block that is there keep a run orderly. -/
theorem Orderly.attestations (h : Orderly s calls)
    (htop : (s.after calls).tree.contains top = true)
    (hvotes : ∀ a ∈ votes, a.data.beaconBlockRoot = top) :
    Orderly s (votes.map .attestation ++ calls) := by
  induction votes with
  | nil => exact h
  | cons a votes ih =>
      obtain ⟨ha, hrest⟩ := List.forall_mem_cons.mp hvotes
      obtain ⟨table, heq⟩ := after_attestations (s.after calls) votes
      have hsame := after_append s (votes.map .attestation) calls
      rw [heq] at hsame
      refine ⟨ih hrest, trivial, fun _ _ _ => ?_⟩
      show (s.after (votes.map .attestation ++ calls)).tree.contains _ = true
      rw [hsame, ha]
      exact htop

/-- A head update in an orderly run leaves weights that are those of the
reference, and answers from them. -/
theorem Orderly.updateHead_weighed
    (h : Orderly (empty justified finalized pruneThreshold) calls) (features : Features)
    (sharing : Sharing) :
    let s := (empty justified finalized pruneThreshold).after calls
    ∃ t, Tree.Weighed t (fun v => (latestMessage? calls v).map (·.1)) s.snapshot
      ∧ t.outline = s.tree.outline
      ∧ (s.updateHeadShared features sharing).value
        = ⟨s.upToDate t, (t.findHead s.snapshot.justified.root).mapError .tree⟩ := by
  intro s
  obtain ⟨t, hweighed, houtline, heq⟩ := h.weighed s.metrics.countHeadUpdate sharing
  refine ⟨t, hweighed, houtline, ?_⟩
  rw [updateHead_value, heq]
  rfl

/-- After an orderly run and a head update that found a head, any votes
for that head leave it the head at the next update, and no block above
it has less weight. -/
theorem updateHead_of_votes_for_head
    (h : Orderly (empty justified finalized pruneThreshold) calls)
    (hvotes : ∀ a ∈ votes, a.data.beaconBlockRoot = top) (features again : Features)
    (sharing resharing : Sharing) :
    let s := (empty justified finalized pruneThreshold).after calls
    let first := (s.updateHeadShared features sharing).value
    let second :=
      ((first.state.after (votes.map .attestation)).updateHeadShared again resharing).value
    first.result = .ok top →
      second.result = .ok top
        ∧ ∀ root, isUnder first.state.tree.outline root top = true →
          ∃ w w', first.state.tree.weight? root = some w
            ∧ second.state.tree.weight? root = some w' ∧ w ≤ w' := by
  intro s first second hfirst
  obtain ⟨t, hweighed, -, heq⟩ := h.updateHead_weighed features sharing
  have hstate : first.state = s.upToDate t := congrArg Step.state heq
  have hfind : t.findHead s.snapshot.justified.root = .ok top :=
    ok_of_mapError ((congrArg Step.result heq).symm.trans hfirst)
  -- the run goes on in order: the head is a block of the tree
  have hrun : Orderly (empty justified finalized pruneThreshold)
      (.head features sharing :: calls) :=
    ⟨h, trivial, trivial⟩
  have hafter : (empty justified finalized pruneThreshold).after (.head features sharing :: calls)
      = s.upToDate t := hstate
  have htop : t.contains top = true := by
    obtain ⟨i, n, -, hn, -, hroot⟩ := hweighed.sound.findHead_eq_ok_iff.mp hfind
    exact Tree.contains_iff.mpr ⟨_, hroot ▸ hweighed.sound.position_root hn⟩
  have hrun' := hrun.attestations (hafter ▸ htop) hvotes
  obtain ⟨table, htable⟩ := after_attestations (s.upToDate t) votes
  have hafter' : (empty justified finalized pruneThreshold).after
      (votes.map .attestation ++ .head features sharing :: calls)
        = { s.upToDate t with votes := table } := by
    rw [after_append, hafter, htable]
  obtain ⟨t', hweighed', houtline, heq'⟩ := hrun'.updateHead_weighed again resharing
  rw [hafter'] at hweighed' houtline heq'
  have hsecond : second = ⟨({ s.upToDate t with votes := table } : Store).upToDate t',
      (t'.findHead s.snapshot.justified.root).mapError .tree⟩ := by
    show ((first.state.after _).updateHeadShared again resharing).value = _
    rw [hstate, htable]
    exact heq'
  obtain ⟨hfind', hweights⟩ := hweighed.head_of_goneOver hweighed' houtline
    (goneOver_attestations (.head features sharing :: calls) hvotes) hfind
  rw [hsecond, hfind', hstate]
  exact ⟨rfl, hweights⟩

end

/-- The heavier of the siblings in the contest. -/
def favourite : Root :=
  let genesis : BeaconBlock := {}
  ({ slot := 2, parentRoot := genesis.hashTreeRoot } : BeaconBlock).hashTreeRoot

/-- Votes for it, by the voter of the other one and by a validator
without a balance. -/
def converts : List IndexedAttestation :=
  [{ indices := [7, 0], data := { beaconBlockRoot := favourite, target := { epoch := 1 } } }]

/-- The favourite stays the head, and gains what the other one loses. -/
theorem updateHead_of_votes_for_head_contest :
    let s := (empty {} {} 256).after contest.tail
    let first := (s.updateHeadShared {} (.halving 1)).value
    let second :=
      ((first.state.after (converts.map .attestation)).updateHeadShared {} (.halving 2)).value
    (first.result = .ok favourite
        ∧ first.state.tree.nodes.toList.map (·.weight) = [30, 10, 20]
        ∧ second.state.tree.nodes.toList.map (·.weight) = [30, 0, 30])
      ∧ second.result = .ok favourite
      ∧ ∀ root, isUnder first.state.tree.outline root favourite = true →
        ∃ w w', first.state.tree.weight? root = some w
          ∧ second.state.tree.weight? root = some w' ∧ w ≤ w' := by
  have horderly : Orderly (empty {} {} 256) contest.tail := orderly_contest.1
  have hvotes : ∀ a ∈ converts, a.data.beaconBlockRoot = favourite := by simp [converts]
  have hkept := updateHead_of_votes_for_head horderly hvotes {} {} (.halving 1) (.halving 2)
  refine (and_iff_left_of_imp fun hseen => hkept hseen.1).mpr ?_
  decide +kernel

end Store

end ChainHead
