/-
The head of an orderly run is the head by definition.

Three things meet here. The weights in the tree are the tallies of the
latest messages (`Orderly`), the best links are what weights, roots and
epochs call for (`Links`), and following best links from a block ends
where its best descendant is. The walk of the reference takes the same
steps: its choice among the children of a block is the best child
(`best?_eq`), so after enough steps it has reached the end of the chain
(`walk_eq`). That the reference asks for roots and the tree for
positions was settled in `Outline`.
-/
import ChainHead.Proofs.Store.Orderly

namespace ChainHead

open Relation
open VoteTable (Balances)

namespace Tree

variable {t : Tree} {n m : Node} {i j e : Nat} {root : Root}

-- ============================================== statement vocabulary

/-- Whether the reference counts for each block what its weight is, with
epochs that are those of the tree. -/
structure Weighed (t : Tree) (vote? : Nat → Option Root) (snapshot : Snapshot) : Prop where
  sound : Sound t
  refreshing : Refreshing t 0
  justifiedEpoch : t.justifiedEpoch = snapshot.justified.epoch
  finalizedEpoch : t.finalizedEpoch = snapshot.finalized.epoch
  weight : ∀ (i : Nat) n, t.nodes[i]? = some n →
    n.weight.toNat = Ghost.weight t.outline vote? snapshot.balances n.root

variable {vote? : Nat → Option Root} {snapshot : Snapshot}

/-- An element that no other reaches is the greatest. -/
theorem argmax_eq_some {α β : Type} [LinearOrder β] {f : α → β} {xs : List α} {x : α}
    (hx : x ∈ xs) (hunique : ∀ y ∈ xs, f x ≤ f y → y = x) : xs.argmax f = some x := by
  cases hmax : xs.argmax f with
  | none =>
      rw [List.argmax_eq_none] at hmax
      rw [hmax] at hx
      cases hx
  | some y => rw [hunique y (List.argmax_mem hmax) (List.le_of_mem_argmax hx hmax)]

theorem mem_outline_iff {b : Ghost} :
    b ∈ t.outline ↔ ∃ (i : Nat) (n : Node), t.nodes[i]? = some n ∧ t.ghost n = b := by
  unfold outline
  simp only [List.mem_map, Array.mem_toList_iff, Array.mem_iff_getElem?]
  constructor
  · rintro ⟨n, ⟨i, hi⟩, rfl⟩
    exact ⟨i, n, hi, rfl⟩
  · rintro ⟨i, n, hi, rfl⟩
    exact ⟨n, ⟨i, hi⟩, rfl⟩

namespace Weighed

/-- The reference and the tree agree on which blocks are viable. -/
theorem isViable_ghost (h : Weighed t vote? snapshot) (n : Node) :
    Ghost.isViable snapshot (t.ghost n) = t.isViable n := by
  unfold Ghost.isViable isViable
  rw [h.justifiedEpoch, h.finalizedEpoch]
  rfl

/-- They agree on which blocks lead to a viable one. -/
theorem leads_iff (h : Weighed t vote? snapshot) (hn : t.nodes[i]? = some n) :
    Ghost.leads t.outline snapshot n.root = true ↔ t.Leads i := by
  unfold Ghost.leads
  rw [List.any_eq_true]
  constructor
  · rintro ⟨b, hb, hprop⟩
    obtain ⟨j, m, hm, rfl⟩ := mem_outline_iff.mp hb
    rw [Bool.and_eq_true, h.isViable_ghost] at hprop
    obtain ⟨k, hk, hbelow⟩ := (h.sound.isUnder_root_iff hn).mp hprop.1
    have hkj : k = j := by
      have hpos := h.sound.position_root hm
      change t.position? m.root = some k at hk
      rw [hpos] at hk
      injection hk with hk
      exact hk.symm
    exact ⟨j, hkj ▸ hbelow, m, hm, hprop.2⟩
  · rintro ⟨j, hbelow, m, hm, hviable⟩
    refine ⟨t.ghost m, mem_outline_iff.mpr ⟨j, m, hm, rfl⟩, ?_⟩
    rw [Bool.and_eq_true, h.isViable_ghost]
    exact ⟨(h.sound.isUnder_root_iff hn).mpr ⟨j, h.sound.position_root hm, hbelow⟩, hviable⟩

/-- What the reference compares children by is their rank. -/
theorem key_eq_rank (h : Weighed t vote? snapshot) (hn : t.nodes[i]? = some n) :
    toLex (Ghost.weight t.outline vote? snapshot.balances n.root, n.root.toNat)
      = rankAt t.nodes i := by
  rw [← h.weight i n hn, rankAt, hn]
  rfl

/-- The children that the reference chooses from are the candidates. -/
theorem mem_children_iff (h : Weighed t vote? snapshot) (hn : t.nodes[i]? = some n)
    {b : Ghost} :
    b ∈ t.outline.filter (fun c => c.parent == some (t.ghost n).root
        && Ghost.leads t.outline snapshot c.root)
      ↔ ∃ (c : Nat) (m : Node), t.nodes[c]? = some m ∧ t.ghost m = b ∧ t.Candidate i c := by
  rw [List.mem_filter, mem_outline_iff]
  constructor
  · rintro ⟨⟨c, m, hm, rfl⟩, hprop⟩
    rw [Bool.and_eq_true, beq_iff_eq] at hprop
    refine ⟨c, m, hm, rfl, ?_, (h.leads_iff hm).mp hprop.2⟩
    have hparent : (m.parent.bind fun p => t.nodes[p]?.map (·.root)) = some n.root := hprop.1
    rw [Option.bind_eq_some_iff] at hparent
    obtain ⟨p, hp, hroot⟩ := hparent
    rw [Option.map_eq_some_iff] at hroot
    obtain ⟨o, ho, hroot⟩ := hroot
    rw [parentAt_of_get hm, hp, h.sound.root_injective ho hn hroot]
  · rintro ⟨c, m, hm, rfl, hparent, hleads⟩
    refine ⟨⟨c, m, hm, rfl⟩, ?_⟩
    rw [Bool.and_eq_true, beq_iff_eq]
    refine ⟨?_, (h.leads_iff hm).mpr hleads⟩
    rw [parentAt_of_get hm] at hparent
    obtain ⟨o, ho, hghost⟩ := h.sound.parent_ghost hm hparent
    rw [hn] at ho
    injection ho with ho
    rw [hghost, ← ho]
    rfl

/-- The reference steps to the best child. -/
theorem best?_eq (h : Weighed t vote? snapshot) (hn : t.nodes[i]? = some n) :
    Ghost.best? t.outline vote? snapshot (t.ghost n)
      = (bestChildAt t.nodes i).bind fun c => t.nodes[c]?.map t.ghost := by
  unfold Ghost.best?
  cases hbest : bestChildAt t.nodes i with
  | none =>
      rw [Option.bind_none, List.argmax_eq_none, List.eq_nil_iff_forall_not_mem]
      intro b hb
      obtain ⟨c, m, -, -, hcand⟩ := (h.mem_children_iff hn).mp hb
      exact h.refreshing.bestChildAt_eq_none_iff.mp hbest c hcand
  | some c =>
      have hcand := h.refreshing.candidate hbest
      have hc := lt_size_of_parentAt hcand.1
      have hm := Array.getElem?_eq_getElem hc
      have hmem := (h.mem_children_iff hn).mpr ⟨c, _, hm, rfl, hcand⟩
      rw [Option.bind_some, hm, Option.map_some]
      refine argmax_eq_some hmem fun b hb hle => ?_
      -- a child that the reference does not rank lower is the best child
      obtain ⟨c', m', hm', rfl, hcand'⟩ := (h.mem_children_iff hn).mp hb
      change toLex (Ghost.weight t.outline vote? snapshot.balances t.nodes[c].root,
          t.nodes[c].root.toNat)
        ≤ toLex (Ghost.weight t.outline vote? snapshot.balances m'.root, m'.root.toNat)
        at hle
      rw [h.key_eq_rank hm, h.key_eq_rank hm'] at hle
      obtain ⟨b', hb', hge⟩ := h.refreshing.le_best hcand'
      rw [hbest] at hb'
      injection hb' with hb'
      have hrank := le_antisymm hle (hb' ▸ hge)
      have hcc := h.sound.rank_injective c c' hc (lt_size_of_parentAt hcand'.1) hrank
      subst hcc
      rw [hm] at hm'
      injection hm' with hm'
      rw [hm']

/-- The walk of the reference ends where the chain of best children
ends, if it is given enough steps. -/
theorem walk_eq (h : Weighed t vote? snapshot) (hn : t.nodes[i]? = some n)
    (hm : t.nodes[e]? = some m) (hlast : LastBest t.nodes i e) :
    ∀ steps, t.nodes.size ≤ i + steps →
      Ghost.walk t.outline vote? snapshot steps (t.ghost n) = t.ghost m := by
  intro steps
  induction steps generalizing i n with
  | zero =>
      intro hsteps
      have hi := (Array.getElem?_eq_some_iff.mp hn).1
      omega
  | succ steps ih =>
      intro hsteps
      simp only [Ghost.walk, h.best?_eq hn]
      rcases ReflTransGen.cases_head hlast.1 with rfl | ⟨c, hbest, hchain⟩
      · rw [hlast.2]
        rw [hn] at hm
        injection hm with hm
        rw [← hm]
        rfl
      · have hpar := h.refreshing.child i c hbest
        have hic := h.sound.rooted c i hpar
        have hc := Array.getElem?_eq_getElem (lt_size_of_parentAt hpar)
        rw [hbest, Option.bind_some, hc, Option.map_some]
        exact ih hc ⟨hchain, hlast.2⟩ (by omega)

/-- The head of the tree is the head of the reference. -/
theorem findHead_eq (h : Weighed t vote? snapshot) :
    t.findHead snapshot.justified.root = Ghost.head t.outline vote? snapshot := by
  unfold Ghost.head
  rcases h.sound.findHead_cases snapshot.justified.root with
    ⟨hpos, heq⟩ | ⟨start, m, hpos, hm, heq⟩
  · rw [heq, h.sound.find?_outline_eq_none hpos]
  · obtain ⟨n, hn, hroot⟩ := h.sound.get_position hpos
    have hlt := (Array.getElem?_eq_some_iff.mp hn).1
    rw [heq, ← hroot, h.sound.find?_outline hn]
    dsimp only
    rw [h.walk_eq hn hm (h.refreshing.lastBest start) _ (by rw [length_outline]; omega),
      h.isViable_ghost]
    unfold verdict
    rw [h.justifiedEpoch, h.finalizedEpoch]
    split
    case isTrue => rfl
    case isFalse => rfl

end Weighed

end Tree

namespace Store

open ChainHead.Tree (Sound Scored)

variable {s : Store} {calls : List Call} {t' : Tree}

/-- The reference counts by latest messages what is counted by trackers:
a validator that never voted is under no block. -/
theorem Faithful.ghost_weight_eq (h : Faithful s calls) (hsound : Sound s.tree)
    (hzero : s.tree.position? 0 = none) (balances : Balances) (top : Root) :
    Ghost.weight s.tree.outline (fun v => (latestMessage? calls v).map (·.1)) balances top
      = s.tree.tally s.wanted balances top := by
  rw [Tree.tally_eq_sum]
  unfold Ghost.weight
  refine Finset.sum_congr rfl fun v _ => ?_
  have ht := h.latest v
  dsimp only
  unfold Store.wanted
  cases hlatest : latestMessage? calls v with
  | none =>
      rw [hlatest] at ht
      change s.votes.tracker v = {} at ht
      have hnot : Ghost.isUnder s.tree.outline top 0 ≠ true := by
        intro hunder
        obtain ⟨j, hj⟩ := hsound.position_of_isUnder hunder
        rw [hzero] at hj
        cases hj
      rw [ht, if_neg hnot, Option.map_none]
  | some m =>
      rw [hlatest] at ht
      rw [ht.1, Option.map_some]

section

variable {justified finalized : Checkpoint} {pruneThreshold : Nat}

/-- In an orderly run weights are always brought up to date, and what
comes out is what the reference counts. -/
theorem Orderly.weighed (h : Orderly (empty justified finalized pruneThreshold) calls)
    (metrics : StoreMetrics) (sharing : Sharing) :
    let s := (empty justified finalized pruneThreshold).after calls
    ∃ t', Tree.Weighed t' (fun v => (latestMessage? calls v).map (·.1)) s.snapshot
      ∧ t'.outline = s.tree.outline
      ∧ ({ s with metrics } : Store).applyVotes sharing = ⟨{ s with
          metrics, tree := t', votes := s.votes.commit, applied := s.snapshot.balances },
          .ok ()⟩ := by
  intro s
  have hbalanced := h.balanced.withMetrics metrics
  rcases hbalanced.applyVotes_cases sharing with ⟨i, n, -, -, hlt⟩ | ⟨t', hscored, heq⟩
  · rw [h.owed_eq_zero] at hlt
    exact absurd hlt (Nat.not_lt_zero _)
  · refine ⟨t', ?_, hscored.outline, heq⟩
    have hnew := hbalanced.scored hscored
    refine ⟨hnew.sound, hscored.refreshing, hscored.justifiedEpoch, hscored.finalizedEpoch,
      fun i n hn => ?_⟩
    have hbalance := hnew.balance i n hn
    rw [h.owed_eq_zero, counted_commit] at hbalance
    change n.weight.toNat = t'.tally s.wanted s.snapshot.balances n.root at hbalance
    rw [hbalance, hscored.tally, hscored.outline]
    exact (h.faithful.ghost_weight_eq h.balanced.sound h.balanced.unnamed _ _).symm

/-- After an orderly run, a head update answers what the reference
computes from the blocks, the latest messages and the snapshot. -/
theorem updateHead_eq_ghost (h : Orderly (empty justified finalized pruneThreshold) calls)
    (features : Features) (sharing : Sharing) :
    let s := (empty justified finalized pruneThreshold).after calls
    (s.updateHeadShared features sharing).value.result
      = (Ghost.head s.tree.outline (fun v => (latestMessage? calls v).map (·.1))
          s.snapshot).mapError .tree := by
  intro s
  obtain ⟨t', hweighed, houtline, heq⟩ := h.weighed s.metrics.countHeadUpdate sharing
  rw [updateHead_value, heq, ← houtline, ← hweighed.findHead_eq]
  rfl

end

/-- After the contest the reference sees the vote that moved, and so does
the store. -/
theorem updateHead_eq_ghost_contest :
    let s := (empty {} {} 256).after contest
    let genesis : BeaconBlock := {}
    (s.updateHeadShared {} (.halving 1)).value.result
        = .ok ({ slot := 1, parentRoot := genesis.hashTreeRoot } : BeaconBlock).hashTreeRoot
      ∧ (s.updateHeadShared {} (.halving 1)).value.result
        = (Ghost.head s.tree.outline (fun v => (latestMessage? contest v).map (·.1))
            s.snapshot).mapError .tree :=
  ⟨by decide +kernel, updateHead_eq_ghost orderly_contest {} (.halving 1)⟩

end Store

end ChainHead
