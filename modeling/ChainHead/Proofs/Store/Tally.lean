/-
Sums over subtrees, by roots: the tally of votes, and what is owed.

A vote counts for a block if the root it names lies in the subtree of
the block (`tally`). A block that arrives under a root that votes were
already counted for is owed their balances (`support`): they belong to
its subtree and were never added to it. `owed` sums what is owed in a
subtree, whatever the debts are.

Both sums range over roots, so they see of an operation only what
`Outline` says of it. In particular a new block adds the same to both
if its own debt is its support (`tally_extend`, `owed_extend`).
-/
import ChainHead.Proofs.Store.Outline
import ChainHead.Proofs.Vote.Deltas

namespace ChainHead

open Finset (range)
open VoteTable (Balances)

-- ============================================== statement vocabulary

/-- The balances of the validators that voted for a root itself. -/
def VoteTable.support (vote : Nat → Root) (balances : Balances) (root : Root) : Nat :=
  ∑ v ∈ range balances.size, if vote v = root then (balances.getD v 0).toNat else 0

namespace Tree

/-- The balances of the validators that voted for the subtree of a root. -/
def tally (t : Tree) (vote : Nat → Root) (balances : Balances) (top : Root) : Nat :=
  Ghost.weight t.outline (fun v => some (vote v)) balances top

/-- The roots of all blocks. -/
def roots (t : Tree) : List Root :=
  t.nodes.toList.map (·.root)

/-- The debts of all blocks in the subtree of a root. -/
def owed (t : Tree) (debt : Root → Nat) (top : Root) : Nat :=
  (t.roots.map fun root => if Ghost.isUnder t.outline top root then debt root else 0).sum

variable {t t' : Tree} {n : Node} {a root : Root} {i count : Nat}
variable {vote : Nat → Root} {balances : Balances} {debt : Root → Nat}

theorem tally_eq_sum (t : Tree) (vote : Nat → Root) (balances : Balances) (top : Root) :
    t.tally vote balances top
      = ∑ v ∈ range balances.size,
          if Ghost.isUnder t.outline top (vote v) then (balances.getD v 0).toNat else 0 :=
  rfl

/-- No tally exceeds all balances. -/
theorem tally_le_total (t : Tree) (vote : Nat → Root) (balances : Balances) (top : Root) :
    t.tally vote balances top ≤ VoteTable.total balances := by
  rw [tally_eq_sum]
  refine Finset.sum_le_sum fun v _ => ?_
  split
  case isTrue => exact Nat.le_refl _
  case isFalse => exact Nat.zero_le _

/-- Only descent matters to a tally. -/
theorem tally_congr (h : ∀ r, Ghost.isUnder t'.outline a r = Ghost.isUnder t.outline a r) :
    t'.tally vote balances a = t.tally vote balances a := by
  simp only [tally_eq_sum, h]

theorem Sound.isUnder_eq_false (h : Sound t) (ha : t.position? a = none) (r : Root) :
    Ghost.isUnder t.outline a r = false := by
  rw [Bool.eq_false_iff]
  intro hunder
  obtain ⟨i, j, hi, -, -⟩ := h.isUnder_iff.mp hunder
  rw [ha] at hi
  cases hi

/-- Nothing counts for a block that is not there. -/
theorem Sound.tally_eq_zero (h : Sound t) (ha : t.position? a = none) :
    t.tally vote balances a = 0 := by
  rw [tally_eq_sum]
  refine Finset.sum_eq_zero fun v _ => ?_
  rw [h.isUnder_eq_false ha]
  rfl

/-- Nothing is owed to a block that is not there. -/
theorem Sound.owed_eq_zero (h : Sound t) (ha : t.position? a = none) :
    t.owed debt a = 0 := by
  unfold owed
  simp only [h.isUnder_eq_false ha, Bool.false_eq_true, if_false]
  simp

theorem Sound.mem_roots_iff (h : Sound t) : root ∈ t.roots ↔ ∃ i, t.position? root = some i := by
  unfold roots
  simp only [List.mem_map, Array.mem_toList_iff, Array.mem_iff_getElem?]
  constructor
  · rintro ⟨n, ⟨i, hi⟩, rfl⟩
    exact ⟨i, h.position_root hi⟩
  · rintro ⟨i, hi⟩
    obtain ⟨n, hn, hroot⟩ := h.get_position hi
    exact ⟨n, ⟨i, hn⟩, hroot⟩

theorem Sound.contains_iff_mem_roots (h : Sound t) : t.contains root = true ↔ root ∈ t.roots := by
  rw [contains_iff, h.mem_roots_iff]

theorem getElem?_roots (t : Tree) (i : Nat) : t.roots[i]? = t.nodes[i]?.map (·.root) := by
  rw [roots, List.getElem?_map, Array.getElem?_toList]

theorem Sound.nodup_roots (h : Sound t) : t.roots.Nodup := by
  rw [List.nodup_iff_injective_getElem]
  intro i j hij
  have hget : ∀ k : Fin t.roots.length, ∃ n, t.nodes[k.val]? = some n ∧ n.root = t.roots[k] := by
    intro k
    have hk : t.roots[k.val]? = some t.roots[k] := List.getElem?_eq_getElem k.isLt
    rw [getElem?_roots, Option.map_eq_some_iff] at hk
    exact hk
  obtain ⟨n, hn, hnroot⟩ := hget i
  obtain ⟨m, hm, hmroot⟩ := hget j
  exact Fin.ext (h.root_injective hn hm (by rw [hnroot, hmroot]; exact hij))

/-- The index has one entry for each block. -/
theorem Sound.size_positions (h : Sound t) : t.positions.size = t.nodes.size := by
  have hperm : t.positions.keys.Perm t.roots := by
    rw [List.perm_ext_iff_of_nodup Std.ExtTreeMap.nodup_keys h.nodup_roots]
    intro root
    rw [← h.contains_iff_mem_roots, Std.ExtTreeMap.mem_keys]
    rfl
  rw [← Std.ExtTreeMap.length_keys, hperm.length_eq, roots, List.length_map,
    Array.length_toList]

-- ========================================================= a new block

/-- What an amount for a root adds below a block changes only for the
root of a new block, and only above that. -/
theorem Sound.amount_extend (h : Sound t) (hn : Fresh t n) (a r : Root) (amount : Nat) :
    (if Ghost.isUnder (t.extend n).outline a r then amount else 0)
      = (if Ghost.isUnder t.outline a r then amount else 0)
        + if a = n.root ∨ Ghost.isUnder t.outline a n.parentRoot then
            (if r = n.root then amount else 0) else 0 := by
  have hiff := h.isUnder_extend (a := a) (r := r) hn
  by_cases hr : r = n.root
  · subst hr
    have hold : Ghost.isUnder t.outline a n.root ≠ true := by
      intro hunder
      obtain ⟨j, hj⟩ := h.position_of_isUnder hunder
      rw [hn.absent] at hj
      cases hj
    rw [if_neg hold, if_pos rfl, Nat.zero_add]
    by_cases hup : a = n.root ∨ Ghost.isUnder t.outline a n.parentRoot = true
    · rw [if_pos hup, if_pos (hiff.mpr (Or.inr ⟨rfl, hup⟩))]
    · rw [if_neg hup, if_neg fun hunder => (hiff.mp hunder).elim hold fun h => hup h.2]
  · rw [if_neg hr, ite_self, Nat.add_zero]
    have hsame : Ghost.isUnder (t.extend n).outline a r = Ghost.isUnder t.outline a r := by
      rw [Bool.eq_iff_iff, hiff]
      simp [hr]
    rw [hsame]

/-- A new block adds the votes for its root to the tally of each block
it is under. -/
theorem Sound.tally_extend (h : Sound t) (hn : Fresh t n) (vote : Nat → Root)
    (balances : Balances) (a : Root) :
    (t.extend n).tally vote balances a
      = t.tally vote balances a
        + if a = n.root ∨ Ghost.isUnder t.outline a n.parentRoot then
            VoteTable.support vote balances n.root else 0 := by
  simp only [tally_eq_sum, VoteTable.support, h.amount_extend hn, Finset.sum_add_distrib]
  congr 1
  split
  case isTrue => rfl
  case isFalse => exact Finset.sum_const_zero

/-- A new block adds its debt to what is owed to each block it is
under. -/
theorem Sound.owed_extend (h : Sound t) (hn : Fresh t n) (debt debt' : Root → Nat)
    (hdebt : ∀ r, r ≠ n.root → debt' r = debt r) (a : Root) :
    (t.extend n).owed debt' a
      = t.owed debt a
        + if a = n.root ∨ Ghost.isUnder t.outline a n.parentRoot then debt' n.root else 0 := by
  have hroots : (t.extend n).roots = t.roots ++ [n.root] := by
    show (t.nodes.push n).toList.map (·.root) = t.nodes.toList.map (·.root) ++ [n.root]
    rw [Array.toList_push, List.map_append]
    rfl
  have hold : ∀ r ∈ t.roots, r ≠ n.root := by
    rintro r hr rfl
    obtain ⟨i, hi⟩ := h.mem_roots_iff.mp hr
    rw [hn.absent] at hi
    cases hi
  unfold owed
  rw [hroots, List.map_append, List.sum_append]
  simp only [h.amount_extend hn]
  congr 1
  · congr 1
    refine List.map_congr_left fun r hr => ?_
    rw [if_neg (hold r hr), ite_self, Nat.add_zero, hdebt r (hold r hr)]
  · have habsent : Ghost.isUnder t.outline a n.root ≠ true := by
      intro hunder
      obtain ⟨j, hj⟩ := h.position_of_isUnder hunder
      rw [hn.absent] at hj
      cases hj
    simp [habsent]

-- ====================================================== dropped blocks

/-- Dropping blocks leaves the tally of a block that stays as it was. -/
theorem Dropped.tally (h : Dropped count t t') (hs : Sound t) (hi : t'.position? a = some i)
    (vote : Nat → Root) (balances : Balances) :
    t'.tally vote balances a = t.tally vote balances a :=
  tally_congr (h.isUnder hs hi)

/-- Dropping blocks leaves what is owed to a block that stays as it
was. -/
theorem Dropped.owed (h : Dropped count t t') (hs : Sound t) (hi : t'.position? a = some i)
    (debt : Root → Nat) : t'.owed debt a = t.owed debt a := by
  have hroots : t'.roots = t.roots.drop count := by
    refine List.ext_getElem? fun i => ?_
    rw [List.getElem?_drop, getElem?_roots, getElem?_roots, h.get, Nat.add_comm count,
      Option.map_map]
    rfl
  -- what is dropped came before the block, so it is not under it
  have hzero : ∀ r ∈ t.roots.take count, Ghost.isUnder t.outline a r = false := by
    intro r hr
    rw [Bool.eq_false_iff]
    intro hunder
    obtain ⟨k, hk⟩ := List.mem_iff_getElem?.mp hr
    rw [List.getElem?_take] at hk
    split at hk
    case isFalse => cases hk
    case isTrue hlt =>
      rw [getElem?_roots, Option.map_eq_some_iff] at hk
      obtain ⟨n, hn, hroot⟩ := hk
      obtain ⟨i', j, hi', hj, hbelow⟩ := hs.isUnder_iff.mp hunder
      rw [h.position, hi', Option.bind_some, shift?_eq_some_iff] at hi
      rw [← hroot, hs.position_root hn] at hj
      injection hj with hj
      have := hbelow.le hs.rooted
      omega
  have hdropped : ((t.roots.take count).map fun r =>
      if Ghost.isUnder t.outline a r then debt r else 0).sum = 0 := by
    rw [List.sum_eq_zero_iff]
    intro x hx
    obtain ⟨r, hr, rfl⟩ := List.mem_map.mp hx
    rw [hzero r hr]
    rfl
  show (t'.roots.map _).sum = (t.roots.map _).sum
  simp only [h.isUnder hs hi]
  rw [← List.take_append_drop count t.roots, List.map_append, List.sum_append, hdropped,
    hroots, Nat.zero_add]

-- ======================================================= applied scores

/-- Applying scores changes no tally. -/
theorem Scored.tally {d : Nat → Int} {justifiedEpoch finalizedEpoch : Epoch}
    (h : Scored t d justifiedEpoch finalizedEpoch t') (vote : Nat → Root)
    (balances : Balances) (a : Root) :
    t'.tally vote balances a = t.tally vote balances a := by
  unfold Tree.tally
  rw [h.outline]

/-- Applying scores changes no debt. -/
theorem Scored.owed {d : Nat → Int} {justifiedEpoch finalizedEpoch : Epoch}
    (h : Scored t d justifiedEpoch finalizedEpoch t') (debt : Root → Nat) (a : Root) :
    t'.owed debt a = t.owed debt a := by
  have hroots : ∀ t : Tree, t.roots = t.outline.map (·.root) := by
    intro t
    rw [roots, Tree.outline, List.map_map]
    rfl
  unfold Tree.owed
  rw [hroots, hroots, h.outline]

/-- A balance that goes to the position of a root counts for the blocks
that the root is under. -/
theorem Sound.sum_credit_eq (h : Sound t) (hn : t.nodes[i]? = some n) (r : Root)
    (amount : Gwei) [DecidablePred (Below t.nodes i)] :
    ∑ x ∈ (range t.nodes.size).filter (Below t.nodes i),
        VoteTable.credit t.positions r amount x
      = ((if Ghost.isUnder t.outline n.root r then amount.toNat else 0 : Nat) : Int) := by
  rw [VoteTable.sum_credit]
  have hiff : (∃ x ∈ (range t.nodes.size).filter (Below t.nodes i), t.positions[r]? = some x)
      ↔ Ghost.isUnder t.outline n.root r = true := by
    rw [h.isUnder_root_iff hn]
    constructor
    · rintro ⟨x, hx, hpos⟩
      exact ⟨x, hpos, (Finset.mem_filter.mp hx).2⟩
    · rintro ⟨x, hpos, hbelow⟩
      exact ⟨x, Finset.mem_filter.mpr
        ⟨Finset.mem_range.mpr (h.lt_size_of_position hpos), hbelow⟩, hpos⟩
  by_cases hunder : Ghost.isUnder t.outline n.root r = true
  · rw [if_pos (hiff.mpr hunder), if_pos hunder]
  · rw [if_neg fun hx => hunder (hiff.mp hx), if_neg hunder]
    rfl

/-- The balances that a table gives to a subtree, however far the table
and the list of balances reach. -/
theorem Sound.sum_table_eq_tally (h : Sound t) (hzero : t.position? 0 = none)
    (hn : t.nodes[i]? = some n) (votes : VoteTable) (vote : Nat → Root)
    (hblank : ∀ v, votes.trackers.size ≤ v → vote v = 0) (balances : Balances)
    [DecidablePred (Below t.nodes i)] :
    ∑ v ∈ range votes.trackers.size,
        ∑ x ∈ (range t.nodes.size).filter (Below t.nodes i),
          VoteTable.credit t.positions (vote v) (balances.getD v 0) x
      = (t.tally vote balances n.root : Int) := by
  simp only [h.sum_credit_eq hn]
  rw [tally_eq_sum, Nat.cast_sum]
  refine VoteTable.sum_range_eq (fun v hv => ?_) fun v hv => ?_
  · have hnot : Ghost.isUnder t.outline n.root (vote v) ≠ true := by
      intro hunder
      obtain ⟨j, hj⟩ := h.position_of_isUnder hunder
      rw [hblank v hv, hzero] at hj
      cases hj
    rw [if_neg hnot]
    rfl
  · rw [VoteTable.balance_of_size_le hv]
    exact congrArg _ (ite_self 0)

/-- The weight of a block changes by the difference of two tallies. -/
theorem Sound.shift_netChange (h : Sound t) (hzero : t.position? 0 = none)
    (hn : t.nodes[i]? = some n) (votes : VoteTable) (old new : Balances) :
    shift t.nodes (VoteTable.netChange t.positions votes old new) i
      = (t.tally (fun v => (votes.tracker v).next) new n.root : Int)
        - t.tally (fun v => (votes.tracker v).current) old n.root := by
  classical
  unfold shift
  rw [VoteTable.sum_netChange]
  have hblank : ∀ v, votes.trackers.size ≤ v →
      (votes.tracker v).next = 0 ∧ (votes.tracker v).current = 0 := by
    intro v hv
    rw [VoteTable.tracker_of_size_le hv]
    exact ⟨rfl, rfl⟩
  congr 1
  · exact h.sum_table_eq_tally hzero hn votes _ (fun v hv => (hblank v hv).1) new
  · exact h.sum_table_eq_tally hzero hn votes _ (fun v hv => (hblank v hv).2) old

end Tree

end ChainHead
