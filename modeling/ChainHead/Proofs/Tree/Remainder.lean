/-
What dropping blocks leaves goes on as if nothing had gone.

The remainder of a tree is embedded in it (`Dropped.embeds`): children
and everything further down are kept, and only an ancestor can be lost.
So each later operation does to the remainder what it does to the whole,
and dropping the same number of blocks afterwards would give the same
tree: with a new block (`Dropped.extend`), even one whose parent is gone,
and with scores (`Dropped.scored`), if the deltas of what is left are the
same. What can be asked of a block that is left has the same answer in
both trees (`Dropped.node?`, `Dropped.findHead`).
-/
import ChainHead.Proofs.Tree.Embedding

namespace ChainHead.Tree

variable {t t' u u' : Tree} {root : Root} {count i : Nat} {d d' : Nat → Int}
variable {justifiedEpoch finalizedEpoch : Epoch}

theorem shift?_zero : shift? 0 = some :=
  funext fun i => shift?_of_le (Nat.zero_le i)

theorem shifted_zero : shifted 0 = id := by
  funext n
  unfold shifted
  rw [shift?_zero]
  simp

namespace Dropped

-- ============================================================== blocks

/-- To drop no block changes nothing. -/
theorem refl (t : Tree) : Dropped 0 t t where
  get := by
    intro i
    rw [Nat.add_zero, shifted_zero, Option.map_id, id]
  position := by
    intro root
    rw [shift?_zero, Option.bind_fun_some]
  justifiedEpoch := rfl
  finalizedEpoch := rfl

theorem lt_size_iff (h : Dropped count t t') :
    i < t'.nodes.size ↔ i + count < t.nodes.size := by
  rw [← Nat.not_le, ← Nat.not_le, not_iff_not, ← Array.getElem?_eq_none_iff,
    ← Array.getElem?_eq_none_iff, h.get, Option.map_eq_none_iff]

theorem size (h : Dropped count t t') : t'.nodes.size = t.nodes.size - count := by
  have hiff := fun i => h.lt_size_iff (i := i)
  have hbelow := hiff (t'.nodes.size - 1)
  have hend := hiff t'.nodes.size
  omega

theorem position_eq_some_iff (h : Dropped count t t') :
    t'.position? root = some i ↔ t.position? root = some (i + count) := by
  rw [h.position, Option.bind_eq_some_iff]
  simp only [shift?_eq_some_iff, exists_eq_right]

/-- A root that is lost was found among the first blocks. -/
theorem position_eq_none (h : Dropped count t t') (hnone : t'.position? root = none)
    (hlate : ∀ i, t.position? root = some i → count ≤ i) : t.position? root = none := by
  cases hpos : t.position? root with
  | none => rfl
  | some i =>
      have hi := hlate i hpos
      rw [h.position, hpos, Option.bind_some, shift?_of_le hi] at hnone
      cases hnone

theorem contains_of_contains (h : Dropped count t t') (hroot : t'.contains root = true) :
    t.contains root = true := by
  obtain ⟨i, hi⟩ := contains_iff.mp hroot
  exact contains_iff.mpr ⟨_, h.position_eq_some_iff.mp hi⟩

/-- A block that is left has its links moved and is otherwise the
same. -/
theorem node? (h : Dropped count t t') (hroot : t'.contains root = true) :
    t'.node? root = (t.node? root).map (shifted count) := by
  obtain ⟨i, hi⟩ := contains_iff.mp hroot
  rw [node?_eq_bind, node?_eq_bind, hi, h.position_eq_some_iff.mp hi]
  exact h.get i

-- ============================================================= descent

theorem embeds (h : Dropped count t t') (hs : Sound t) : Embeds (· + count) t' t where
  node := by
    intro i n' hn'
    rw [h.get, Option.map_eq_some_iff] at hn'
    obtain ⟨n, hn, hshifted⟩ := hn'
    subst hshifted
    exact ⟨n, hn, rfl, rfl, rfl, rfl⟩
  child := by
    intro i c _
    constructor
    · intro hc
      have hlt := hs.rooted _ _ hc
      obtain ⟨b, hb⟩ : ∃ b, b + count = c := ⟨c - count, by omega⟩
      exact ⟨b, h.parentAt_eq_some_iff.mpr (hb ▸ hc), hb⟩
    · intro ⟨b, hb, hbc⟩
      exact hbc ▸ h.parentAt_eq_some_iff.mp hb
  justifiedEpoch := h.justifiedEpoch.symm
  finalizedEpoch := h.finalizedEpoch.symm

/-- A search for the head that starts at a block that is left, or at one
that never was, answers as before. -/
theorem findHead (h : Dropped count t t') (hs : Sound t)
    (hlate : ∀ i, t.position? root = some i → count ≤ i) :
    t'.findHead root = t.findHead root := by
  cases hpos : t'.position? root with
  | none =>
      unfold Tree.findHead
      rw [hpos, h.position_eq_none hpos hlate]
  | some i =>
      refine ((h.embeds hs).findHead (h.sound hs) hs (fun i hi => ?_) hpos).symm
      rw [h.bestDescendantAt, Option.map_map]
      cases hd : Tree.bestDescendantAt t.nodes (i + count) with
      | none => rfl
      | some e =>
          have hle := (hs.refreshing.below _ e hd).le hs.rooted
          rw [Option.map_some, Function.comp_apply, Nat.sub_add_cancel (by omega)]

-- ==================================================== later operations

/-- A new block stands at the end, so it does not matter when the first
blocks go. -/
theorem extend (h : Dropped count t t') (hcount : count ≤ t.nodes.size) (n : Node) :
    Dropped count (t.extend n) (t'.extend (shifted count n)) where
  get := by
    intro i
    have hsize := h.size
    rw [get_extend, get_extend]
    by_cases hi : i = t'.nodes.size
    · rw [if_pos hi, if_pos (by omega)]
      rfl
    · rw [if_neg hi, if_neg (by omega)]
      exact h.get i
  position := by
    intro root
    rw [position_extend, position_extend, show (shifted count n).root = n.root from rfl]
    by_cases hroot : n.root = root
    · rw [if_pos hroot, if_pos hroot, Option.bind_some, shift?_of_le hcount, h.size]
    · rw [if_neg hroot, if_neg hroot]
      exact h.position root
  justifiedEpoch := h.justifiedEpoch
  finalizedEpoch := h.finalizedEpoch

/-- The entry of a new block names a parent that is left, or none. -/
theorem newNode (h : Dropped count t t') (slot : Slot) (root parentRoot stateRoot : Root)
    (justifiedEpoch finalizedEpoch : Epoch) :
    t'.newNode slot root parentRoot stateRoot justifiedEpoch finalizedEpoch
      = shifted count
        (t.newNode slot root parentRoot stateRoot justifiedEpoch finalizedEpoch) := by
  unfold Tree.newNode
  rw [h.position]
  rfl

/-- Scores make the same of what is left. -/
theorem scored (h : Dropped count t t') (hs : Sound t)
    (hd : ∀ x < t'.nodes.size, d (x + count) = d' x)
    (hscored : Scored t d justifiedEpoch finalizedEpoch u)
    (hscored' : Scored t' d' justifiedEpoch finalizedEpoch u') : Dropped count u u' where
  get := by
    intro i
    cases hn' : t'.nodes[i]? with
    | none =>
        have hn := hn'
        rw [h.get, Option.map_eq_none_iff] at hn
        rw [Array.getElem?_eq_none_iff] at hn hn'
        rw [Array.getElem?_eq_none (hscored'.size ▸ hn'),
          Array.getElem?_eq_none (hscored.size ▸ hn)]
        rfl
    | some n' =>
        have hi := (Array.getElem?_eq_some_iff.mp hn').1
        have hlinked := hscored.bestLinked hs
        have hlinked' := hscored'.bestLinked (h.sound hs)
        have hembeds := (h.embeds hs).scored (h.sound hs) hd hscored' hscored
        obtain ⟨m', hm', hbare'⟩ := hscored'.get hn'
        obtain ⟨m, hm, hsame⟩ := hembeds.node i m' hm'
        obtain ⟨n, hn, hbare⟩ := hscored.get_old hm
        have hchild := hembeds.bestChildAt hlinked' hlinked (hscored'.size ▸ hi)
        have hdesc := hembeds.bestDescendantAt hlinked' hlinked (hscored'.size ▸ hi)
        rw [Tree.bestChildAt, Tree.bestChildAt, hm, hm'] at hchild
        rw [Tree.bestDescendantAt, Tree.bestDescendantAt, hm, hm'] at hdesc
        change m.bestChild = m'.bestChild.map (· + count) at hchild
        change m.bestDescendant = m'.bestDescendant.map (· + count) at hdesc
        have hback : (fun j : Nat => j - count) ∘ (· + count) = id :=
          funext fun j => Nat.add_sub_cancel j count
        -- links apart, blocks are the shifted ones of before
        have hmoved : unscored m' = unscored (shifted count m) := by
          have hget := h.get i
          rw [hn', hn, Option.map_some, Option.some.injEq] at hget
          calc unscored m' = shifted count (unscored n) := by rw [hbare', hget]; rfl
            _ = unscored (shifted count m) := by rw [hbare]; rfl
        rw [hm', hm, Option.map_some, eq_of_unscored hmoved hsame.weight.symm]
        · show m'.bestChild = m.bestChild.map (· - count)
          rw [hchild, Option.map_map, hback, Option.map_id, id]
        · show m'.bestDescendant = m.bestDescendant.map (· - count)
          rw [hdesc, Option.map_map, hback, Option.map_id, id]
  position := by
    intro root
    rw [hscored.position, hscored'.position]
    exact h.position root
  justifiedEpoch := hscored'.justifiedEpoch.trans hscored.justifiedEpoch.symm
  finalizedEpoch := hscored'.finalizedEpoch.trans hscored.finalizedEpoch.symm

end Dropped

end ChainHead.Tree
