/-
Descent by roots, and what the operations on a tree do to it.

The reference asks by roots and the tree answers by positions; in a
sound tree the two say the same (`Sound.isUnder_iff`). So each operation
on trees becomes a statement about which root lies in the subtree of
which: a new block is under itself and whatever its parent is under
(`Sound.isUnder_extend`), dropping blocks takes away questions and
changes no answer (`Dropped.isUnder`), scores are no part of it
(`Scored.outline`).
-/
import ChainHead.Proofs.Store.Ghost
import ChainHead.Proofs.Tree.Run

namespace ChainHead.Tree

open Ghost (find? lineage isUnder)

variable {t t' : Tree} {n m : Node} {a r root : Root} {i j count steps : Nat}

-- ============================================================ look-ups

theorem getElem?_outline (t : Tree) (i : Nat) :
    t.outline[i]? = t.nodes[i]?.map t.ghost := by
  rw [outline, List.getElem?_map, Array.getElem?_toList]

theorem length_outline (t : Tree) : t.outline.length = t.nodes.size := by
  rw [outline, List.length_map, Array.length_toList]

/-- The reference finds a block where the index finds it. -/
theorem Sound.find?_outline (h : Sound t) (hn : t.nodes[i]? = some n) :
    find? t.outline n.root = some (t.ghost n) := by
  have hget : t.outline[i]? = some (t.ghost n) := by
    rw [getElem?_outline, hn]
    rfl
  obtain ⟨hi, hval⟩ := List.getElem?_eq_some_iff.mp hget
  unfold find?
  rw [List.find?_eq_some_iff_getElem]
  refine ⟨by simp [ghost], i, hi, hval, fun j hj => ?_⟩
  have hjlt : j < t.nodes.size := by
    rw [length_outline] at hi
    omega
  have hm := Array.getElem?_eq_getElem hjlt
  have hgetj : t.outline[j]? = some (t.ghost t.nodes[j]) := by
    rw [getElem?_outline, hm]
    rfl
  have hroot : t.nodes[j].root ≠ n.root := by
    intro heq
    have := h.root_injective hm hn heq
    omega
  rw [(List.getElem?_eq_some_iff.mp hgetj).2]
  simpa [ghost] using hroot

/-- The reference finds no block that the index does not find. -/
theorem Sound.find?_outline_eq_none (h : Sound t) (hroot : t.position? root = none) :
    find? t.outline root = none := by
  unfold find?
  rw [List.find?_eq_none]
  intro b hb
  obtain ⟨n, hn, rfl⟩ := List.mem_map.mp hb
  rw [Array.mem_toList_iff, Array.mem_iff_getElem?] at hn
  obtain ⟨i, hi⟩ := hn
  intro heq
  have hpos := h.position_root hi
  have : n.root = root := by simpa [ghost] using heq
  rw [this, hroot] at hpos
  cases hpos

/-- The parent that the reference knows of. -/
theorem Sound.parent_ghost (h : Sound t) (hn : t.nodes[i]? = some n) {p : Nat}
    (hp : n.parent = some p) :
    ∃ m, t.nodes[p]? = some m ∧ (t.ghost n).parent = some m.root := by
  obtain ⟨m, hm, -⟩ := h.parentRoot i n p hn hp
  refine ⟨m, hm, ?_⟩
  show (n.parent.bind fun p => t.nodes[p]?.map (·.root)) = some m.root
  rw [hp, Option.bind_some, hm]
  rfl

-- ============================================================= descent

/-- The path from a block has the roots of the blocks it is below, if
it is given enough steps. -/
theorem Sound.mem_lineage_iff (h : Sound t) (hn : t.nodes[j]? = some n) (hj : j < steps) :
    a ∈ lineage t.outline steps n.root
      ↔ ∃ i m, t.nodes[i]? = some m ∧ m.root = a ∧ Below t.nodes i j := by
  induction j using Nat.strongRecOn generalizing n steps with
  | _ j ih =>
      obtain ⟨steps, rfl⟩ : ∃ k, steps = k + 1 := ⟨steps - 1, by omega⟩
      simp only [lineage, h.find?_outline hn]
      cases hp : n.parent with
      | none =>
          have hparent : (t.ghost n).parent = none := by
            show (n.parent.bind fun p => t.nodes[p]?.map (·.root)) = none
            rw [hp]
            rfl
          rw [hparent, Option.map_none, Option.getD_none, List.mem_singleton]
          constructor
          · rintro rfl
            exact ⟨j, n, hn, rfl, Below.refl⟩
          · rintro ⟨i, m, hm, rfl, hbelow⟩
            rcases below_iff_parent.mp hbelow with rfl | ⟨p, hpar, -⟩
            · rw [hn] at hm
              injection hm with hm
              rw [hm]
            · rw [parentAt_of_get hn, hp] at hpar
              cases hpar
      | some p =>
          obtain ⟨o, ho, hparent⟩ := h.parent_ghost hn hp
          have hlt := h.rooted j p ((parentAt_of_get hn).trans hp)
          rw [hparent, Option.map_some, Option.getD_some, List.mem_cons,
            ih p hlt ho (by omega)]
          constructor
          · rintro (rfl | ⟨i, m, hm, hroot, hbelow⟩)
            · exact ⟨j, n, hn, rfl, Below.refl⟩
            · exact ⟨i, m, hm, hroot,
                hbelow.trans (Below.of_parent ((parentAt_of_get hn).trans hp))⟩
          · rintro ⟨i, m, hm, hroot, hbelow⟩
            rcases below_iff_parent.mp hbelow with rfl | ⟨q, hpar, hq⟩
            · rw [hn] at hm
              injection hm with hm
              exact Or.inl (by rw [← hroot, hm])
            · rw [parentAt_of_get hn, hp] at hpar
              injection hpar with hpar
              exact Or.inr ⟨i, m, hm, hroot, hpar ▸ hq⟩

/-- Descent by roots is descent by positions. -/
theorem Sound.isUnder_iff (h : Sound t) :
    isUnder t.outline a r = true
      ↔ ∃ i j, t.position? a = some i ∧ t.position? r = some j ∧ Below t.nodes i j := by
  unfold isUnder
  rw [decide_eq_true_iff, length_outline]
  cases hr : t.position? r with
  | none =>
      have hnone : lineage t.outline t.nodes.size r = [] := by
        cases t.nodes.size with
        | zero => rfl
        | succ k => simp only [lineage, h.find?_outline_eq_none hr]
      rw [hnone]
      simp
  | some j =>
      obtain ⟨n, hn, rfl⟩ := h.get_position hr
      rw [h.mem_lineage_iff hn (h.lt_size_of_position hr)]
      constructor
      · rintro ⟨i, m, hm, rfl, hbelow⟩
        exact ⟨i, j, h.position_root hm, rfl, hbelow⟩
      · rintro ⟨i, j', hi, hj', hbelow⟩
        injection hj' with hj'
        obtain ⟨m, hm, hroot⟩ := h.get_position hi
        exact ⟨i, m, hm, hroot, hj' ▸ hbelow⟩

/-- Descent by roots between blocks at known positions. -/
theorem Sound.isUnder_root_iff (h : Sound t) (hn : t.nodes[i]? = some n) :
    isUnder t.outline n.root r = true ↔ ∃ j, t.position? r = some j ∧ Below t.nodes i j := by
  rw [h.isUnder_iff, h.position_root hn]
  constructor
  · rintro ⟨i', j, hi, hj, hbelow⟩
    injection hi with hi
    exact ⟨j, hj, hi ▸ hbelow⟩
  · rintro ⟨j, hj, hbelow⟩
    exact ⟨i, j, rfl, hj, hbelow⟩

/-- Only what is in the tree is under anything. -/
theorem Sound.position_of_isUnder (h : Sound t) (hr : isUnder t.outline a r = true) :
    ∃ j, t.position? r = some j := by
  obtain ⟨_, j, -, hj, -⟩ := h.isUnder_iff.mp hr
  exact ⟨j, hj⟩

-- ========================================================== operations

/-- A new block is under itself and under whatever its parent is under;
nothing else is new. -/
theorem Sound.isUnder_extend (h : Sound t) (hn : Fresh t n) :
    isUnder (t.extend n).outline a r = true
      ↔ isUnder t.outline a r = true
        ∨ (r = n.root ∧ (a = n.root ∨ isUnder t.outline a n.parentRoot = true)) := by
  have hext := h.extend hn
  rw [hext.isUnder_iff, h.isUnder_iff, h.isUnder_iff]
  simp only [position_extend]
  -- the new block is the last one, so nothing else is below it
  have hup : ∀ j, Below (t.extend n).nodes t.nodes.size j → j < t.nodes.size → False := by
    intro j hbelow hj
    have := hbelow.le hext.rooted
    omega
  have hlt : ∀ p, n.parent = some p → p < t.nodes.size := by
    intro p hp
    rw [hn.parent] at hp
    exact h.lt_size_of_position hp
  constructor
  · rintro ⟨i, j, hi, hj, hbelow⟩
    by_cases hr : n.root = r
    · rw [if_pos hr] at hj
      injection hj with hj
      subst hj
      refine Or.inr ⟨hr.symm, ?_⟩
      by_cases ha : n.root = a
      · exact Or.inl ha.symm
      · rw [if_neg ha] at hi
        have hilt := h.lt_size_of_position hi
        rcases (below_extend_new h.rooted hlt).mp hbelow with heq | ⟨p, hp, hip⟩
        · omega
        · exact Or.inr ⟨i, p, hi, hn.parent ▸ hp, hip⟩
    · rw [if_neg hr] at hj
      have hjlt := h.lt_size_of_position hj
      by_cases ha : n.root = a
      · rw [if_pos ha] at hi
        injection hi with hi
        exact (hup j (hi ▸ hbelow) hjlt).elim
      · rw [if_neg ha] at hi
        exact Or.inl ⟨i, j, hi, hj, (below_extend_old h.rooted n hjlt).mp hbelow⟩
  · rintro (⟨i, j, hi, hj, hbelow⟩ | ⟨rfl, rfl | ⟨i, p, hi, hp, hip⟩⟩)
    · have hjlt := h.lt_size_of_position hj
      have hold : ∀ {root k}, t.position? root = some k → n.root ≠ root := by
        rintro root k hk rfl
        rw [hn.absent] at hk
        cases hk
      rw [if_neg (hold hi), if_neg (hold hj)]
      exact ⟨i, j, hi, hj, (below_extend_old h.rooted n hjlt).mpr hbelow⟩
    · rw [if_pos rfl]
      exact ⟨_, _, rfl, rfl, Below.refl⟩
    · have ha : n.root ≠ a := by
        rintro rfl
        rw [hn.absent] at hi
        cases hi
      rw [if_neg ha, if_pos rfl]
      exact ⟨i, _, hi, rfl, (below_extend_new h.rooted hlt).mpr (Or.inr ⟨p, hn.parent ▸ hp, hip⟩)⟩

/-- Scores are no part of the outline. -/
theorem Scored.outline {d : Nat → Int} {justifiedEpoch finalizedEpoch : Epoch}
    (h : Scored t d justifiedEpoch finalizedEpoch t') : t'.outline = t.outline := by
  have hroot : ∀ p : Nat, t'.nodes[p]?.map (·.root) = t.nodes[p]?.map (·.root) := by
    intro p
    have hp := congrArg (Option.map Node.root) (h.nodes p)
    rw [Option.map_map, Option.map_map] at hp
    exact hp
  refine List.ext_getElem? fun i => ?_
  have hi := congrArg (Option.map t.ghost) (h.nodes i)
  rw [Option.map_map, Option.map_map] at hi
  rw [getElem?_outline, getElem?_outline]
  refine Eq.trans ?_ hi
  congr 1
  funext n
  simp only [ghost, hroot]
  rfl

/-- What is under a block that stays was under it before, and stays. -/
theorem Dropped.isUnder (h : Dropped count t t') (hs : Sound t)
    (hi : t'.position? a = some i) (r : Root) :
    isUnder t'.outline a r = isUnder t.outline a r := by
  rw [Bool.eq_iff_iff, (h.sound hs).isUnder_iff, hs.isUnder_iff]
  simp only [h.position, Option.bind_eq_some_iff, shift?_eq_some_iff,
    h.below_iff hs.rooted] at hi ⊢
  obtain ⟨_, hi, rfl⟩ := hi
  constructor
  · rintro ⟨i', j, ⟨_, hi', rfl⟩, ⟨_, hj, rfl⟩, hbelow⟩
    exact ⟨_, _, hi', hj, hbelow⟩
  · rintro ⟨i', j, hi', hj, hbelow⟩
    rw [hi] at hi'
    injection hi' with hi'
    subst hi'
    have hle := hbelow.le hs.rooted
    refine ⟨i, j - count, ⟨_, hi, rfl⟩, ⟨j, hj, by omega⟩, ?_⟩
    rw [Nat.sub_add_cancel (by omega)]
    exact hbelow

end ChainHead.Tree
