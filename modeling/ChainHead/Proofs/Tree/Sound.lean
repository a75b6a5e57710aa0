/-
What is true of every tree that operations on trees have made.

`Sound` ties together what a tree keeps twice. The index finds exactly
the blocks of the array, by their roots; a parent link leads to an
earlier block, the one whose root the block names; a best child is a
child; and a block with a best child has a best descendant in that
child's subtree, viable for the epochs of the tree. Nothing is said of
weights, nor of which child is best: `Links` shows that a pass restores
the order of siblings from any sound tree.

This file holds the invariant, insertion and the search for the head;
`Drop` and `Rescore` show that dropping blocks and applying scores keep
the invariant.
-/
import ChainHead.Proofs.Tree.Links

namespace ChainHead.Tree

variable {t t' : Tree} {nodes : Array Node} {n : Node} {root : Root} {b i j p : Nat}

-- ======================================================= the invariant

/-- The index, the parent links and the links to best blocks of a tree
agree with its array; see the head of the file. -/
structure Sound (t : Tree) : Prop where
  position : ∀ root i, t.position? root = some i ↔ ∃ n, t.nodes[i]? = some n ∧ n.root = root
  rooted : Rooted t.nodes
  parentRoot : ∀ (i : Nat) n p, t.nodes[i]? = some n → n.parent = some p →
    ∃ m, t.nodes[p]? = some m ∧ m.root = n.parentRoot
  child : ∀ i b, bestChildAt t.nodes i = some b → parentAt t.nodes b = some i
  alone : ∀ i, bestChildAt t.nodes i = none → bestDescendantAt t.nodes i = none
  descendant : ∀ i b, bestChildAt t.nodes i = some b →
    ∃ d, bestDescendantAt t.nodes i = some d ∧ Below t.nodes b d ∧ t.ViableAt d

namespace Sound

/-- A block is found under its root. -/
theorem position_root (h : Sound t) (hn : t.nodes[i]? = some n) :
    t.position? n.root = some i :=
  (h.position n.root i).mpr ⟨n, hn, rfl⟩

/-- What is found under a root is a block with that root. -/
theorem get_position (h : Sound t) (hi : t.position? root = some i) :
    ∃ n, t.nodes[i]? = some n ∧ n.root = root :=
  (h.position root i).mp hi

theorem lt_size_of_position (h : Sound t) (hi : t.position? root = some i) :
    i < t.nodes.size := by
  obtain ⟨n, hn, -⟩ := h.get_position hi
  exact (Array.getElem?_eq_some_iff.mp hn).1

/-- No two blocks have the same root. -/
theorem root_injective (h : Sound t) {m : Node} (hn : t.nodes[i]? = some n)
    (hm : t.nodes[j]? = some m) (hroot : n.root = m.root) : i = j := by
  have hi := h.position_root hn
  rw [hroot, h.position_root hm] at hi
  injection hi with hi
  exact hi.symm

/-- Ranks tell the blocks of a tree apart. -/
theorem rank_injective (h : Sound t) (i j : Nat) (hi : i < t.nodes.size)
    (hj : j < t.nodes.size) (hrank : rankAt t.nodes i = rankAt t.nodes j) : i = j := by
  have hn := Array.getElem?_eq_getElem hi
  have hm := Array.getElem?_eq_getElem hj
  simp only [rankAt, hn, hm, Option.getD_some, rank] at hrank
  have hroot := congrArg (fun x => (ofLex x).2) hrank
  simp only [ofLex_toLex] at hroot
  exact h.root_injective hn hm (BitVec.eq_of_toNat_eq hroot)

/-- Any sound tree can be refreshed, whatever its epochs: links to best
descendants stay within their subtrees. -/
theorem refreshing (h : Sound t) : Refreshing t t.nodes.size where
  rooted := h.rooted
  child := h.child
  alone := h.alone
  below := by
    intro i d hd
    cases hb : bestChildAt t.nodes i with
    | none =>
        rw [h.alone i hb] at hd
        cases hd
    | some b =>
        obtain ⟨d', hd', hbelow, -⟩ := h.descendant i b hb
        rw [hd] at hd'
        injection hd' with hd'
        rw [hd']
        exact (Below.of_parent (h.child i b hb)).trans hbelow
  settled := by
    intro i b hb hsize
    have := lt_size_of_parentAt (h.child i b hb)
    omega
  covered := by
    intro i c hsize hc
    have := lt_size_of_parentAt hc.1
    omega

end Sound

/-- A tree without blocks is sound. -/
theorem sound_empty (justifiedEpoch finalizedEpoch : Epoch) (pruneThreshold : Nat) :
    Sound (.empty justifiedEpoch finalizedEpoch pruneThreshold) where
  position := by simp [empty, position?]
  rooted := by simp [empty, Rooted, parentAt]
  parentRoot := by simp [empty]
  child := by simp [empty, bestChildAt]
  alone := by simp [empty, bestDescendantAt]
  descendant := by simp [empty, bestChildAt]

/-- The threshold for dropping blocks is no concern of the invariant. -/
theorem Sound.setPruneThreshold (h : Sound t) (threshold : Nat) :
    Sound (t.setPruneThreshold threshold) :=
  ⟨h.position, h.rooted, h.parentRoot, h.child, h.alone, h.descendant⟩

-- =========================================================== insertion

/-- The block that insertion makes. -/
def newNode (t : Tree) (slot : Slot) (root parentRoot stateRoot : Root)
    (justifiedEpoch finalizedEpoch : Epoch) : Node :=
  { slot, root, parentRoot, stateRoot, parent := t.position? parentRoot,
    justifiedEpoch, finalizedEpoch }

/-- Whether a block is as a new block has to be. -/
structure Fresh (t : Tree) (n : Node) : Prop where
  absent : t.position? n.root = none
  parent : n.parent = t.position? n.parentRoot
  weight : n.weight = 0
  bestChild : n.bestChild = none
  bestDescendant : n.bestDescendant = none

/-- A tree with one more block at its end. -/
def extend (t : Tree) (n : Node) : Tree :=
  { t with nodes := t.nodes.push n, positions := t.positions.insert n.root t.nodes.size }

theorem contains_iff : t.contains root = true ↔ ∃ i, t.position? root = some i := by
  unfold contains position?
  rw [Std.ExtTreeMap.contains_eq_isSome_getElem?, Option.isSome_iff_exists]

theorem contains_eq_false_iff : t.contains root = false ↔ t.position? root = none := by
  unfold contains position?
  rw [Std.ExtTreeMap.contains_eq_isSome_getElem?, Option.isSome_eq_false_iff,
    Option.isNone_iff_eq_none]

theorem node?_eq_bind (t : Tree) (root : Root) :
    t.node? root = (t.position? root).bind fun i => t.nodes[i]? :=
  rfl

theorem Sound.node?_root (h : Sound t) (hn : t.nodes[i]? = some n) :
    t.node? n.root = some n := by
  rw [node?_eq_bind, h.position_root hn, Option.bind_some, hn]

theorem fresh_newNode (slot : Slot) {root : Root} (parentRoot stateRoot : Root)
    (justifiedEpoch finalizedEpoch : Epoch) (hroot : t.contains root = false) :
    Fresh t (t.newNode slot root parentRoot stateRoot justifiedEpoch finalizedEpoch) :=
  ⟨contains_eq_false_iff.mp hroot, rfl, rfl, rfl, rfl⟩

/-- Insertion fails if the root is known, and otherwise adds a block at
the end. -/
theorem insert_cases (t : Tree) (slot : Slot) (root parentRoot stateRoot : Root)
    (justifiedEpoch finalizedEpoch : Epoch) :
    (t.contains root = true
        ∧ t.insert slot root parentRoot stateRoot justifiedEpoch finalizedEpoch
          = .error (.blockAlreadyKnown root))
      ∨ (t.contains root = false
        ∧ t.insert slot root parentRoot stateRoot justifiedEpoch finalizedEpoch
          = .ok (t.extend
            (t.newNode slot root parentRoot stateRoot justifiedEpoch finalizedEpoch))) := by
  unfold insert
  cases hroot : t.contains root with
  | true => exact Or.inl ⟨rfl, rfl⟩
  | false => exact Or.inr ⟨rfl, rfl⟩

theorem get_extend (t : Tree) (n : Node) (i : Nat) :
    (t.extend n).nodes[i]? = if i = t.nodes.size then some n else t.nodes[i]? :=
  Array.getElem?_push

theorem position_extend (t : Tree) (n : Node) (root : Root) :
    (t.extend n).position? root
      = if n.root = root then some t.nodes.size else t.position? root := by
  unfold extend position?
  simp only [Std.ExtTreeMap.getElem?_insert, Std.LawfulEqOrd.compare_eq_iff_eq]

theorem contains_extend (t : Tree) (n : Node) (root : Root) :
    (t.extend n).contains root = true ↔ n.root = root ∨ t.contains root = true := by
  rw [contains_iff, contains_iff, position_extend]
  split
  case isTrue h => simp [h]
  case isFalse h => simp [h]

theorem get_extend_old (n : Node) (hi : i < t.nodes.size) :
    (t.extend n).nodes[i]? = t.nodes[i]? := by
  rw [get_extend, if_neg (by omega)]

theorem parentAt_extend (t : Tree) (n : Node) (i : Nat) :
    parentAt (t.extend n).nodes i
      = if i = t.nodes.size then n.parent else parentAt t.nodes i := by
  unfold parentAt
  rw [get_extend]
  split <;> rfl

/-- A new block changes no line of descent among the others. -/
theorem below_extend_old (hr : Rooted t.nodes) (n : Node) (hj : j < t.nodes.size) :
    Below (t.extend n).nodes i j ↔ Below t.nodes i j := by
  induction j using Nat.strongRecOn with
  | _ j ih =>
      rw [below_iff_parent, below_iff_parent, parentAt_extend, if_neg (by omega)]
      refine or_congr_right (exists_congr fun p => and_congr_right fun hp => ?_)
      have hpj := hr j p hp
      exact ih p hpj (by omega)

/-- A new block is below itself and whatever its parent is below. -/
theorem below_extend_new (hr : Rooted t.nodes)
    (hparent : ∀ p, n.parent = some p → p < t.nodes.size) :
    Below (t.extend n).nodes i t.nodes.size
      ↔ t.nodes.size = i ∨ ∃ p, n.parent = some p ∧ Below t.nodes i p := by
  rw [below_iff_parent, parentAt_extend, if_pos rfl]
  refine or_congr_right (exists_congr fun p => and_congr_right fun hp => ?_)
  exact below_extend_old hr n (hparent p hp)

theorem viableAt_extend_old (n : Node) (hi : i < t.nodes.size) :
    (t.extend n).ViableAt i ↔ t.ViableAt i := by
  unfold ViableAt
  rw [get_extend_old n hi]
  rfl

theorem bestChildAt_extend (t : Tree) (hchild : n.bestChild = none) (i : Nat) :
    bestChildAt (t.extend n).nodes i = bestChildAt t.nodes i := by
  unfold bestChildAt
  rw [get_extend]
  by_cases hi : i = t.nodes.size
  · rw [if_pos hi, hi, Array.getElem?_eq_none (Nat.le_refl _)]
    exact hchild
  · rw [if_neg hi]

theorem bestDescendantAt_extend (t : Tree) (hdesc : n.bestDescendant = none) (i : Nat) :
    bestDescendantAt (t.extend n).nodes i = bestDescendantAt t.nodes i := by
  unfold bestDescendantAt
  rw [get_extend]
  by_cases hi : i = t.nodes.size
  · rw [if_pos hi, hi, Array.getElem?_eq_none (Nat.le_refl _)]
    exact hdesc
  · rw [if_neg hi]

/-- Old blocks are found where they were, and the new one at the end. -/
theorem Sound.position_extend_iff (h : Sound t) (hn : Fresh t n) (root : Root) (i : Nat) :
    (t.extend n).position? root = some i
      ↔ ∃ m, (t.extend n).nodes[i]? = some m ∧ m.root = root := by
  rw [position_extend, get_extend]
  by_cases hroot : n.root = root
  · subst hroot
    rw [if_pos rfl]
    by_cases hi : i = t.nodes.size
    · simp [hi]
    · rw [if_neg hi]
      refine ⟨fun h => ?_, fun ⟨m, hm, hroot⟩ => ?_⟩
      · injection h with h
        exact absurd h.symm hi
      · have habsent := hn.absent
        rw [← hroot, h.position_root hm] at habsent
        cases habsent
  · rw [if_neg hroot, h.position]
    by_cases hi : i = t.nodes.size
    · rw [if_pos hi, hi, Array.getElem?_eq_none (Nat.le_refl _)]
      simp [hroot]
    · rw [if_neg hi]

/-- A new block without links keeps a tree sound if its parent link is
what its parent's root is found at. -/
theorem Sound.extend (h : Sound t) (hn : Fresh t n) : Sound (t.extend n) where
  position := h.position_extend_iff hn
  rooted := by
    intro i p hp
    rw [parentAt_extend] at hp
    by_cases hi : i = t.nodes.size
    · rw [if_pos hi, hn.parent] at hp
      exact hi ▸ h.lt_size_of_position hp
    · rw [if_neg hi] at hp
      exact h.rooted i p hp
  parentRoot := by
    intro i m p hm hp
    rw [get_extend] at hm
    by_cases hi : i = t.nodes.size
    · rw [if_pos hi] at hm
      injection hm with hm
      subst hm
      rw [hn.parent] at hp
      rw [get_extend_old _ (h.lt_size_of_position hp)]
      exact h.get_position hp
    · rw [if_neg hi] at hm
      obtain ⟨o, ho, hroot⟩ := h.parentRoot i m p hm hp
      have hlt := (Array.getElem?_eq_some_iff.mp ho).1
      exact ⟨o, by rw [get_extend_old _ hlt]; exact ho, hroot⟩
  child := by
    intro i b hb
    rw [bestChildAt_extend t hn.bestChild] at hb
    have hpar := h.child i b hb
    have hlt := lt_size_of_parentAt hpar
    rw [parentAt_extend, if_neg (by omega)]
    exact hpar
  alone := by
    intro i hi
    rw [bestChildAt_extend t hn.bestChild] at hi
    rw [bestDescendantAt_extend t hn.bestDescendant]
    exact h.alone i hi
  descendant := by
    intro i b hb
    rw [bestChildAt_extend t hn.bestChild] at hb
    obtain ⟨d, hd, hbelow, hviable⟩ := h.descendant i b hb
    have hlt := hbelow.lt_size (lt_size_of_parentAt (h.child i b hb))
    refine ⟨d, ?_, (below_extend_old h.rooted n hlt).mpr hbelow,
      (viableAt_extend_old n hlt).mpr hviable⟩
    rw [bestDescendantAt_extend t hn.bestDescendant]
    exact hd

/-- Insertion keeps a tree sound. -/
theorem Sound.insert (h : Sound t) {slot : Slot} {root parentRoot stateRoot : Root}
    {justifiedEpoch finalizedEpoch : Epoch}
    (hok : t.insert slot root parentRoot stateRoot justifiedEpoch finalizedEpoch = .ok t') :
    Sound t' := by
  rcases t.insert_cases slot root parentRoot stateRoot justifiedEpoch finalizedEpoch with
    ⟨-, herror⟩ | ⟨hroot, heq⟩
  · rw [herror] at hok
    cases hok
  · rw [heq] at hok
    injection hok with hok
    rw [← hok]
    exact h.extend (fresh_newNode _ _ _ _ _ hroot)

-- ============================================================= the head

/-- The answer of a search for the head that ends at a block. -/
def verdict (t : Tree) (n : Node) : Except Error Root :=
  if t.isViable n then .ok n.root
  else .error (.headNotViable n.root n.justifiedEpoch n.finalizedEpoch t.justifiedEpoch
    t.finalizedEpoch)

/-- A search for the head fails at once if its start is unknown, and
otherwise ends at the best descendant of its start. -/
theorem Sound.findHead_cases (h : Sound t) (root : Root) :
    (t.position? root = none ∧ t.findHead root = .error (.justifiedUnknown root))
      ∨ ∃ i n, t.position? root = some i
        ∧ t.nodes[(bestDescendantAt t.nodes i).getD i]? = some n
        ∧ t.findHead root = t.verdict n := by
  unfold findHead
  cases hpos : t.position? root with
  | none => exact Or.inl ⟨rfl, rfl⟩
  | some i =>
      obtain ⟨m, hm, -⟩ := h.get_position hpos
      have hdesc : bestDescendantAt t.nodes i = m.bestDescendant := by
        rw [bestDescendantAt, hm]
        rfl
      have hlt : m.bestDescendant.getD i < t.nodes.size := by
        cases hd : m.bestDescendant with
        | none => exact h.lt_size_of_position hpos
        | some d =>
            exact (h.refreshing.below i d (hdesc.trans hd)).lt_size (h.lt_size_of_position hpos)
      have hn := Array.getElem?_eq_getElem hlt
      refine Or.inr ⟨i, _, rfl, by rw [hdesc]; exact hn, ?_⟩
      simp only [hm, hn]
      unfold verdict
      split
      case isTrue => rfl
      case isFalse => rfl

/-- A head that is found is the root of a viable block, the best
descendant of the start or the start itself. -/
theorem Sound.findHead_eq_ok_iff (h : Sound t) {top : Root} :
    t.findHead root = .ok top
      ↔ ∃ i n, t.position? root = some i
        ∧ t.nodes[(bestDescendantAt t.nodes i).getD i]? = some n
        ∧ t.isViable n = true ∧ n.root = top := by
  rcases h.findHead_cases root with ⟨hpos, heq⟩ | ⟨i, n, hpos, hn, heq⟩
  · rw [heq, hpos]
    simp
  · rw [heq, hpos]
    unfold verdict
    constructor
    · intro hok
      split at hok
      case isFalse => cases hok
      case isTrue hviable =>
        injection hok with hok
        exact ⟨i, n, rfl, hn, hviable, hok⟩
    · intro ⟨j, m, hj, hm, hviable, hroot⟩
      injection hj with hj
      rw [← hj, hn] at hm
      injection hm with hm
      rw [hm, if_pos hviable, hroot]

end ChainHead.Tree
