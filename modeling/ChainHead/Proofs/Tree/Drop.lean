/-
What dropping blocks leaves: the rest of the array, every link moved.

Positions shrink by the number of blocks dropped, so the blocks that
stay are as they were under another numbering (`Dropped`). The one
thing that is lost is a parent link into the part that went. No other
link points there, in a sound tree: a best child and a best descendant
come after the block that names them. So the checks that dropping makes
on the way all pass (`Sound.prune_cases`), and what hangs below a block
that stays is what hung there before (`Dropped.below_iff`).
-/
import ChainHead.Proofs.Map
import ChainHead.Proofs.Tree.Sound
import ChainHead.Tree.Prune

namespace ChainHead.Tree

variable {t t' : Tree} {nodes : Array Node} {n : Node} {root : Root}
variable {count b c i j p : Nat}

-- ========================================================= positions

theorem shift?_of_le (h : count ≤ i) : shift? count i = some (i - count) :=
  if_pos h

theorem shift?_of_lt (h : i < count) : shift? count i = none :=
  if_neg (Nat.not_le_of_lt h)

theorem shift?_eq_some_iff : shift? count i = some j ↔ i = j + count := by
  unfold shift?
  split
  case isTrue h =>
    rw [Option.some.injEq]
    omega
  case isFalse h =>
    constructor
    · intro h
      cases h
    · intro h
      omega

/-- What is not too early is moved, and the rest goes. -/
theorem map_filter_eq_bind (o : Option Nat) :
    (o.filter (count ≤ ·)).map (· - count) = o.bind (shift? count) := by
  cases o with
  | none => rfl
  | some i =>
      rw [Option.filter_some, Option.bind_some]
      by_cases hi : count ≤ i
      · rw [if_pos (by simpa using hi), shift?_of_le hi]
        rfl
      · rw [if_neg (by simpa using hi), shift?_of_lt (Nat.lt_of_not_le hi)]
        rfl

/-- A block with its links moved. -/
def shifted (count : Nat) (n : Node) : Node :=
  { n with
    parent := n.parent.bind (shift? count)
    bestChild := n.bestChild.map (· - count)
    bestDescendant := n.bestDescendant.map (· - count) }

/-- A tree without the first blocks of another, and all else as it was. -/
structure Dropped (count : Nat) (t t' : Tree) : Prop where
  get : ∀ i : Nat, t'.nodes[i]? = t.nodes[i + count]?.map (shifted count)
  position : ∀ root, t'.position? root = (t.position? root).bind (shift? count)
  justifiedEpoch : t'.justifiedEpoch = t.justifiedEpoch
  finalizedEpoch : t'.finalizedEpoch = t.finalizedEpoch

-- ===================================================== no check fails

/-- The roots of the first blocks are those found at their positions. -/
theorem Sound.mem_first_iff (h : Sound t) (count : Nat) (root : Root) :
    root ∈ (t.nodes.extract 0 count).toList.map (·.root)
      ↔ ∃ i < count, t.position? root = some i := by
  simp only [List.mem_map, Array.mem_toList_iff, Array.mem_iff_getElem?,
    Array.getElem?_extract]
  constructor
  · rintro ⟨n, ⟨i, hi⟩, hroot⟩
    split at hi
    case isFalse => cases hi
    case isTrue hlt =>
      rw [Nat.zero_add] at hi
      exact ⟨i, by omega, (h.position root i).mpr ⟨n, hi, hroot⟩⟩
  · rintro ⟨i, hi, hpos⟩
    obtain ⟨n, hn, hroot⟩ := h.get_position hpos
    have hlt := h.lt_size_of_position hpos
    exact ⟨n, ⟨i, by rw [if_pos (by omega), Nat.zero_add]; exact hn⟩, hroot⟩

/-- Without the first blocks, the index finds the others as before. -/
theorem Sound.getElem?_drained (h : Sound t) (count : Nat) (root : Root) :
    (((t.nodes.extract 0 count).toList.map (·.root)).foldl (fun m root => m.erase root)
        t.positions)[root]?
      = (t.position? root).filter (count ≤ ·) := by
  rw [Map.getElem?_foldl_erase]
  simp only [h.mem_first_iff]
  show _ = Option.filter _ t.positions[root]?
  unfold position?
  cases hpos : t.positions[root]? with
  | none => simp
  | some i =>
      by_cases hi : i < count
      · rw [if_pos ⟨i, hi, rfl⟩, Option.filter_some, if_neg (by simpa using hi)]
      · rw [if_neg (fun ⟨j, hj, heq⟩ => hi (by injection heq with heq; omega)),
          Option.filter_some, if_pos (by simpa using hi)]

/-- An index without early positions is moved without complaint. -/
theorem shiftPositions_eq_ok {positions : Std.ExtTreeMap Root Nat}
    (h : ∀ (root : Root) (i : Nat), positions[root]? = some i → count ≤ i) :
    shiftPositions count positions = .ok (positions.map fun _ i => i - count) := by
  unfold shiftPositions
  rw [List.find?_eq_none.mpr]
  rintro ⟨root, i⟩ hmem
  have := h root i (Std.ExtTreeMap.mem_toList_iff_getElem?_eq_some.mp hmem)
  simpa using this

/-- A block whose best links stay is moved without complaint. -/
theorem shiftNode_eq_ok (hchild : ∀ b, n.bestChild = some b → count ≤ b)
    (hdesc : ∀ d, n.bestDescendant = some d → count ≤ d) :
    shiftNode count n = .ok (shifted count n) := by
  unfold shiftNode shifted
  cases hb : n.bestChild with
  | none =>
      cases hd : n.bestDescendant with
      | none => rfl
      | some d =>
          simp only [shift?_of_le (hdesc d hd)]
          rfl
  | some b =>
      cases hd : n.bestDescendant with
      | none =>
          simp only [shift?_of_le (hchild b hb)]
          rfl
      | some d =>
          simp only [shift?_of_le (hchild b hb), shift?_of_le (hdesc d hd)]
          rfl

theorem mapM_eq_ok {α β ε : Type} {f : α → Except ε β} {g : α → β} {xs : List α}
    (h : ∀ x ∈ xs, f x = .ok (g x)) : xs.mapM f = .ok (xs.map g) := by
  induction xs with
  | nil => rfl
  | cons x xs ih =>
      rw [List.mapM_cons, h x List.mem_cons_self,
        ih fun y hy => h y (List.mem_cons_of_mem x hy)]
      rfl

/-- In a sound tree the best links of a block lead to later blocks. -/
theorem Sound.shiftNode_eq_ok (h : Sound t) (hi : count ≤ i) (hn : t.nodes[i]? = some n) :
    shiftNode count n = .ok (shifted count n) := by
  have hchild : bestChildAt t.nodes i = n.bestChild := by
    rw [bestChildAt, hn]
    rfl
  have hdesc : bestDescendantAt t.nodes i = n.bestDescendant := by
    rw [bestDescendantAt, hn]
    rfl
  refine Tree.shiftNode_eq_ok (fun b hb => ?_) fun d hd => ?_
  · have := h.rooted b i (h.child i b (hchild.trans hb))
    omega
  · have := (h.refreshing.below i d (hdesc.trans hd)).le h.rooted
    omega

/-- Dropping blocks fails only if the finalized block is unknown, and
then leaves the tree alone. -/
theorem Sound.prune_cases (h : Sound t) (root : Root) :
    (t.position? root = none ∧
        (t.prune root).value = (t, .error (.finalizedUnknown root)))
      ∨ ∃ count, t.position? root = some count ∧
        ((count < t.pruneThreshold ∧ (t.prune root).value = (t, .ok ()))
          ∨ (t.pruneThreshold ≤ count ∧
            ∃ t', (t.prune root).value = (t', .ok ()) ∧ Dropped count t t')) := by
  cases hpos : t.position? root with
  | none =>
      refine Or.inl ⟨rfl, ?_⟩
      simp only [prune, hpos, Logged.value_pure]
  | some count =>
      refine Or.inr ⟨count, rfl, ?_⟩
      by_cases hcount : count < t.pruneThreshold
      · refine Or.inl ⟨hcount, ?_⟩
        simp only [prune, hpos, if_pos hcount, Logged.value_pure]
      · refine Or.inr ⟨Nat.le_of_not_lt hcount, ?_⟩
        have hlate : ∀ (root : Root) (i : Nat),
            (((t.nodes.extract 0 count).toList.map (·.root)).foldl (fun m root => m.erase root)
              t.positions)[root]? = some i → count ≤ i := by
          intro root i hi
          rw [h.getElem?_drained, Option.filter_eq_some_iff] at hi
          simpa using hi.2
        have hpositions := shiftPositions_eq_ok hlate
        have hnodes : (t.nodes.extract count t.nodes.size).toList.mapM (shiftNode count)
            = .ok ((t.nodes.extract count t.nodes.size).toList.map (shifted count)) := by
          refine mapM_eq_ok fun n hn => ?_
          rw [Array.mem_toList_iff, Array.mem_iff_getElem?] at hn
          obtain ⟨i, hi⟩ := hn
          rw [Array.getElem?_extract] at hi
          split at hi
          case isFalse => cases hi
          case isTrue => exact h.shiftNode_eq_ok (Nat.le_add_right count i) hi
        simp only [prune, hpos, if_neg hcount, hpositions, hnodes, Logged.value_bind,
          Logged.value_pure]
        refine ⟨_, rfl, ?_, ?_, rfl, rfl⟩
        · intro i
          simp only [List.getElem?_toArray, List.getElem?_map, Array.getElem?_toList,
            Array.getElem?_extract, Nat.min_self, Nat.add_comm i count]
          split
          case isTrue => rfl
          case isFalse hi => rw [Array.getElem?_eq_none (by omega)]
        · intro root
          unfold position?
          simp only [Std.ExtTreeMap.getElem?_map, h.getElem?_drained]
          exact map_filter_eq_bind _

-- ====================================================== what is kept

namespace Dropped

theorem parentAt (h : Dropped count t t') (i : Nat) :
    parentAt t'.nodes i = (parentAt t.nodes (i + count)).bind (shift? count) := by
  unfold Tree.parentAt
  rw [h.get]
  cases t.nodes[i + count]? with
  | none => rfl
  | some n => rfl

theorem bestChildAt (h : Dropped count t t') (i : Nat) :
    bestChildAt t'.nodes i = (bestChildAt t.nodes (i + count)).map (· - count) := by
  unfold Tree.bestChildAt
  rw [h.get]
  cases t.nodes[i + count]? with
  | none => rfl
  | some n => rfl

theorem bestDescendantAt (h : Dropped count t t') (i : Nat) :
    bestDescendantAt t'.nodes i
      = (bestDescendantAt t.nodes (i + count)).map (· - count) := by
  unfold Tree.bestDescendantAt
  rw [h.get]
  cases t.nodes[i + count]? with
  | none => rfl
  | some n => rfl

theorem viableAt (h : Dropped count t t') (i : Nat) :
    t'.ViableAt i ↔ t.ViableAt (i + count) := by
  have hviable : ∀ n, t'.isViable (shifted count n) = t.isViable n := by
    intro n
    simp only [isViable, shifted, h.justifiedEpoch, h.finalizedEpoch]
  unfold ViableAt
  rw [h.get]
  simp [hviable]

/-- A parent that stays is still a parent. -/
theorem parentAt_eq_some_iff (h : Dropped count t t') :
    Tree.parentAt t'.nodes i = some p ↔ Tree.parentAt t.nodes (i + count) = some (p + count) := by
  rw [h.parentAt, Option.bind_eq_some_iff]
  simp only [shift?_eq_some_iff]
  constructor
  · rintro ⟨q, hq, rfl⟩
    exact hq
  · intro hp
    exact ⟨p + count, hp, rfl⟩

/-- Among the blocks that stay, descent is as it was: the way from a
block down to another never leads through an earlier one. -/
theorem below_iff (h : Dropped count t t') (hr : Rooted t.nodes) :
    Below t'.nodes i j ↔ Below t.nodes (i + count) (j + count) := by
  induction j using Nat.strongRecOn with
  | _ j ih =>
      rw [below_iff_parent, below_iff_parent]
      refine or_congr (by omega) ⟨?_, ?_⟩
      · rintro ⟨p, hp, hip⟩
        have hp' := h.parentAt_eq_some_iff.mp hp
        have := hr _ _ hp'
        exact ⟨p + count, hp', (ih p (by omega)).mp hip⟩
      · rintro ⟨q, hq, hiq⟩
        have hle := hiq.le hr
        have hlt := hr _ _ hq
        obtain ⟨p, rfl⟩ : ∃ p, q = p + count := ⟨q - count, by omega⟩
        exact ⟨p, h.parentAt_eq_some_iff.mpr hq, (ih p (by omega)).mpr hiq⟩

/-- Dropping blocks keeps a tree sound. -/
theorem sound (h : Dropped count t t') (hs : Sound t) : Sound t' where
  position := by
    intro root i
    rw [h.position, Option.bind_eq_some_iff, h.get]
    simp only [shift?_eq_some_iff, Option.map_eq_some_iff]
    constructor
    · rintro ⟨_, hi, rfl⟩
      obtain ⟨n, hn, hroot⟩ := hs.get_position hi
      exact ⟨shifted count n, ⟨n, hn, rfl⟩, hroot⟩
    · rintro ⟨_, ⟨n, hn, rfl⟩, hroot⟩
      exact ⟨i + count, (hs.position root _).mpr ⟨n, hn, hroot⟩, rfl⟩
  rooted := by
    intro i p hp
    have := hs.rooted _ _ (h.parentAt_eq_some_iff.mp hp)
    omega
  parentRoot := by
    intro i n' p hn' hp
    have hp' := h.parentAt_eq_some_iff.mp ((parentAt_of_get hn').trans hp)
    rw [h.get, Option.map_eq_some_iff] at hn'
    obtain ⟨n, hn, rfl⟩ := hn'
    rw [parentAt_of_get hn] at hp'
    obtain ⟨m, hm, hroot⟩ := hs.parentRoot _ n _ hn hp'
    exact ⟨shifted count m, by rw [h.get, hm]; rfl, hroot⟩
  child := by
    intro i b hb
    rw [h.bestChildAt, Option.map_eq_some_iff] at hb
    obtain ⟨b', hb', rfl⟩ := hb
    have hpar := hs.child _ b' hb'
    have hlt := hs.rooted _ _ hpar
    rw [h.parentAt_eq_some_iff, Nat.sub_add_cancel (by omega)]
    exact hpar
  alone := by
    intro i hi
    rw [h.bestChildAt, Option.map_eq_none_iff] at hi
    rw [h.bestDescendantAt, hs.alone _ hi]
    rfl
  descendant := by
    intro i b hb
    rw [h.bestChildAt, Option.map_eq_some_iff] at hb
    obtain ⟨b', hb', rfl⟩ := hb
    obtain ⟨d, hd, hbelow, hviable⟩ := hs.descendant _ b' hb'
    have hlt := hs.rooted _ _ (hs.child _ b' hb')
    have hle := hbelow.le hs.rooted
    refine ⟨d - count, by rw [h.bestDescendantAt, hd]; rfl, ?_, ?_⟩
    · rw [h.below_iff hs.rooted, Nat.sub_add_cancel (by omega),
        Nat.sub_add_cancel (by omega)]
      exact hbelow
    · rw [h.viableAt, Nat.sub_add_cancel (by omega)]
      exact hviable

end Dropped

/-- Whatever dropping blocks answers, it keeps a tree sound. -/
theorem Sound.prune (h : Sound t) (root : Root) : Sound (t.prune root).value.1 := by
  rcases h.prune_cases root with ⟨-, heq⟩ | ⟨count, -, ⟨-, heq⟩ | ⟨-, t', heq, hdropped⟩⟩
  · rw [heq]
    exact h
  · rw [heq]
    exact h
  · rw [heq]
    exact hdropped.sound h

end ChainHead.Tree
