/-
What can be asked about ancestors, read off one path.

`Path` follows parent links from a position to a block that has none,
without a bound on the number of steps. `ancestors` lists exactly that
(`Sound.path_ancestors`). The two questions that stop early have the
answers of the whole path as long as every block is later than its
parent (`Rising`): slots fall along a path, so every bound on slots cuts
it in two (`Traced`).

Dropping blocks cuts a path as well. Parents come first in the array, so
behind a block that went there is none that stayed, and what is left of
the path is the path in what is left of the tree (`Dropped.ancestors`).
The answers about blocks that stay are then those of before, without the
blocks that went (`Thinned`).
-/
import ChainHead.Proofs.Cut
import ChainHead.Proofs.Tree.Ancestry
import ChainHead.Proofs.Tree.Remainder

namespace ChainHead.Tree

variable {t t' : Tree} {nodes : Array Node} {n m : Node} {path path' : List Node}
variable {start : Option Nat} {root : Root} {slot : Slot} {count : Nat}

-- ============================================== statement vocabulary

/-- Following parent links from a position until a block has none. -/
inductive Path (nodes : Array Node) : Option Nat → List Node → Prop
  | done : Path nodes none []
  | step {i : Nat} {n : Node} {path : List Node} (hn : nodes[i]? = some n)
      (rest : Path nodes n.parent path) : Path nodes (some i) (n :: path)

/-- Whether every block is later than its parent. -/
def Rising (t : Tree) : Prop :=
  ∀ n ∈ t.nodes, ∀ p ∈ n.parent, ∀ m ∈ t.nodes[p]?, m.slot < n.slot

instance (t : Tree) : Decidable t.Rising :=
  inferInstanceAs (Decidable (∀ n ∈ t.nodes, ∀ p ∈ n.parent, ∀ m ∈ t.nodes[p]?, m.slot < n.slot))

/-- Whether what can be asked about ancestors is answered by the paths of
parent links: `ancestors` lists a path, and the others search it. -/
structure Traced (t : Tree) : Prop where
  ancestors : ∀ d, Path t.nodes (t.position? d) (t.ancestors d)
  isDescendant : ∀ a d, t.isDescendant a d = true
    ↔ t.contains a = true ∧ t.contains d = true ∧ ∃ n ∈ t.ancestors d, n.root = a
  ancestorAtSlot? : ∀ d slot a, t.ancestorAtSlot? d slot = some a
    ↔ ∃ n ∈ t.ancestors d, n.root = a ∧ n.slot ≤ slot
      ∧ ∀ m ∈ t.ancestors d, m.slot ≤ slot → m.slot ≤ n.slot
  noneAtSlot : ∀ d slot, t.ancestorAtSlot? d slot = none ↔ ∀ n ∈ t.ancestors d, slot < n.slot
  atOwnSlot : ∀ a d slot, t.slot? a = some slot →
    (t.ancestorAtSlot? d slot = some a ↔ t.isDescendant a d = true)

/-- A block without its links. -/
def detached (n : Node) : Node :=
  { unlinked n with parent := none }

/-- Whether the answers about the blocks of a tree are those of another,
without the blocks that are only there. -/
structure Thinned (t t' : Tree) : Prop where
  ancestors : ∀ d, (t'.ancestors d).map detached
    = ((t.ancestors d).filter fun n => t'.contains n.root).map detached
  isDescendant : ∀ a d, t'.contains a = true → t'.contains d = true →
    t'.isDescendant a d = t.isDescendant a d
  ancestorAtSlot? : ∀ d slot,
    t'.ancestorAtSlot? d slot = (t.ancestorAtSlot? d slot).filter t'.contains

-- =============================================================== paths

/-- There is no choice on the way up. -/
theorem Path.unique (h : Path nodes start path) (h' : Path nodes start path') : path = path' := by
  induction h generalizing path' with
  | done =>
      cases h'
      rfl
  | step hn _ ih =>
      cases h' with
      | step hn' rest' =>
          rw [hn, Option.some.injEq] at hn'
          subst hn'
          rw [ih rest']

/-- Whatever is on a path is above its start. -/
theorem Path.exists_below (h : Path nodes start path) (hn : n ∈ path) :
    ∃ i a : Nat, start = some i ∧ nodes[a]? = some n ∧ Below nodes a i := by
  induction h with
  | done => cases hn
  | step hm _ ih =>
      rcases List.mem_cons.mp hn with rfl | hlater
      · exact ⟨_, _, rfl, hm, Below.refl⟩
      · obtain ⟨p, a, hp, ha, habove⟩ := ih hlater
        exact ⟨_, a, rfl, ha, habove.trans (Below.of_parent ((parentAt_of_get hm).trans hp))⟩

/-- Slots fall along a path. -/
theorem Rising.pairwise_slot (h : t.Rising) (hpath : Path t.nodes start path) :
    path.Pairwise fun n m => m.slot < n.slot := by
  induction hpath with
  | done => exact .nil
  | @step i n path hn rest ih =>
      refine List.pairwise_cons.mpr ⟨fun m hm => ?_, ih⟩
      generalize hp : n.parent = parent at rest
      -- the next block is the parent, and the others are earlier than that
      cases rest with
      | done => cases hm
      | step hparent _ =>
          have hlt := h n (Array.mem_of_getElem? hn) _ hp _ hparent
          rcases List.mem_cons.mp hm with rfl | hlater
          · exact hlt
          · exact UInt64.lt_trans ((List.pairwise_cons.mp ih).1 m hlater) hlt

/-- Where slots fall, the first block that is early enough is the latest
of these. -/
theorem find?_slot_eq_some_iff (hfall : path.Pairwise fun n m => m.slot < n.slot) :
    path.find? (fun n => n.slot ≤ slot) = some n
      ↔ n ∈ path ∧ n.slot ≤ slot ∧ ∀ m ∈ path, m.slot ≤ slot → m.slot ≤ n.slot := by
  rw [List.find?_eq_some_iff_append]
  constructor
  · rintro ⟨hearly, before, behind, rfl, hbefore⟩
    refine ⟨by simp, of_decide_eq_true hearly, fun m hm hle => ?_⟩
    obtain ⟨-, hcons, -⟩ := List.pairwise_append.mp hfall
    rcases List.mem_append.mp hm with hm | hm
    · have hlate := hbefore m hm
      simp [hle] at hlate
    · rcases List.mem_cons.mp hm with rfl | hm
      · exact UInt64.le_refl _
      · exact UInt64.le_of_lt ((List.pairwise_cons.mp hcons).1 m hm)
  · rintro ⟨hn, hearly, hlatest⟩
    obtain ⟨before, behind, rfl⟩ := List.append_of_mem hn
    refine ⟨decide_eq_true hearly, before, behind, rfl, fun m hm => ?_⟩
    have hlt := (List.pairwise_append.mp hfall).2.2 m hm n List.mem_cons_self
    have hlate : ¬m.slot ≤ slot := fun hle =>
      UInt64.not_le.mpr hlt (hlatest m (List.mem_append_left _ hm) hle)
    simp [hlate]

namespace Sound

theorem path_pathFrom (hr : Rooted nodes) {i steps : Nat} (hsteps : i < steps)
    (hi : i < nodes.size) : Path nodes (some i) (pathFrom nodes steps (some i)) := by
  induction steps generalizing i with
  | zero => exact absurd hsteps (Nat.not_lt_zero i)
  | succ steps ih =>
      have hn := Array.getElem?_eq_getElem hi
      generalize nodes[i] = n at hn
      unfold pathFrom
      rw [hn]
      refine .step hn ?_
      cases hp : n.parent with
      | none =>
          rw [pathFrom_none]
          exact .done
      | some p =>
          have hlt : p < i := hr i p ((parentAt_of_get hn).trans hp)
          exact ih (by omega) (by omega)

/-- The bound on the number of steps never cuts a path short. -/
theorem path_ancestors (h : Sound t) (d : Root) :
    Path t.nodes (t.position? d) (t.ancestors d) := by
  unfold ancestors
  cases hi : t.position? d with
  | none =>
      rw [pathFrom_none]
      exact .done
  | some i =>
      have hlt := h.lt_size_of_position hi
      exact path_pathFrom h.rooted hlt hlt

/-- An ancestor and its descendant are both in the tree. -/
theorem node?_of_mem_ancestors (h : Sound t) {d : Root} (hn : n ∈ t.ancestors d) :
    t.node? n.root = some n ∧ t.contains n.root = true ∧ t.contains d = true := by
  obtain ⟨i, a, hi, ha, -⟩ := (h.path_ancestors d).exists_below hn
  exact ⟨h.node?_root ha, contains_iff.mpr ⟨a, h.position_root ha⟩, contains_iff.mpr ⟨i, hi⟩⟩

-- ============================================================== answers

theorem isDescendant_iff (h : Sound t) (hrising : t.Rising) (a d : Root) :
    t.isDescendant a d = true ↔ ∃ n ∈ t.ancestors d, n.root = a := by
  unfold isDescendant
  cases ha : t.node? a with
  | none =>
      refine iff_of_false Bool.false_ne_true ?_
      rintro ⟨n, hn, rfl⟩
      rw [(h.node?_of_mem_ancestors hn).1] at ha
      cases ha
  | some x =>
      have hcut : Cut (fun n => decide (x.slot ≤ n.slot)) (t.ancestors d) :=
        (hrising.pairwise_slot (h.path_ancestors d)).imp fun hlt hle =>
          decide_eq_true (UInt64.le_trans (of_decide_eq_true hle) (UInt64.le_of_lt hlt))
      dsimp only
      rw [hcut.takeWhile_eq_filter, List.any_eq_true]
      constructor
      · rintro ⟨n, hn, hroot⟩
        exact ⟨n, List.mem_of_mem_filter hn, beq_iff_eq.mp hroot⟩
      · rintro ⟨n, hn, rfl⟩
        -- the block that is found is the one that is looked for
        have hsame := (h.node?_of_mem_ancestors hn).1
        rw [ha, Option.some.injEq] at hsame
        refine ⟨n, List.mem_filter.mpr ⟨hn, decide_eq_true ?_⟩, beq_self_eq_true _⟩
        rw [hsame]
        exact UInt64.le_refl _

theorem traced (h : Sound t) (hrising : t.Rising) : Traced t where
  ancestors := h.path_ancestors
  isDescendant := by
    intro a d
    rw [h.isDescendant_iff hrising]
    constructor
    · rintro ⟨n, hn, rfl⟩
      obtain ⟨-, ha, hd⟩ := h.node?_of_mem_ancestors hn
      exact ⟨ha, hd, n, hn, rfl⟩
    · rintro ⟨-, -, hfound⟩
      exact hfound
  ancestorAtSlot? := by
    intro d slot a
    unfold Tree.ancestorAtSlot?
    rw [Option.map_eq_some_iff]
    simp only [find?_slot_eq_some_iff (hrising.pairwise_slot (h.path_ancestors d))]
    constructor
    · rintro ⟨n, ⟨hn, hearly, hlatest⟩, hroot⟩
      exact ⟨n, hn, hroot, hearly, hlatest⟩
    · rintro ⟨n, hn, hroot, hearly, hlatest⟩
      exact ⟨n, ⟨hn, hearly, hlatest⟩, hroot⟩
  noneAtSlot := by
    intro d slot
    unfold Tree.ancestorAtSlot?
    rw [Option.map_eq_none_iff, List.find?_eq_none]
    simp
  atOwnSlot := by
    intro a d slot hslot
    have hfall := hrising.pairwise_slot (h.path_ancestors d)
    unfold Tree.ancestorAtSlot?
    rw [h.isDescendant_iff hrising, Option.map_eq_some_iff]
    simp only [find?_slot_eq_some_iff hfall]
    constructor
    · rintro ⟨n, ⟨hn, -⟩, hroot⟩
      exact ⟨n, hn, hroot⟩
    · rintro ⟨n, hn, rfl⟩
      -- no ancestor of that slot or before is later than it
      have hsame : n.slot = slot := by
        rw [slot?, (h.node?_of_mem_ancestors hn).1, Option.map_some, Option.some.injEq] at hslot
        exact hslot
      exact ⟨n, ⟨hn, hsame ▸ UInt64.le_refl _, fun m _ hle => hsame ▸ hle⟩, rfl⟩

end Sound

-- ====================================================== dropping blocks

namespace Dropped

theorem rising (h : Dropped count t t') (hrising : t.Rising) : t'.Rising := by
  intro n' hn' p hp m' hm'
  obtain ⟨i, hi⟩ := Array.mem_iff_getElem?.mp hn'
  rw [h.get, Option.map_eq_some_iff] at hi
  obtain ⟨n, hn, rfl⟩ := hi
  obtain ⟨q, hq, hshift⟩ := Option.bind_eq_some_iff.mp (Option.mem_def.mp hp)
  rw [Option.mem_def, h.get, Option.map_eq_some_iff] at hm'
  obtain ⟨m, hm, rfl⟩ := hm'
  rw [← shift?_eq_some_iff.mp hshift] at hm
  exact hrising n (Array.mem_of_getElem? hn) q hq m hm

/-- A block is left if it does not stand among the first. -/
theorem contains_root_iff (h : Dropped count t t') (hs : Sound t) {i : Nat}
    (hn : t.nodes[i]? = some n) : t'.contains n.root = true ↔ count ≤ i := by
  rw [contains_iff, h.position, hs.position_root hn, Option.bind_some]
  constructor
  · rintro ⟨j, hj⟩
    rw [shift?_eq_some_iff] at hj
    omega
  · intro hle
    exact ⟨_, shift?_of_le hle⟩

/-- Behind a block that went, none on a path is left. -/
theorem cut (h : Dropped count t t') (hs : Sound t) (hpath : Path t.nodes start path) :
    Cut (fun n => t'.contains n.root) path := by
  induction hpath with
  | done => exact .nil
  | step hn rest ih =>
      refine List.pairwise_cons.mpr ⟨fun m hm hleft => ?_, ih⟩
      obtain ⟨i, a, hi, ha, habove⟩ := rest.exists_below hm
      have hle := habove.le hs.rooted
      have hlt := hs.rooted _ i ((parentAt_of_get hn).trans hi)
      have hcount := (h.contains_root_iff hs ha).mp hleft
      exact (h.contains_root_iff hs hn).mpr (by omega)

/-- What is left of a path is a path of what is left. -/
theorem path_filter (h : Dropped count t t') (hs : Sound t) (hpath : Path t.nodes start path) :
    Path t'.nodes (start.bind (shift? count))
      ((path.filter fun n => t'.contains n.root).map (shifted count)) := by
  induction hpath with
  | done => exact .done
  | @step i n path hn rest ih =>
      have hleft := h.contains_root_iff hs hn
      rw [Option.bind_some]
      by_cases hi : count ≤ i
      · rw [shift?_of_le hi, List.filter_cons, if_pos (hleft.mpr hi), List.map_cons]
        refine .step ?_ ih
        rw [h.get, Nat.sub_add_cancel hi, hn]
        rfl
      · have hcut := h.cut hs (.step hn rest)
        rw [shift?_of_lt (Nat.lt_of_not_le hi),
          hcut.filter_cons_of_false (Bool.eq_false_iff.mpr (mt hleft.mp hi))]
        exact .done

theorem ancestors (h : Dropped count t t') (hs : Sound t) (d : Root) :
    t'.ancestors d
      = ((t.ancestors d).filter fun n => t'.contains n.root).map (shifted count) := by
  have hpath := h.path_filter hs (hs.path_ancestors d)
  rw [← h.position] at hpath
  exact ((h.sound hs).path_ancestors d).unique hpath

theorem thinned (h : Dropped count t t') (hs : Sound t) (hrising : t.Rising) :
    Thinned t t' where
  ancestors := by
    intro d
    rw [h.ancestors hs, List.map_map]
    rfl
  isDescendant := by
    intro a d ha _
    rw [Bool.eq_iff_iff, (h.sound hs).isDescendant_iff (h.rising hrising),
      hs.isDescendant_iff hrising, h.ancestors hs]
    simp only [List.mem_map, List.mem_filter]
    constructor
    · rintro ⟨_, ⟨n, ⟨hn, -⟩, rfl⟩, hroot⟩
      exact ⟨n, hn, hroot⟩
    · rintro ⟨n, hn, rfl⟩
      exact ⟨_, ⟨n, ⟨hn, ha⟩, rfl⟩, rfl⟩
  ancestorAtSlot? := by
    intro d slot
    unfold Tree.ancestorAtSlot?
    have hcut := h.cut hs (hs.path_ancestors d)
    rw [h.ancestors hs, List.find?_map, Option.map_map, Option.filter_map]
    -- moving its links changes neither the root nor the slot of a block
    exact congrArg (Option.map fun n => n.root) (hcut.find?_filter fun n => n.slot ≤ slot)

end Dropped

/-- Whatever dropping blocks answers, what it leaves is the tree without
some of the first blocks, or with all. -/
theorem Sound.exists_dropped (h : Sound t) (root : Root) :
    ∃ count, Dropped count t (t.prune root).value.1 := by
  rcases h.prune_cases root with ⟨-, heq⟩ | ⟨count, -, ⟨-, heq⟩ | ⟨-, t', heq, hdropped⟩⟩
  · rw [heq]
    exact ⟨0, .refl t⟩
  · rw [heq]
    exact ⟨0, .refl t⟩
  · rw [heq]
    exact ⟨count, hdropped⟩

/-- After any run in which every block is later than its parent, what can
be asked about ancestors is answered by the paths of parent links, and
dropping blocks changes no answer but that those dropped are missing. -/
theorem traced_after (justifiedEpoch finalizedEpoch : Epoch) (pruneThreshold : Nat)
    (calls : List Call)
    (h : ((empty justifiedEpoch finalizedEpoch pruneThreshold).after calls).Rising) :
    let t := (empty justifiedEpoch finalizedEpoch pruneThreshold).after calls
    Traced t ∧ ∀ root, Thinned t (t.prune root).value.1 := by
  intro t
  have hsound : Sound t := (sound_empty justifiedEpoch finalizedEpoch pruneThreshold).after calls
  refine ⟨hsound.traced h, fun root => ?_⟩
  obtain ⟨count, hdropped⟩ := hsound.exists_dropped root
  exact hdropped.thinned hsound h

/-- A block with two children, of which one has a child of its own. -/
def fork : List Call :=
  [.insert 5 4 2 0 0 0,
    .insert 3 3 1 0 0 0,
    .insert 2 2 1 0 0 0,
    .insert 0 1 0 0 0 0]

/-- When the first child is finalized, the block at the fork is dropped:
the other child has no ancestors then, and the grandchild has one that
stays. -/
theorem traced_after_fork :
    let t := (empty 0 0 0).after fork
    let t' := (t.prune 2).value.1
    (t.Rising
        ∧ (t.ancestors 4).map (fun n => n.root) = [4, 2, 1]
        ∧ t.isDescendant 1 4 = true ∧ t.isDescendant 3 4 = false
        ∧ t.ancestorAtSlot? 4 4 = some 2 ∧ t.ancestorAtSlot? 4 1 = some 1
        ∧ (t'.ancestors 4).map (fun n => n.root) = [4, 2]
        ∧ (t'.ancestors 3).map (fun n => n.root) = [3]
        ∧ t'.ancestorAtSlot? 4 1 = none)
      ∧ Traced t ∧ ∀ root, Thinned t (t.prune root).value.1 := by
  refine (and_iff_left_of_imp fun hseen => traced_after 0 0 0 fork hseen.1).mpr ?_
  decide +kernel

end ChainHead.Tree
