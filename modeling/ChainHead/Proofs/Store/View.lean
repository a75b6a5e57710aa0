/-
Stores that hold the same blocks answer the same.

A tree keeps its blocks in the order of their arrival, and positions are
all it works with. But what a head update reads of a tree can be asked
root by root: the entry of a block, with its parent named by root, and
its weight (`Tree.view?`). Two trees with one view are embedded in each
other (`Sound.embeds`), so two stores that agree on views, votes and
balances (`Matches`) agree on the outcome of a head update, except for
the position at which a sum did not fit (`Matches.updateHead`).
-/
import ChainHead.Proofs.Store.Calls
import ChainHead.Proofs.Store.Outline
import ChainHead.Proofs.Tree.Embedding

namespace ChainHead

namespace Tree

variable {t u : Tree} {n m : Node} {root : Root} {i : Nat}

-- =============================================================== views

/-- What a head update reads of a block. -/
def view? (t : Tree) (root : Root) : Option (Ghost × Gwei) :=
  (t.node? root).map fun n => (t.ghost n, n.weight)

theorem Sound.view?_root (h : Sound t) (hn : t.nodes[i]? = some n) :
    t.view? n.root = some (t.ghost n, n.weight) := by
  rw [view?, h.node?_root hn, Option.map_some]

/-- What is seen is a block of the tree. -/
theorem Sound.get_of_view? (h : Sound t) {g : Ghost × Gwei} (hview : t.view? root = some g) :
    ∃ (i : Nat) (n : Node), t.nodes[i]? = some n ∧ n.root = root ∧ g = (t.ghost n, n.weight) := by
  rw [view?, node?_eq_bind, Option.map_eq_some_iff] at hview
  obtain ⟨n, hnode, hg⟩ := hview
  obtain ⟨i, hi, hn⟩ := Option.bind_eq_some_iff.mp hnode
  obtain ⟨m, hm, hroot⟩ := h.get_position hi
  rw [hn, Option.some.injEq] at hm
  exact ⟨i, n, hn, hm ▸ hroot, hg.symm⟩

theorem Sound.view?_eq_none_iff (h : Sound t) :
    t.view? root = none ↔ t.position? root = none := by
  rw [view?, node?_eq_bind, Option.map_eq_none_iff]
  cases hi : t.position? root with
  | none => simp
  | some i =>
      obtain ⟨n, hn, -⟩ := h.get_position hi
      simp [hn]

theorem Sound.weight?_root (h : Sound t) (hn : t.nodes[i]? = some n) :
    t.weight? n.root = some n.weight := by
  rw [weight?, h.node?_root hn, Option.map_some]

/-- The parent that is seen is the block at the parent link. -/
theorem Sound.parent_ghost_iff (h : Sound t) (hm : t.nodes[i]? = some m) {j : Nat}
    (hn : t.nodes[j]? = some n) :
    (t.ghost m).parent = some n.root ↔ parentAt t.nodes i = some j := by
  rw [parentAt_of_get hm]
  show (m.parent.bind fun p => t.nodes[p]?.map (·.root)) = some n.root ↔ _
  rw [Option.bind_eq_some_iff]
  constructor
  · intro ⟨p, hp, hroot⟩
    obtain ⟨o, ho, hroot⟩ := Option.map_eq_some_iff.mp hroot
    rw [hp, h.root_injective ho hn hroot]
  · intro hp
    exact ⟨j, hp, by rw [hn]; rfl⟩

-- ====================================================== views and blocks

/-- What is seen of a block when it arrives. -/
def born (root parentRoot : Root) (linked : Bool) (justifiedEpoch finalizedEpoch : Epoch) :
    Ghost × Gwei :=
  ({ root, parent := if linked then some parentRoot else none, justifiedEpoch, finalizedEpoch },
    0)

theorem Sound.view?_extend_new (h : Sound t) (hn : Fresh t n) :
    (t.extend n).view? n.root = some (born n.root n.parentRoot (t.contains n.parentRoot)
      n.justifiedEpoch n.finalizedEpoch) := by
  have hlast : (t.extend n).nodes[t.nodes.size]? = some n := by
    rw [get_extend, if_pos rfl]
  rw [(h.extend hn).view?_root hlast, hn.weight, born, ghost, hn.parent]
  cases hp : t.position? n.parentRoot with
  | none =>
      rw [contains_eq_false_iff.mpr hp]
      rfl
  | some p =>
      obtain ⟨o, ho, hroot⟩ := h.get_position hp
      rw [contains_iff.mpr ⟨p, hp⟩, Option.bind_some,
        get_extend_old n (h.lt_size_of_position hp), ho, Option.map_some, hroot]
      rfl

/-- A new block changes nothing about the others. -/
theorem Sound.view?_extend_old (h : Sound t) (n : Node) (hroot : n.root ≠ root) :
    (t.extend n).view? root = t.view? root := by
  rw [view?, view?, node?_eq_bind, node?_eq_bind, position_extend, if_neg hroot]
  cases hi : t.position? root with
  | none => rfl
  | some i =>
      obtain ⟨m, hm, -⟩ := h.get_position hi
      have hghost : (t.extend n).ghost m = t.ghost m := by
        unfold ghost
        cases hp : m.parent with
        | none => rfl
        | some p =>
            obtain ⟨o, ho, -⟩ := h.parentRoot i m p hm hp
            have hlt := (Array.getElem?_eq_some_iff.mp ho).1
            rw [Option.bind_some, Option.bind_some, get_extend_old n hlt]
      rw [Option.bind_some, Option.bind_some, get_extend_old n (h.lt_size_of_position hi), hm,
        Option.map_some, Option.map_some, hghost]

-- =========================================================== embeddings

/-- Where a block of one tree stands in another. -/
def seat (t u : Tree) (i : Nat) : Nat :=
  ((t.nodes[i]?).bind fun n => u.position? n.root).getD 0

theorem Sound.seat_eq (hu : Sound u) {j : Nat} (hn : t.nodes[i]? = some n)
    (hm : u.nodes[j]? = some m) (hroot : m.root = n.root) : t.seat u i = j := by
  rw [seat, hn, Option.bind_some, ← hroot, hu.position_root hm, Option.getD_some]

/-- What is seen in one tree stands in the other. -/
theorem Sound.counterpart (ht : Sound t) (hu : Sound u)
    (hview : ∀ root, u.view? root = t.view? root) (hn : t.nodes[i]? = some n) :
    ∃ (j : Nat) (m : Node), u.nodes[j]? = some m ∧ m.root = n.root ∧ u.ghost m = t.ghost n
      ∧ m.weight = n.weight := by
  obtain ⟨j, m, hm, hroot, hsame⟩ := hu.get_of_view? ((hview n.root).trans (ht.view?_root hn))
  obtain ⟨hghost, hweight⟩ := Prod.mk.inj hsame
  exact ⟨j, m, hm, hroot, hghost.symm, hweight.symm⟩

/-- A tree is embedded in any that looks the same. -/
theorem Sound.embeds (ht : Sound t) (hu : Sound u)
    (hview : ∀ root, u.view? root = t.view? root)
    (hjustified : u.justifiedEpoch = t.justifiedEpoch)
    (hfinalized : u.finalizedEpoch = t.finalizedEpoch) : Embeds (t.seat u) t u where
  node := by
    intro i n hn
    obtain ⟨j, m, hm, hroot, hghost, hweight⟩ := ht.counterpart hu hview hn
    refine ⟨m, hu.seat_eq hn hm hroot ▸ hm, hroot, ?_, ?_, hweight⟩
    · exact congrArg Ghost.justifiedEpoch hghost
    · exact congrArg Ghost.finalizedEpoch hghost
  child := by
    intro i c hi
    have hn := Array.getElem?_eq_getElem hi
    obtain ⟨j, m, hm, hroot, -⟩ := ht.counterpart hu hview hn
    rw [hu.seat_eq hn hm hroot]
    constructor
    · intro hc
      have ho := Array.getElem?_eq_getElem (lt_size_of_parentAt hc)
      obtain ⟨b, o, hb, hroot', hghost, -⟩ :=
        hu.counterpart ht (fun root => (hview root).symm) ho
      have hparent := (hu.parent_ghost_iff ho hm).mpr hc
      rw [← hghost, hroot] at hparent
      exact ⟨b, (ht.parent_ghost_iff hb hn).mp hparent, hu.seat_eq hb ho hroot'.symm⟩
    · intro ⟨b, hb, hbc⟩
      have ho := Array.getElem?_eq_getElem (lt_size_of_parentAt hb)
      obtain ⟨c', o, hc', hroot', hghost, -⟩ := ht.counterpart hu hview ho
      have hparent := (ht.parent_ghost_iff ho hn).mpr hb
      rw [← hghost, ← hroot] at hparent
      rw [← hbc, hu.seat_eq ho hc' hroot']
      exact (hu.parent_ghost_iff hc' hm).mp hparent
  justifiedEpoch := hjustified
  finalizedEpoch := hfinalized

end Tree

namespace Store

open ChainHead.Tree (Sound Scored Embeds)
open VoteTable (total)

variable {s s' : Store}

-- ======================================================= equal stores

/-- Whether two stores agree on all that a head update reads, up to the
order of blocks and the reach of the table of votes. -/
structure Matches (s s' : Store) : Prop where
  sound : Sound s.tree
  sound' : Sound s'.tree
  view : ∀ root, s'.tree.view? root = s.tree.view? root
  justifiedEpoch : s'.tree.justifiedEpoch = s.tree.justifiedEpoch
  finalizedEpoch : s'.tree.finalizedEpoch = s.tree.finalizedEpoch
  tracker : ∀ v, s'.votes.tracker v = s.votes.tracker v
  snapshot : s'.snapshot = s.snapshot
  applied : s'.applied = s.applied

namespace Matches

theorem symm (h : Matches s s') : Matches s' s where
  sound := h.sound'
  sound' := h.sound
  view := fun root => (h.view root).symm
  justifiedEpoch := h.justifiedEpoch.symm
  finalizedEpoch := h.finalizedEpoch.symm
  tracker := fun v => (h.tracker v).symm
  snapshot := h.snapshot.symm
  applied := h.applied.symm

theorem embeds (h : Matches s s') : Embeds (s.tree.seat s'.tree) s.tree s'.tree :=
  h.sound.embeds h.sound' h.view h.justifiedEpoch h.finalizedEpoch

/-- A root that is known to one store is known to the other. -/
theorem position_eq_none_iff (h : Matches s s') {root : Root} :
    s'.tree.position? root = none ↔ s.tree.position? root = none := by
  rw [← h.sound'.view?_eq_none_iff, h.view, h.sound.view?_eq_none_iff]

/-- Votes and balances do the same to a block and its counterpart. -/
theorem effects_eq (h : Matches s s') (x : Nat) (hx : x < s.tree.nodes.size) :
    s'.effects (s.tree.seat s'.tree x) = s.effects x := by
  unfold effects
  rw [h.applied, h.snapshot, VoteTable.netEffect_eq_of_tracker h.tracker]
  exact VoteTable.netEffect_congr (fun _ => h.embeds.position_iff h.sound h.sound' hx) _ _ _

/-- If all sums fit in one store, they do in the other. -/
theorem fits (h : Matches s s') {justifiedEpoch finalizedEpoch : Epoch} {u' : Tree}
    (hscored : Scored s'.tree s'.effects justifiedEpoch finalizedEpoch u') (i : Nat)
    (hi : i < s.tree.nodes.size) : Tree.Fits s.tree.nodes s.effects i :=
  h.embeds.fits h.sound h.effects_eq hi (hscored.fits (h.embeds.lt_size hi))

/-- Whatever is found, it is found from both trees, with the same weight
for each block. -/
theorem scored (h : Matches s s') {justifiedEpoch finalizedEpoch : Epoch} {u u' : Tree}
    (hscored : Scored s.tree s.effects justifiedEpoch finalizedEpoch u)
    (hscored' : Scored s'.tree s'.effects justifiedEpoch finalizedEpoch u') (root : Root) :
    u'.findHead root = u.findHead root ∧ u'.weight? root = u.weight? root := by
  have hsound := hscored.sound h.sound
  have hsound' := hscored'.sound h.sound'
  have hembeds := h.embeds.scored h.sound h.effects_eq hscored hscored'
  cases hpos : u.position? root with
  | none =>
      have hpos' : u'.position? root = none := by
        rw [hscored'.position, h.position_eq_none_iff, ← hscored.position]
        exact hpos
      unfold Tree.findHead Tree.weight? Tree.node?
      rw [hpos, hpos']
      exact ⟨rfl, rfl⟩
  | some i =>
      have hi := hsound.lt_size_of_position hpos
      have hlinks := fun i (hi : i < u.nodes.size) =>
        hembeds.bestDescendantAt (hscored.bestLinked h.sound) (hscored'.bestLinked h.sound') hi
      obtain ⟨n, hn, hroot⟩ := hsound.get_position hpos
      obtain ⟨m, hm, hsame⟩ := hembeds.node i n hn
      refine ⟨hembeds.findHead hsound hsound' hlinks hpos, ?_⟩
      have hweight := hsound'.weight?_root hm
      rw [hsame.root, hsame.weight, ← hsound.weight?_root hn, hroot] at hweight
      exact hweight

/-- A head update overflows in both stores, or finds the same head or
none for the same reason, and the same weights. -/
theorem updateHead (h : Matches s s') (happlied : total s.applied < 2 ^ 63)
    (hsnapshot : total s.snapshot.balances < 2 ^ 63) (features features' : Features)
    (sharing sharing' : Sharing) :
    let r := (s.updateHeadShared features sharing).value
    let r' := (s'.updateHeadShared features' sharing').value
    ((∃ i, r.result = .error (.tree (.overflow i)))
        ∧ ∃ i, r'.result = .error (.tree (.overflow i)))
      ∨ r'.result = r.result
        ∧ ∀ root, r'.state.tree.weight? root = r.state.tree.weight? root := by
  intro r r'
  rcases updateHead_cases h.sound features sharing with
    ⟨i, heq, hover⟩ | ⟨-, u, -, -, hscored, heq⟩
  · rcases updateHead_cases h.sound' features' sharing' with
      ⟨i', heq', -⟩ | ⟨-, u', -, -, hscored', heq'⟩
    · exact Or.inl ⟨⟨i, congrArg Step.result heq⟩, i', congrArg Step.result heq'⟩
    · obtain ⟨hi, hfits⟩ := hover.not_fits h.sound happlied hsnapshot
      exact absurd (h.fits hscored' i hi) hfits
  · rcases updateHead_cases h.sound' features' sharing' with
      ⟨i', heq', hover'⟩ | ⟨-, u', -, -, hscored', heq'⟩
    · obtain ⟨hi, hfits⟩ := hover'.not_fits h.sound' (h.applied ▸ happlied)
        (h.snapshot ▸ hsnapshot)
      exact absurd (h.symm.fits hscored i' hi) hfits
    · have hr : r = _ := heq
      have hr' : r' = _ := heq'
      rw [h.snapshot] at hr' hscored'
      rw [hr, hr']
      refine Or.inr ⟨?_, fun root => (h.scored hscored hscored' root).2⟩
      exact congrArg (Except.mapError Error.tree) (h.scored hscored hscored' _).1

end Matches

end Store

end ChainHead
