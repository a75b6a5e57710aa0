/-
The root over chunks is the root of the padded tree.

The tree is a `FullTree`: it is fixed by its leaves, which are the
chunks and then zeros up to a power of two. It is never built. What runs
is a loop over layers (`Reaches`), which hashes a layer in pairs and
completes an odd one with the root of a zero tree.

The engine is that a tree loses its lowest layer when its leaves are
hashed in pairs (`lower`): its leaves are then the layer paired up
(`leaves_lower`), its root is the same (`root_lower`), and leaves that
were padded with a chunk are padded with the hash of two of those
(`pairUp_padded`). So whatever the loop holds is the leaves of such a
tree without their padding, and the zero root it carries along is what
they are padded with.
-/
import ChainHead.Merkle
import ChainHead.Sha256
import Mathlib.Algebra.Group.Nat.Defs
import Mathlib.Data.Nat.Log

namespace ChainHead.Merkle

-- ============================================== statement vocabulary

/-- A full binary tree, with a chunk at each leaf. -/
inductive FullTree : (height : Nat) → Type where
  | leaf (chunk : Root) : FullTree 0
  | node {height : Nat} (left right : FullTree height) : FullTree (height + 1)

namespace FullTree

/-- The chunks at the leaves, from left to right. -/
def leaves {height : Nat} : FullTree height → List Root
  | leaf chunk => [chunk]
  | node left right => left.leaves ++ right.leaves

/-- The root of a tree: above the leaves, the hash of the two roots below. -/
def root (hash : PairHash) {height : Nat} : FullTree height → Root
  | leaf chunk => chunk
  | node left right => hash (left.root hash) (right.root hash)

/-- The tree without its lowest layer, the leaves of which are hashed in
pairs. -/
def lower (hash : PairHash) : {height : Nat} → FullTree (height + 1) → FullTree height
  | 0, node (leaf a) (leaf b) => leaf (hash a b)
  | _ + 1, node left right => node (left.lower hash) (right.lower hash)

end FullTree

/-- A layer completed to the leaves of a tree. -/
def padded (pad : Root) (height : Nat) (layer : List Root) : List Root :=
  layer ++ List.replicate (2 ^ height - layer.length) pad

/-- Whether a loop ends after so many laps with a root: as long as a
layer has more than one chunk, it goes on with the layer above and the
zero root of that height. -/
inductive Reaches (hash : PairHash) : (laps : Nat) → (pad : Root) → List Root → Root → Prop where
  | done (pad chunk : Root) : Reaches hash 0 pad [chunk] chunk
  | lap {laps : Nat} {pad root : Root} {layer : List Root} (more : 1 < layer.length)
    (rest : Reaches hash laps (hash pad pad) (pairUp hash pad layer) root) :
    Reaches hash (laps + 1) pad layer root

variable {hash : PairHash} {pad root : Root} {layer : List Root} {height : Nat}

-- =============================================================== layers

theorem length_pairUp (hash : PairHash) (pad : Root) (layer : List Root) :
    (pairUp hash pad layer).length = (layer.length + 1) / 2 := by
  induction layer using pairUp.induct with
  | case1 a b rest ih =>
      rw [pairUp, List.length_cons, ih, List.length_cons, List.length_cons]
      omega
  | case2 a => simp [pairUp]
  | case3 => rfl

/-- A layer that is cut between two pairs is paired up part by part. -/
theorem pairUp_append (hash : PairHash) (pad : Root) {layer : List Root}
    (heven : layer.length % 2 = 0) (rest : List Root) :
    pairUp hash pad (layer ++ rest) = pairUp hash pad layer ++ pairUp hash pad rest := by
  induction layer using pairUp.induct with
  | case1 a b layer ih =>
      have heven' : layer.length % 2 = 0 := by
        rw [List.length_cons, List.length_cons] at heven
        omega
      rw [List.cons_append, List.cons_append, pairUp, ih heven', pairUp, List.cons_append]
  | case2 a => cases heven
  | case3 => rfl

theorem pairUp_replicate (hash : PairHash) (pad : Root) (pairs : Nat) :
    pairUp hash pad (List.replicate (2 * pairs) pad) = List.replicate pairs (hash pad pad) := by
  induction pairs with
  | zero => rfl
  | succ pairs ih => rw [Nat.mul_succ, List.replicate_succ, List.replicate_succ, pairUp, ih,
      List.replicate_succ]

/-- It makes no difference whether a layer is completed before it is
paired up. -/
theorem pairUp_append_replicate (hash : PairHash) (pad : Root) {layer : List Root} {pads pairs : Nat}
    (hpairs : layer.length + pads = 2 * pairs) :
    pairUp hash pad (layer ++ List.replicate pads pad) = pairUp hash pad layer
      ++ List.replicate (pairs - (layer.length + 1) / 2) (hash pad pad) := by
  induction layer using pairUp.induct generalizing pairs with
  | case1 a b layer ih =>
      rw [List.length_cons, List.length_cons] at hpairs ⊢
      have hrest : layer.length + pads = 2 * (pairs - 1) := by omega
      have hcount : pairs - (layer.length + 1 + 1 + 1) / 2
          = pairs - 1 - (layer.length + 1) / 2 := by omega
      rw [List.cons_append, List.cons_append, pairUp, ih hrest, pairUp, List.cons_append, hcount]
  | case2 a =>
      -- the first pad completes the only pair
      obtain ⟨pairs, rfl⟩ : ∃ rest, pairs = rest + 1 := ⟨pairs - 1, by simp at hpairs; omega⟩
      obtain rfl : pads = 2 * pairs + 1 := by
        rw [List.length_singleton] at hpairs
        omega
      rw [List.replicate_succ, List.singleton_append, pairUp, pairUp_replicate]
      simp [pairUp]
  | case3 =>
      rw [List.length_nil, Nat.zero_add] at hpairs
      rw [hpairs, List.nil_append, pairUp_replicate]
      simp [pairUp]

/-- The layer above a padded one is padded with the hash of two pads. -/
theorem pairUp_padded (hash : PairHash) (pad : Root) (h : layer.length ≤ 2 ^ (height + 1)) :
    pairUp hash pad (padded pad (height + 1) layer)
      = padded (hash pad pad) height (pairUp hash pad layer) := by
  have hpairs : layer.length + (2 ^ (height + 1) - layer.length) = 2 * 2 ^ height := by
    rw [Nat.pow_succ] at h ⊢
    omega
  rw [padded, padded, pairUp_append_replicate hash pad hpairs, length_pairUp]

-- ================================================================ trees

namespace FullTree

theorem length_leaves (t : FullTree height) : t.leaves.length = 2 ^ height := by
  induction t with
  | leaf chunk => rfl
  | node left right ihl ihr =>
      rw [leaves, List.length_append, ihl, ihr, Nat.pow_succ]
      omega

/-- A tree is fixed by its leaves. -/
theorem eq_of_leaves_eq {t t' : FullTree height} (h : t.leaves = t'.leaves) : t = t' := by
  induction t with
  | leaf chunk =>
      cases t' with
      | leaf chunk' =>
          cases h
          rfl
  | node left right ihl ihr =>
      cases t' with
      | node left' right' =>
          have hlength : left.leaves.length = left'.leaves.length := by
            rw [length_leaves, length_leaves]
          obtain ⟨hleft, hright⟩ := List.append_inj h hlength
          rw [ihl hleft, ihr hright]

/-- There is a tree for any chunks, as long as they are as many as a tree
has leaves. -/
theorem exists_leaves_eq (h : layer.length = 2 ^ height) :
    ∃ t : FullTree height, t.leaves = layer := by
  induction height generalizing layer with
  | zero =>
      obtain ⟨chunk, rfl⟩ := List.length_eq_one_iff.mp h
      exact ⟨leaf chunk, rfl⟩
  | succ height ih =>
      rw [Nat.pow_succ] at h
      have htake : (layer.take (2 ^ height)).length = 2 ^ height := by
        rw [List.length_take]
        omega
      have hdrop : (layer.drop (2 ^ height)).length = 2 ^ height := by
        rw [List.length_drop]
        omega
      obtain ⟨left, hleft⟩ := ih htake
      obtain ⟨right, hright⟩ := ih hdrop
      exact ⟨node left right, by rw [leaves, hleft, hright, List.take_append_drop]⟩

theorem root_lower (hash : PairHash) (t : FullTree (height + 1)) :
    (t.lower hash).root hash = t.root hash := by
  induction height with
  | zero =>
      match t with
      | node (leaf a) (leaf b) => rfl
  | succ height ih =>
      match t with
      | node left right => rw [lower, root, ih, ih, root]

theorem leaves_lower (hash : PairHash) (pad : Root) (t : FullTree (height + 1)) :
    (t.lower hash).leaves = pairUp hash pad t.leaves := by
  induction height with
  | zero =>
      match t with
      | node (leaf a) (leaf b) => rfl
  | succ height ih =>
      match t with
      | node left right =>
          have heven : left.leaves.length % 2 = 0 := by
            rw [length_leaves, Nat.pow_succ]
            omega
          rw [lower, leaves, ih, ih, leaves, pairUp_append hash pad heven]

end FullTree

-- ============================================================= the loop

theorem length_padded (pad : Root) (h : layer.length ≤ 2 ^ height) :
    (padded pad height layer).length = 2 ^ height := by
  rw [padded, List.length_append, List.length_replicate]
  omega

/-- A loop over a layer ends with the root of the tree over it, after as
many laps as the tree is high. -/
theorem reaches_root (hne : layer ≠ []) (hheight : Nat.clog 2 layer.length = height)
    {t : FullTree height} (ht : t.leaves = padded pad height layer) :
    Reaches hash height pad layer (t.root hash) := by
  induction height generalizing pad layer with
  | zero =>
      have hle : layer.length ≤ 2 ^ 0 := hheight ▸ Nat.le_pow_clog (by decide) _
      have hpos : 0 < layer.length := List.length_pos_iff.mpr hne
      obtain ⟨chunk, rfl⟩ : ∃ chunk, layer = [chunk] :=
        List.length_eq_one_iff.mp (Nat.le_antisymm hle hpos)
      cases t with
      | leaf chunk' =>
          cases ht
          exact .done pad chunk
  | succ height ih =>
      have hmore : 1 < layer.length := by
        by_contra hfew
        rw [Nat.clog_of_right_le_one (Nat.le_of_not_lt hfew)] at hheight
        cases hheight
      have hle : layer.length ≤ 2 ^ (height + 1) := hheight ▸ Nat.le_pow_clog (by decide) _
      have hlength := length_pairUp hash pad layer
      have habove : Nat.clog 2 (pairUp hash pad layer).length = height := by
        rw [Nat.clog_of_one_lt (by decide) hmore] at hheight
        rw [hlength]
        exact Nat.succ.inj hheight
      have hsome : pairUp hash pad layer ≠ [] := by
        rw [← List.length_pos_iff, hlength]
        omega
      refine .lap hmore ?_
      rw [← FullTree.root_lower]
      refine ih hsome habove ?_
      rw [FullTree.leaves_lower hash pad, ht, pairUp_padded hash pad hle]

/-- A loop that ends is followed to its end, with any room for its laps. -/
theorem Reaches.climb_eq {laps : Nat} (h : Reaches hash laps pad layer root) :
    ∀ {steps : Nat}, laps ≤ steps → climb hash steps pad layer = root := by
  induction h with
  | done pad chunk =>
      intro steps _
      rw [climb]
  | @lap laps pad root layer hmore _ ih =>
      intro steps hsteps
      obtain ⟨steps, rfl⟩ := Nat.exists_eq_succ_of_ne_zero (Nat.ne_zero_of_lt hsteps)
      match layer, hmore with
      | a :: b :: rest, _ =>
          rw [climb]
          · exact ih (Nat.le_of_succ_le_succ hsteps)
          · rintro ⟨⟩
          · rintro chunk ⟨⟩

/-- Over any chunks there is just one full tree of the least height with
the chunks at its leaves and zeros behind them. The loop over the layers
ends with the root of this tree, after as many laps as it is high, and
that is the root over the chunks. -/
theorem merkleize_eq_root (hash : PairHash) {chunks : List Root} (h : chunks ≠ []) :
    let height := Nat.clog 2 chunks.length
    ∃ t : FullTree height, t.leaves = padded 0 height chunks
      ∧ (∀ t' : FullTree height, t'.leaves = t.leaves → t' = t)
      ∧ Reaches hash height 0 chunks (t.root hash) ∧ merkleize hash chunks = t.root hash := by
  intro height
  have hle : chunks.length ≤ 2 ^ height := Nat.le_pow_clog (by decide) _
  have hroom : height ≤ chunks.length :=
    Nat.clog_le_of_le_pow (Nat.le_of_lt Nat.lt_two_pow_self)
  obtain ⟨t, ht⟩ := FullTree.exists_leaves_eq (length_padded 0 hle)
  have hreaches : Reaches hash height 0 chunks (t.root hash) := reaches_root h rfl ht
  exact ⟨t, ht, fun t' => FullTree.eq_of_leaves_eq, hreaches, hreaches.climb_eq hroom⟩

/-- Behind five chunks there are three zeros: one beside the last chunk,
and two with a root of their own. -/
theorem merkleize_eq_root_fiveChunks :
    let chunks : List Root := [1, 2, 3, 4, 5]
    let tree : FullTree 3 :=
      .node (.node (.node (.leaf 1) (.leaf 2)) (.node (.leaf 3) (.leaf 4)))
        (.node (.node (.leaf 5) (.leaf 0)) (.node (.leaf 0) (.leaf 0)))
    chunks ≠ [] ∧ Reaches Sha256.pair 3 0 chunks (tree.root Sha256.pair)
      ∧ merkleize Sha256.pair chunks = tree.root Sha256.pair := by
  intro chunks tree
  have hne : chunks ≠ [] := List.cons_ne_nil _ _
  have hheight : Nat.clog 2 chunks.length = 3 := by decide
  have hexists := merkleize_eq_root Sha256.pair hne
  rw [hheight] at hexists
  obtain ⟨t, hleaves, honly, hreaches, hroot⟩ := hexists
  have htree : tree = t := honly tree (hleaves ▸ rfl)
  rw [htree]
  exact ⟨hne, hreaches, hroot⟩

end ChainHead.Merkle
