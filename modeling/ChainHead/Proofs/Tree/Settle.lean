/-
What the first pass over the array computes: exact weights.

# The engine

`Gathered k j x` says that the delta of `x` has been moved to position
`j` by the time the pass has worked its way down to position `k`: `x`
is `j`, or it is below a child of `j` that the pass has visited. One
step of the pass moves what is gathered at `k` on to the parent of `k`
(`gatheredSum_step_parent`), and what is gathered at `k` when its turn
comes is the whole subtree of `k` (`gathered_succ_self`). So each weight
changes by `shift`, the sum of the deltas of the subtree.

# When it fails

Deltas are words of 64 bits, and a sum of some of them may not fit even
though all weights would. `Contained` rules that out for all sums at
once; then the pass fails only if some new weight is no word.
-/
import ChainHead.Proofs.Tree.Lineage
import ChainHead.Proofs.Word
import ChainHead.Tree.Score
import Mathlib.Algebra.BigOperators.Group.Finset.Piecewise

namespace ChainHead.Tree

open Finset (range)

variable {nodes : Array Node} {i j k p x : Nat}

-- ================================================= sums over subtrees

/-- The exact values of a list of deltas, by position. -/
def deltaAt (deltas : Array Delta) (i : Nat) : Int :=
  (deltas.getD i 0).toInt

theorem deltaAt_replicate (size i : Nat) : deltaAt (Array.replicate size 0) i = 0 := by
  unfold deltaAt
  rw [Array.getD_eq_getD_getElem?, Array.getElem?_replicate]
  split <;> rfl

open Classical in
/-- What a family of deltas sums to over the blocks at or below a position. -/
noncomputable def shift (nodes : Array Node) (d : Nat → Int) (i : Nat) : Int :=
  ∑ x ∈ (range nodes.size).filter (Below nodes i), d x

/-- Whether each sum of some of the deltas is a signed word. -/
def Contained (nodes : Array Node) (d : Nat → Int) : Prop :=
  ∀ S ⊆ range nodes.size, -2 ^ 63 ≤ ∑ x ∈ S, d x ∧ ∑ x ∈ S, d x < 2 ^ 63

/-- Whether the new weight of a block is a word. -/
def Fits (nodes : Array Node) (d : Nat → Int) (i : Nat) : Prop :=
  ∃ n, nodes[i]? = some n ∧
    0 ≤ (n.weight.toNat : Int) + shift nodes d i ∧
    (n.weight.toNat : Int) + shift nodes d i < 2 ^ 64

-- ===================================================== gathered deltas

/-- Whether the delta of `x` has been moved to `j` once the positions
from `k` on were visited. -/
def Gathered (nodes : Array Node) (k j x : Nat) : Prop :=
  x = j ∨ ∃ c, k ≤ c ∧ parentAt nodes c = some j ∧ Below nodes c x

/-- Before the pass, each delta is where it was given. -/
theorem gathered_size : Gathered nodes nodes.size j x ↔ x = j := by
  constructor
  · rintro (h | ⟨c, hc, hpar, -⟩)
    · exact h
    · have := lt_size_of_parentAt hpar
      omega
  · exact Or.inl

/-- At its turn, a position holds the deltas of its whole subtree. -/
theorem gathered_succ_self (hr : Rooted nodes) :
    Gathered nodes (k + 1) k x ↔ Below nodes k x := by
  rw [below_iff_child]
  constructor
  · rintro (h | ⟨c, -, hpar, hcx⟩)
    · exact Or.inl h
    · exact Or.inr ⟨c, hpar, hcx⟩
  · rintro (h | ⟨c, hpar, hcx⟩)
    · exact Or.inl h
    · exact Or.inr ⟨c, hr c k hpar, hpar, hcx⟩

/-- A step adds the subtree of the visited position to its parent. -/
theorem gathered_step :
    Gathered nodes k j x
      ↔ Gathered nodes (k + 1) j x ∨ (parentAt nodes k = some j ∧ Below nodes k x) := by
  constructor
  · rintro (h | ⟨c, hc, hpar, hcx⟩)
    · exact Or.inl (Or.inl h)
    · rcases Nat.eq_or_lt_of_le hc with rfl | hlt
      · exact Or.inr ⟨hpar, hcx⟩
      · exact Or.inl (Or.inr ⟨c, hlt, hpar, hcx⟩)
  · rintro ((h | ⟨c, hc, hpar, hcx⟩) | ⟨hpar, hkx⟩)
    · exact Or.inl h
    · exact Or.inr ⟨c, by omega, hpar, hcx⟩
    · exact Or.inr ⟨k, Nat.le_refl k, hpar, hkx⟩

/-- What a step adds was not there before. -/
theorem gathered_disjoint (hr : Rooted nodes) (hpar : parentAt nodes k = some j)
    (hkx : Below nodes k x) : ¬ Gathered nodes (k + 1) j x := by
  rintro (rfl | ⟨c, hc, hpar', hcx⟩)
  · have hle := hkx.le hr
    have hlt := hr k _ hpar
    omega
  · have := child_unique hr hpar hpar' hkx hcx
    omega

open Classical in
/-- What the pass holds at a position once the positions from `k` on
were visited. -/
noncomputable def gatheredSum (nodes : Array Node) (d : Nat → Int) (k j : Nat) : Int :=
  ∑ x ∈ (range nodes.size).filter (Gathered nodes k j), d x

theorem gatheredSum_size (d : Nat → Int) (hj : j < nodes.size) :
    gatheredSum nodes d nodes.size j = d j := by
  classical
  unfold gatheredSum
  rw [Finset.sum_filter]
  simp only [gathered_size]
  rw [Finset.sum_ite_eq' (range nodes.size) j d, if_pos (Finset.mem_range.mpr hj)]

theorem gatheredSum_succ_self (hr : Rooted nodes) (d : Nat → Int) :
    gatheredSum nodes d (k + 1) k = shift nodes d k := by
  classical
  unfold gatheredSum shift
  simp only [gathered_succ_self hr]

/-- A step adds what the visited position holds to its parent. -/
theorem gatheredSum_step_parent (hr : Rooted nodes) (d : Nat → Int)
    (hpar : parentAt nodes k = some j) :
    gatheredSum nodes d k j = gatheredSum nodes d (k + 1) j + shift nodes d k := by
  classical
  unfold gatheredSum shift
  rw [← Finset.sum_union]
  · rw [← Finset.filter_or]
    refine Finset.sum_congr (Finset.filter_congr fun x _ => ?_) fun _ _ => rfl
    rw [gathered_step]
    simp [hpar]
  · rw [Finset.disjoint_left]
    intro x hx hkx
    exact gathered_disjoint hr hpar (Finset.mem_filter.mp hkx).2 (Finset.mem_filter.mp hx).2

/-- A step leaves all other positions as they are. -/
theorem gatheredSum_step_other (d : Nat → Int) (hpar : parentAt nodes k ≠ some j) :
    gatheredSum nodes d k j = gatheredSum nodes d (k + 1) j := by
  classical
  unfold gatheredSum
  refine Finset.sum_congr (Finset.filter_congr fun x _ => ?_) fun _ _ => rfl
  rw [gathered_step]
  simp [hpar]

/-- A contained family keeps every intermediate sum a signed word. -/
theorem Contained.gatheredSum {d : Nat → Int} (h : Contained nodes d) (k j : Nat) :
    -2 ^ 63 ≤ gatheredSum nodes d k j ∧ gatheredSum nodes d k j < 2 ^ 63 := by
  classical
  exact h _ (Finset.filter_subset _ _)

-- =========================================================== the pass

/-- What the deltas given to the pass have to be when it is about to
visit the position before `k`. -/
def Holds (nodes : Array Node) (d : Nat → Int) (k : Nat) (deltas : Array Delta) : Prop :=
  ∀ j < k, ∃ e, deltas[j]? = some e ∧ e.toInt = gatheredSum nodes d k j

/-- Moving the delta of the visited position to its parent keeps the
promise for the positions before. -/
theorem Holds.step_parent {d : Nat → Int} {deltas : Array Delta} {sum : Delta}
    (hr : Rooted nodes) (h : Holds nodes d (k + 1) deltas)
    (hpar : parentAt nodes k = some p)
    (hsum : sum.toInt = gatheredSum nodes d (k + 1) p + shift nodes d k) :
    Holds nodes d k (deltas.setIfInBounds p sum) := by
  intro j hj
  obtain ⟨e, he, hval⟩ := h j (by omega)
  obtain ⟨hlt, -⟩ := Array.getElem?_eq_some_iff.mp he
  by_cases hjp : p = j
  · subst hjp
    refine ⟨sum, by rw [Array.getElem?_setIfInBounds_self, if_pos hlt], ?_⟩
    rw [hsum, gatheredSum_step_parent hr d hpar]
  · have hstep : gatheredSum nodes d k j = gatheredSum nodes d (k + 1) j :=
      gatheredSum_step_other d (by rw [hpar]; simpa using hjp)
    refine ⟨e, ?_, hval.trans hstep.symm⟩
    rw [Array.getElem?_setIfInBounds_ne hjp]
    exact he

/-- A position without a parent keeps the promise as it is. -/
theorem Holds.step_root {d : Nat → Int} {deltas : Array Delta}
    (h : Holds nodes d (k + 1) deltas) (hpar : parentAt nodes k = none) :
    Holds nodes d k deltas := by
  intro j hj
  obtain ⟨e, he, hval⟩ := h j (by omega)
  have hstep : gatheredSum nodes d k j = gatheredSum nodes d (k + 1) j :=
    gatheredSum_step_other d (by rw [hpar]; simp)
  exact ⟨e, he, hval.trans hstep.symm⟩

/-- What the pass answers: every new weight, or a position where a sum
or a weight does not fit. -/
def Settled (nodes : Array Node) (d : Nat → Int) (k : Nat) (after : List Gwei) :
    Except Error (List Gwei) → Prop
  | .ok weights => ∃ before, weights = before ++ after ∧ before.length = k ∧
      ∀ i n w, nodes[i]? = some n → before[i]? = some w →
        (w.toNat : Int) = n.weight.toNat + shift nodes d i
  | .error e => ∃ i < nodes.size, e = .overflow i ∧
      (Contained nodes d → ¬ Fits nodes d i)

/-- An answer for the positions before the visited one is an answer for
all once the weight of the visited one is put in front. -/
theorem Settled.cons {d : Nat → Int} {after : List Gwei} {weight : Gwei} {node : Node}
    {result : Except Error (List Gwei)}
    (h : Settled nodes d k (weight :: after) result)
    (hnode : nodes[k]? = some node)
    (hweight : (weight.toNat : Int) = node.weight.toNat + shift nodes d k) :
    Settled nodes d (k + 1) after result := by
  cases result with
  | error e => exact h
  | ok weights =>
      obtain ⟨before, hweights, hlen, hall⟩ := h
      refine ⟨before ++ [weight], by rw [hweights]; simp, by simp [hlen], ?_⟩
      intro i n w hn hw
      rcases Nat.lt_trichotomy i k with hi | rfl | hi
      · rw [List.getElem?_append_left (by omega)] at hw
        exact hall i n w hn hw
      · rw [List.getElem?_append_right (by omega), hlen, Nat.sub_self] at hw
        rw [hnode] at hn
        injection hn with hn
        injection hw with hw
        rw [← hn, ← hw]
        exact hweight
      · rw [List.getElem?_eq_none (by simp [hlen]; omega)] at hw
        cases hw

/-- The pass answers what it should, from any position on. -/
theorem settleWeights_settled (hr : Rooted nodes) (d : Nat → Int) :
    ∀ k ≤ nodes.size, ∀ (deltas : Array Delta) (after : List Gwei),
      Holds nodes d k deltas →
      Settled nodes d k after (settleWeights nodes k deltas after) := by
  intro k
  induction k with
  | zero =>
      intro _ deltas after _
      exact ⟨[], rfl, rfl, fun i n w _ hw => by simp at hw⟩
  | succ k ih =>
      intro hk deltas after hholds
      obtain ⟨delta, hdelta, hval⟩ := hholds k (Nat.lt_succ_self k)
      rw [gatheredSum_succ_self hr] at hval
      obtain ⟨node, hnode⟩ : ∃ n, nodes[k]? = some n :=
        ⟨nodes[k], Array.getElem?_eq_getElem hk⟩
      simp only [settleWeights, hdelta, hnode]
      cases hmove : Word.move? node.weight delta with
      | none =>
          refine ⟨k, hk, rfl, fun _ hfits => ?_⟩
          obtain ⟨n, hn, hfits⟩ := hfits
          rw [hnode] at hn
          injection hn with hn
          rw [Word.move?_eq_none_iff, hval] at hmove
          exact hmove (hn ▸ hfits)
      | some weight =>
          rw [Word.move?_eq_some_iff, hval] at hmove
          cases hparent : node.parent with
          | none =>
              have hpar : parentAt nodes k = none := by
                rw [parentAt_of_get hnode, hparent]
              exact (ih (by omega) _ _ (hholds.step_root hpar)).cons hnode hmove
          | some p =>
              have hpar : parentAt nodes k = some p := by
                rw [parentAt_of_get hnode, hparent]
              have hpk := hr k p hpar
              obtain ⟨parentDelta, hparentDelta, hparentVal⟩ := hholds p (by omega)
              simp only [hparentDelta]
              cases hadd : Word.addSigned? parentDelta delta with
              | none =>
                  -- all sums are words if the family is contained
                  refine ⟨p, by omega, rfl, fun hcontained => ?_⟩
                  have hsum := hcontained.gatheredSum k p
                  rw [gatheredSum_step_parent hr d hpar, ← hval, ← hparentVal] at hsum
                  exact absurd hsum (Word.ofInt?_eq_none_iff.mp hadd)
              | some sum =>
                  rw [Word.addSigned?_eq_some_iff, hval, hparentVal] at hadd
                  exact (ih (by omega) _ _ (hholds.step_parent hr hpar hadd)).cons
                    hnode hmove

end ChainHead.Tree
