/-
What the second pass over the array computes: best links that do not
depend on what the links were before.

# The trouble with old links

The pass offers each block to its parent, from the last block to the
first. A parent compares the block on offer with the best child it has,
and that one may be left over from an earlier call: a child not yet
offered, whose own links are only partly refreshed. Its best descendant
may name a block that is no longer viable, or miss one that is. An old
best child that seems to lead nowhere is forgotten together with its
link, so what was offered before must not have been lost to it.

# The invariant

`Refreshing t k` is the state of the tree when the blocks from position
`k` on were offered. It asks of an old link only that it points into
the right subtree: then a best descendant that is viable proves that
its subtree leads to a head, however old the link. The rest is
`covered`: each offered child that leads to a head is outranked by the
best child, or else by a child that is still to come. A parent that
prefers an old best child, and one that forgets it, both leave a child
to come that is at least as good.

When nothing is left to come, the best child is the greatest
(`Refreshing.bestChildAt_eq_some_iff`), and the best descendant is where
the chain of best children ends (`Refreshing.lastBest`).
-/
import ChainHead.Proofs.Tree.Lineage
import ChainHead.Tree.Score
import Mathlib.Data.Prod.Lex

namespace ChainHead.Tree

open Relation

variable {t t' : Tree} {nodes : Array Node} {b c d e i j k p : Nat}

-- ============================================== statement vocabulary

/-- The best child of the block at a position. -/
def bestChildAt (nodes : Array Node) (i : Nat) : Option Nat :=
  nodes[i]?.bind (·.bestChild)

/-- The best descendant of the block at a position. -/
def bestDescendantAt (nodes : Array Node) (i : Nat) : Option Nat :=
  nodes[i]?.bind (·.bestDescendant)

/-- What siblings are compared by: the weight, then the root. -/
def rank (n : Node) : Nat ×ₗ Nat :=
  toLex (n.weight.toNat, n.root.toNat)

/-- What the block at a position is compared by. -/
def rankAt (nodes : Array Node) (i : Nat) : Nat ×ₗ Nat :=
  rank (nodes[i]?.getD default)

/-- Whether the block at a position can be the head. -/
def ViableAt (t : Tree) (i : Nat) : Prop :=
  ∃ n, t.nodes[i]? = some n ∧ t.isViable n = true

/-- Whether some block at or below a position can be the head. -/
def Leads (t : Tree) (i : Nat) : Prop :=
  ∃ j, Below t.nodes i j ∧ t.ViableAt j

/-- Whether a block is a child whose subtree holds a possible head. -/
def Candidate (t : Tree) (i c : Nat) : Prop :=
  parentAt t.nodes c = some i ∧ t.Leads c

/-- Whether a candidate is the greatest by weight and root. -/
def IsBestChild (t : Tree) (i c : Nat) : Prop :=
  t.Candidate i c ∧ ∀ c', t.Candidate i c' → rankAt t.nodes c' ≤ rankAt t.nodes c

/-- Whether the chain of best children from a block ends at another. -/
def LastBest (nodes : Array Node) (i e : Nat) : Prop :=
  ReflTransGen (fun a b => bestChildAt nodes a = some b) i e ∧ bestChildAt nodes e = none

-- ==================================================== all but the links

/-- A block without its links to best blocks. -/
def unlinked (n : Node) : Node :=
  { n with bestChild := none, bestDescendant := none }

/-- Two trees that differ in nothing but links to best blocks. -/
structure Relinked (t t' : Tree) : Prop where
  nodes : ∀ i : Nat, t'.nodes[i]?.map unlinked = t.nodes[i]?.map unlinked
  positions : t'.positions = t.positions
  justifiedEpoch : t'.justifiedEpoch = t.justifiedEpoch
  finalizedEpoch : t'.finalizedEpoch = t.finalizedEpoch
  pruneThreshold : t'.pruneThreshold = t.pruneThreshold

namespace Relinked

theorem refl (t : Tree) : Relinked t t :=
  ⟨fun _ => rfl, rfl, rfl, rfl, rfl⟩

theorem trans {t'' : Tree} (h : Relinked t t') (h' : Relinked t' t'') : Relinked t t'' :=
  ⟨fun i => (h'.nodes i).trans (h.nodes i), h'.positions.trans h.positions,
    h'.justifiedEpoch.trans h.justifiedEpoch, h'.finalizedEpoch.trans h.finalizedEpoch,
    h'.pruneThreshold.trans h.pruneThreshold⟩

/-- A block keeps everything but its links. -/
theorem get (h : Relinked t t') {n : Node} (hn : t.nodes[i]? = some n) :
    ∃ n', t'.nodes[i]? = some n' ∧ unlinked n' = unlinked n := by
  have hi := h.nodes i
  rw [hn, Option.map_some] at hi
  exact Option.map_eq_some_iff.mp hi

theorem symm (h : Relinked t t') : Relinked t' t :=
  ⟨fun i => (h.nodes i).symm, h.positions.symm, h.justifiedEpoch.symm,
    h.finalizedEpoch.symm, h.pruneThreshold.symm⟩

theorem parentAt (h : Relinked t t') : parentAt t'.nodes = parentAt t.nodes := by
  funext i
  have hi := congrArg (fun o : Option Node => o.bind (·.parent)) (h.nodes i)
  simp only [Option.bind_map] at hi
  exact hi

theorem rankAt (h : Relinked t t') : rankAt t'.nodes = rankAt t.nodes := by
  funext i
  have hi := congrArg (fun o : Option Node => rank (o.getD (unlinked default))) (h.nodes i)
  simp only [Option.getD_map] at hi
  exact hi

theorem isViable (h : Relinked t t') {n n' : Node} (hn : unlinked n' = unlinked n) :
    t'.isViable n' = t.isViable n := by
  have hj : n'.justifiedEpoch = n.justifiedEpoch := by
    show (unlinked n').justifiedEpoch = (unlinked n).justifiedEpoch
    rw [hn]
  have hf : n'.finalizedEpoch = n.finalizedEpoch := by
    show (unlinked n').finalizedEpoch = (unlinked n).finalizedEpoch
    rw [hn]
  simp only [Tree.isViable, hj, hf, h.justifiedEpoch, h.finalizedEpoch]

theorem viableAt (h : Relinked t t') (i : Nat) : t'.ViableAt i ↔ t.ViableAt i := by
  have key : ∀ {t t' : Tree}, Relinked t t' → t.ViableAt i → t'.ViableAt i := by
    rintro t t' h ⟨n, hn, hv⟩
    obtain ⟨n', hn', heq⟩ := h.get hn
    exact ⟨n', hn', by rw [h.isViable heq]; exact hv⟩
  exact ⟨key h.symm, key h⟩

theorem leads (h : Relinked t t') (i : Nat) : t'.Leads i ↔ t.Leads i := by
  unfold Leads
  rw [below_congr h.parentAt]
  simp only [h.viableAt]

theorem candidate (h : Relinked t t') (i c : Nat) : t'.Candidate i c ↔ t.Candidate i c := by
  unfold Candidate
  rw [h.parentAt, h.leads]

end Relinked

-- ========================================================== one offer

/-- The tree with other links at one position. -/
def relink (t : Tree) (i : Nat) (n : Node) (links : Option Nat × Option Nat) : Tree :=
  { t with
    nodes := t.nodes.setIfInBounds i
      { n with bestChild := links.1, bestDescendant := links.2 } }

variable {n m : Node} {links : Option Nat × Option Nat}

theorem get_relink (hn : t.nodes[i]? = some n) (j : Nat) :
    (t.relink i n links).nodes[j]?
      = if j = i then some { n with bestChild := links.1, bestDescendant := links.2 }
        else t.nodes[j]? := by
  obtain ⟨hlt, -⟩ := Array.getElem?_eq_some_iff.mp hn
  unfold relink
  by_cases hij : i = j
  · subst hij
    rw [Array.getElem?_setIfInBounds_self, if_pos hlt, if_pos rfl]
  · rw [Array.getElem?_setIfInBounds_ne hij, if_neg (fun h => hij h.symm)]

theorem relinked_relink (hn : t.nodes[i]? = some n) : Relinked t (t.relink i n links) := by
  refine ⟨fun j => ?_, rfl, rfl, rfl, rfl⟩
  rw [get_relink hn]
  by_cases hij : j = i
  · rw [if_pos hij, hij, hn]
    rfl
  · rw [if_neg hij]

theorem bestChildAt_relink (hn : t.nodes[i]? = some n) (j : Nat) :
    bestChildAt (t.relink i n links).nodes j
      = if j = i then links.1 else bestChildAt t.nodes j := by
  unfold bestChildAt
  rw [get_relink hn]
  split <;> rfl

theorem bestDescendantAt_relink (hn : t.nodes[i]? = some n) (j : Nat) :
    bestDescendantAt (t.relink i n links).nodes j
      = if j = i then links.2 else bestDescendantAt t.nodes j := by
  unfold bestDescendantAt
  rw [get_relink hn]
  split <;> rfl

/-- One block outranks another if its rank is at least as great. -/
theorem outranks_iff : outranks n m = true ↔ rank m ≤ rank n := by
  unfold outranks rank
  rw [Prod.Lex.toLex_le_toLex, ← BitVec.le_def, ← UInt64.lt_iff_toNat_lt,
    UInt64.toNat_inj]
  split
  case isTrue h => simp [h]
  case isFalse h => simp [Ne.symm h]

/-- The links a parent `n` can end up with after an offer of its child
`m` at position `c`, and what each tells of the two children. -/
inductive Choice (t : Tree) (c : Nat) (n m : Node) : Option Nat × Option Nat → Prop
  /-- The child is taken: it leads to a head, and beats the best child. -/
  | take (hlead : t.leadsToHead m = .ok true)
      (hbeats : ∀ b o, n.bestChild = some b → b ≠ c → t.nodes[b]? = some o →
        t.leadsToHead o = .ok true → rank o ≤ rank m) :
      Choice t c n m (some c, some (m.bestDescendant.getD c))
  /-- There was no best child, and the child leads to no head. -/
  | none (hbest : n.bestChild = none) (hlead : t.leadsToHead m = .ok false) :
      Choice t c n m (n.bestChild, n.bestDescendant)
  /-- The best child stays: it leads to a head, and the child does not
  beat it. -/
  | keep (b : Nat) (o : Node) (hbest : n.bestChild = some b) (hne : b ≠ c)
      (ho : t.nodes[b]? = some o) (hold : t.leadsToHead o = .ok true)
      (hbeaten : t.leadsToHead m = .ok true → rank m ≤ rank o) :
      Choice t c n m (n.bestChild, n.bestDescendant)
  /-- Neither leads to a head. -/
  | drop (hlead : t.leadsToHead m = .ok false)
      (hold : ∀ b o, n.bestChild = some b → b ≠ c → t.nodes[b]? = some o →
        t.leadsToHead o = .ok false) :
      Choice t c n m (none, none)

/-- Without a best child, the child on offer is taken if it leads to a
head. -/
theorem linksAfter_first {eligible : Bool} (hm : t.leadsToHead m = .ok eligible)
    (hnone : n.bestChild = none) :
    ∃ links, t.linksAfter c n m = .ok links ∧ Choice t c n m links := by
  cases eligible with
  | false =>
      refine ⟨(n.bestChild, n.bestDescendant), ?_, .none hnone hm⟩
      simp only [linksAfter, hm, hnone]
      rfl
  | true =>
      refine ⟨_, ?_, .take hm fun b o hb => ?_⟩
      · simp only [linksAfter, hm, hnone]
        rfl
      · rw [hnone] at hb
        cases hb

/-- If the best child itself is on offer, nothing competes with it. -/
theorem linksAfter_again {eligible : Bool} (hm : t.leadsToHead m = .ok eligible)
    (hchild : n.bestChild = some c) :
    ∃ links, t.linksAfter c n m = .ok links ∧ Choice t c n m links := by
  have hno : ∀ b, n.bestChild = some b → b ≠ c → False := fun b hb hne =>
    hne (Option.some.inj (hb.symm.trans hchild))
  cases eligible with
  | false =>
      refine ⟨_, ?_, .drop hm fun b _ hb hne => (hno b hb hne).elim⟩
      simp only [linksAfter, hm, hchild, if_true]
      rfl
  | true =>
      refine ⟨_, ?_, .take hm fun b _ hb hne => (hno b hb hne).elim⟩
      simp only [linksAfter, hm, hchild, if_true]
      rfl

/-- What is so of the best child is so of whatever is the best child. -/
theorem of_bestChild {P : Node → Prop} {o : Node} (hchild : n.bestChild = some b)
    (ho : t.nodes[b]? = some o) (hP : P o) :
    ∀ b' o', n.bestChild = some b' → t.nodes[b']? = some o' → P o' := by
  intro b' o' hb' ho'
  obtain rfl := Option.some.inj (hchild.symm.trans hb')
  obtain rfl := Option.some.inj (ho.symm.trans ho')
  exact hP

/-- Between two children that both lead to a head, rank decides; otherwise
the one that does is preferred. -/
theorem linksAfter_rival {eligible lead : Bool} {o : Node}
    (hm : t.leadsToHead m = .ok eligible) (hchild : n.bestChild = some b) (hne : b ≠ c)
    (ho : t.nodes[b]? = some o) (hlead : t.leadsToHead o = .ok lead) :
    ∃ links, t.linksAfter c n m = .ok links ∧ Choice t c n m links := by
  have hlinks : t.linksAfter c n m
      = (match eligible, lead with
        | true, false => .ok (some c, some (m.bestDescendant.getD c))
        | false, true => .ok (n.bestChild, n.bestDescendant)
        | false, false => .ok (none, none)
        | true, true => .ok (if outranks m o then
            (some c, some (m.bestDescendant.getD c))
          else (n.bestChild, n.bestDescendant))) := by
    simp only [linksAfter, hm, hchild, if_neg hne, ho, hlead]
    cases eligible <;> cases lead <;> rfl
  have hrival := of_bestChild (P := fun o => t.leadsToHead o = .ok lead) hchild ho hlead
  rw [hlinks]
  cases eligible with
  | false =>
      cases lead with
      | false => exact ⟨_, rfl, .drop hm fun b' o' hb' _ ho' => hrival b' o' hb' ho'⟩
      | true =>
          refine ⟨_, rfl, .keep b o hchild hne ho hlead fun h => ?_⟩
          rw [hm] at h
          cases h
  | true =>
      cases lead with
      | false =>
          refine ⟨_, rfl, .take hm fun b' o' hb' _ ho' h => ?_⟩
          rw [hrival b' o' hb' ho'] at h
          cases h
      | true =>
          by_cases hout : outranks m o = true
          · refine ⟨_, by rw [if_pos hout], .take hm fun b' o' hb' _ ho' _ => ?_⟩
            exact of_bestChild (P := fun o => rank o ≤ rank m) hchild ho (outranks_iff.mp hout)
              b' o' hb' ho'
          · refine ⟨_, by rw [if_neg hout], .keep b o hchild hne ho hlead fun _ => ?_⟩
            exact le_of_not_ge fun h => hout (outranks_iff.mpr h)

/-- An offer ends in one of the choices, if all links are in range. -/
theorem linksAfter_choice {eligible : Bool} (hm : t.leadsToHead m = .ok eligible)
    (hbest : ∀ b, n.bestChild = some b →
      ∃ o lead, t.nodes[b]? = some o ∧ t.leadsToHead o = .ok lead) :
    ∃ links, t.linksAfter c n m = .ok links ∧ Choice t c n m links := by
  cases hchild : n.bestChild with
  | none => exact linksAfter_first hm hchild
  | some b =>
      obtain ⟨o, lead, ho, hlead⟩ := hbest b hchild
      by_cases hbc : b = c
      · exact linksAfter_again hm (hbc ▸ hchild)
      · exact linksAfter_rival hm hchild hbc ho hlead

-- ======================================================= the invariant

/-- The tree once the blocks from position `k` on were offered to their
parents; see the head of the file. -/
structure Refreshing (t : Tree) (k : Nat) : Prop where
  rooted : Rooted t.nodes
  child : ∀ i b, bestChildAt t.nodes i = some b → parentAt t.nodes b = some i
  alone : ∀ i, bestChildAt t.nodes i = none → bestDescendantAt t.nodes i = none
  below : ∀ i d, bestDescendantAt t.nodes i = some d → Below t.nodes i d
  settled : ∀ i b, bestChildAt t.nodes i = some b → k ≤ b →
    t.Leads b ∧ bestDescendantAt t.nodes i = some ((bestDescendantAt t.nodes b).getD b)
  covered : ∀ i c, k ≤ c → t.Candidate i c →
    (∃ b, bestChildAt t.nodes i = some b ∧ k ≤ b ∧ rankAt t.nodes c ≤ rankAt t.nodes b)
      ∨ ∃ u < k, t.Candidate i u ∧ rankAt t.nodes c ≤ rankAt t.nodes u

/-- The choices again, told by position and by what is true of the
children on offer and kept. -/
inductive Decision (t : Tree) (p k : Nat) : Option Nat × Option Nat → Prop
  | take (hlead : t.Leads k)
      (hbeats : ∀ b, bestChildAt t.nodes p = some b → k < b →
        rankAt t.nodes b ≤ rankAt t.nodes k) :
      Decision t p k (some k, some ((bestDescendantAt t.nodes k).getD k))
  | none (hbest : bestChildAt t.nodes p = none) (hlead : ¬ t.Leads k) :
      Decision t p k (bestChildAt t.nodes p, bestDescendantAt t.nodes p)
  | keep (b : Nat) (hbest : bestChildAt t.nodes p = some b) (hne : b ≠ k) (hold : t.Leads b)
      (hbeaten : t.Leads k → rankAt t.nodes k ≤ rankAt t.nodes b) :
      Decision t p k (bestChildAt t.nodes p, bestDescendantAt t.nodes p)
  | drop (hlead : ¬ t.Leads k)
      (hold : ∀ b, bestChildAt t.nodes p = some b → ¬ k < b) :
      Decision t p k (none, none)

namespace Refreshing

/-- A block whose children were all offered has a viable best
descendant, if it leads to a head at all. -/
theorem viableAt_best (h : Refreshing t k) :
    ∀ i, k ≤ i + 1 → t.Leads i → t.ViableAt ((bestDescendantAt t.nodes i).getD i) := by
  -- from the last block to the first, as best children come after their parents
  suffices key : ∀ m i, t.nodes.size - i ≤ m → k ≤ i + 1 → t.Leads i →
      t.ViableAt ((bestDescendantAt t.nodes i).getD i) by
    exact fun i => key _ i (Nat.le_refl _)
  intro m
  induction m with
  | zero =>
      rintro i hm _ ⟨j, hij, n, hn, -⟩
      have hj := (Array.getElem?_eq_some_iff.mp hn).1
      have hle := hij.le h.rooted
      omega
  | succ m ih =>
      rintro i hm hi ⟨j, hij, hj⟩
      cases hb : bestChildAt t.nodes i with
      | some b =>
          have hpar := h.child i b hb
          have hlt := h.rooted b i hpar
          have hsize := lt_size_of_parentAt hpar
          obtain ⟨hlead, hdesc⟩ := h.settled i b hb (by omega)
          rw [hdesc]
          exact ih b (by omega) (by omega) hlead
      | none =>
          rw [h.alone i hb]
          rcases below_iff_child.mp hij with rfl | ⟨c, hpar, hcj⟩
          · exact hj
          · have hlt := h.rooted c i hpar
            rcases h.covered i c (by omega) ⟨hpar, j, hcj, hj⟩ with
              ⟨b, hb', -⟩ | ⟨u, hu, hcand, -⟩
            · rw [hb] at hb'
              cases hb'
            · have := h.rooted u i hcand.1
              omega

/-- The question whether a block leads to a head always has an answer.
The answer yes is right, and so is the answer no once all children of
the block were offered. -/
theorem leadsToHead (h : Refreshing t k) {n : Node} (hn : t.nodes[i]? = some n) :
    ∃ lead, t.leadsToHead n = .ok lead ∧ (lead = true → t.Leads i)
      ∧ (k ≤ i + 1 → t.Leads i → lead = true) := by
  have hdesc : bestDescendantAt t.nodes i = n.bestDescendant := by
    rw [bestDescendantAt, hn]
    rfl
  obtain ⟨hi, -⟩ := Array.getElem?_eq_some_iff.mp hn
  cases hd : n.bestDescendant with
  | none =>
      refine ⟨t.isViable n, by rw [Tree.leadsToHead, hd], ?_, ?_⟩
      · exact fun hv => ⟨i, Below.refl, n, hn, hv⟩
      · intro hk hlead
        obtain ⟨n', hn', hv⟩ := h.viableAt_best i hk hlead
        rw [hdesc, hd, Option.getD_none, hn] at hn'
        injection hn' with hn'
        exact hn' ▸ hv
  | some d =>
      have hbelow := h.below i d (hdesc.trans hd)
      obtain ⟨m, hm⟩ : ∃ m, t.nodes[d]? = some m :=
        ⟨_, Array.getElem?_eq_getElem (hbelow.lt_size hi)⟩
      refine ⟨t.isViable m || t.isViable n, by rw [Tree.leadsToHead, hd]; simp only [hm], ?_, ?_⟩
      · intro hv
        rcases Bool.or_eq_true_iff.mp hv with hv | hv
        · exact ⟨d, hbelow, m, hm, hv⟩
        · exact ⟨i, Below.refl, n, hn, hv⟩
      · intro hk hlead
        obtain ⟨m', hm', hv⟩ := h.viableAt_best i hk hlead
        rw [hdesc, hd, Option.getD_some, hm] at hm'
        injection hm' with hm'
        rw [hm', hv, Bool.true_or]

/-- What is said to lead to a head does. -/
theorem leads_of_leadsToHead (h : Refreshing t k) {n : Node} (hn : t.nodes[i]? = some n)
    (hyes : t.leadsToHead n = .ok true) : t.Leads i := by
  obtain ⟨lead, hlead, hsound, -⟩ := h.leadsToHead hn
  rw [hyes] at hlead
  injection hlead with hlead
  exact hsound hlead.symm

/-- What leads to a head is said to, once all its children were offered. -/
theorem leadsToHead_of_leads (h : Refreshing t k) {n : Node} (hn : t.nodes[i]? = some n)
    (hk : k ≤ i + 1) (hi : t.Leads i) : t.leadsToHead n = .ok true := by
  obtain ⟨lead, hlead, -, hcomplete⟩ := h.leadsToHead hn
  rw [hlead, hcomplete hk hi]

/-- So what is said to lead nowhere leads nowhere. -/
theorem not_leads_of_leadsToHead (h : Refreshing t k) {n : Node} (hn : t.nodes[i]? = some n)
    (hk : k ≤ i + 1) (hno : t.leadsToHead n = .ok false) : ¬t.Leads i := by
  intro hi
  rw [h.leadsToHead_of_leads hn hk hi] at hno
  cases hno

/-- A best child that was offered is said to lead to a head. -/
theorem leadsToHead_settled (h : Refreshing t (k + 1)) (hb : bestChildAt t.nodes p = some b)
    (hkb : k < b) : ∃ o, t.nodes[b]? = some o ∧ t.leadsToHead o = .ok true := by
  have ho : t.nodes[b]? = some _ :=
    Array.getElem?_eq_getElem (lt_size_of_parentAt (h.child p b hb))
  exact ⟨_, ho, h.leadsToHead_of_leads ho (by omega) (h.settled p b hb hkb).1⟩

/-- Answers about the child on offer, and about a best child offered
before it, are right: a choice is a decision. -/
theorem decision (h : Refreshing t (k + 1)) (hn : t.nodes[p]? = some n)
    (hm : t.nodes[k]? = some m) (hchoice : Choice t k n m links) : Decision t p k links := by
  have hchild : bestChildAt t.nodes p = n.bestChild := by
    rw [bestChildAt, hn]
    rfl
  have hdesc : bestDescendantAt t.nodes p = n.bestDescendant := by
    rw [bestDescendantAt, hn]
    rfl
  have hrank : ∀ {i o}, t.nodes[i]? = some o → rankAt t.nodes i = rank o := by
    intro i o ho
    rw [rankAt, ho]
    rfl
  cases hchoice with
  | take hyes hbeats =>
      have hdesc' : m.bestDescendant = bestDescendantAt t.nodes k := by
        rw [bestDescendantAt, hm]
        rfl
      rw [hdesc']
      refine .take (h.leads_of_leadsToHead hm hyes) fun b hb hkb => ?_
      obtain ⟨o, ho, hlead⟩ := h.leadsToHead_settled hb hkb
      rw [hrank ho, hrank hm]
      exact hbeats b o (hchild ▸ hb) (by omega) ho hlead
  | none hbest hno =>
      rw [← hchild, ← hdesc]
      exact .none (hchild ▸ hbest) (h.not_leads_of_leadsToHead hm (Nat.le_refl _) hno)
  | keep b o hbest hne ho hold hbeaten =>
      rw [← hchild, ← hdesc]
      refine .keep b (hchild ▸ hbest) hne (h.leads_of_leadsToHead ho hold) fun hk => ?_
      rw [hrank ho, hrank hm]
      exact hbeaten (h.leadsToHead_of_leads hm (Nat.le_refl _) hk)
  | drop hno hold =>
      refine .drop (h.not_leads_of_leadsToHead hm (Nat.le_refl _) hno) fun b hb hkb => ?_
      obtain ⟨o, ho, hlead⟩ := h.leadsToHead_settled hb hkb
      rw [hold b o (hchild ▸ hb) (by omega) ho] at hlead
      cases hlead

/-- The best child of a block to which nothing is on offer was offered
before. -/
theorem settled_elsewhere (h : Refreshing t (k + 1)) (hpar : parentAt t.nodes k ≠ some i)
    (hb : bestChildAt t.nodes i = some b) (hkb : k ≤ b) :
    t.Leads b ∧ bestDescendantAt t.nodes i = some ((bestDescendantAt t.nodes b).getD b) := by
  have hne : k ≠ b := fun heq => hpar (heq ▸ h.child i b hb)
  exact h.settled i b hb (Nat.lt_of_le_of_ne hkb hne)

/-- Its children are outranked as before. -/
theorem covered_elsewhere (h : Refreshing t (k + 1)) (hpar : parentAt t.nodes k ≠ some i)
    (hkc : k ≤ c) (hcand : t.Candidate i c) :
    (∃ b, bestChildAt t.nodes i = some b ∧ k ≤ b ∧ rankAt t.nodes c ≤ rankAt t.nodes b)
      ∨ ∃ u < k, t.Candidate i u ∧ rankAt t.nodes c ≤ rankAt t.nodes u := by
  have hne : ∀ {c}, t.Candidate i c → k ≠ c := fun hcand heq => hpar (heq ▸ hcand.1)
  rcases h.covered i c (Nat.lt_of_le_of_ne hkc (hne hcand)) hcand with
    ⟨b, hb, hkb, hle⟩ | ⟨u, hu, hcand', hle⟩
  · exact Or.inl ⟨b, hb, by omega, hle⟩
  · exact Or.inr ⟨u, Nat.lt_of_le_of_ne (Nat.le_of_lt_succ hu) (hne hcand').symm, hcand', hle⟩

/-- A block without a parent is passed over. -/
theorem skip (h : Refreshing t (k + 1)) (hpar : parentAt t.nodes k = none) :
    Refreshing t k := by
  have hother (i : Nat) : parentAt t.nodes k ≠ some i := by
    rw [hpar]
    exact (Option.some_ne_none i).symm
  exact { h with
    settled := fun i _ hb hkb => h.settled_elsewhere (hother i) hb hkb
    covered := fun i _ hkc hcand => h.covered_elsewhere (hother i) hkc hcand }

/-- After an offer, the best child of the parent is a child of it. -/
theorem child_offer (h : Refreshing t (k + 1)) (hpar : parentAt t.nodes k = some p)
    (hdecision : Decision t p k links) (hb : links.1 = some b) :
    parentAt t.nodes b = some p := by
  cases hdecision with
  | take =>
      injection hb with hb
      exact hb ▸ hpar
  | none => exact h.child p b hb
  | keep => exact h.child p b hb
  | drop => cases hb

/-- Without one, it has no best descendant. -/
theorem alone_offer (h : Refreshing t (k + 1)) (hdecision : Decision t p k links)
    (hnone : links.1 = none) : links.2 = none := by
  cases hdecision with
  | take => cases hnone
  | none => exact h.alone p hnone
  | keep => exact h.alone p hnone
  | drop => rfl

/-- Its best descendant is below it. -/
theorem below_offer (h : Refreshing t (k + 1)) (hpar : parentAt t.nodes k = some p)
    (hdecision : Decision t p k links) (hd : links.2 = some d) : Below t.nodes p d := by
  cases hdecision with
  | take =>
      injection hd with hd
      refine (Below.of_parent hpar).trans ?_
      cases hbd : bestDescendantAt t.nodes k with
      | none =>
          rw [hbd, Option.getD_none] at hd
          exact hd ▸ Below.refl
      | some d' =>
          rw [hbd, Option.getD_some] at hd
          exact hd ▸ h.below k d' hbd
  | none => exact h.below p d hd
  | keep => exact h.below p d hd
  | drop => cases hd

/-- A best child that was offered leads to a head, and its best descendant
is that of the parent. -/
theorem settled_offer (h : Refreshing t (k + 1)) (hdecision : Decision t p k links)
    (hb : links.1 = some b) (hkb : k ≤ b) :
    t.Leads b ∧ links.2 = some ((bestDescendantAt t.nodes b).getD b) := by
  cases hdecision with
  | take hlead =>
      injection hb with hb
      subst hb
      exact ⟨hlead, rfl⟩
  | none hnone => exact absurd hb (ne_of_eq_of_ne hnone (Option.some_ne_none b).symm)
  | keep b' hb' hne =>
      obtain rfl := Option.some.inj (hb.symm.trans hb')
      exact h.settled p b hb (Nat.lt_of_le_of_ne hkb hne.symm)
  | drop => cases hb

/-- After an offer, each child offered so far is outranked by the best
child or by one to come: whichever it was outranked by before, or else
the child on offer, is at most as good as one of these. -/
theorem covered_offer (h : Refreshing t (k + 1)) (hpar : parentAt t.nodes k = some p)
    (hdecision : Decision t p k links)
    (hkc : k ≤ c) (hcand : t.Candidate p c) :
    (∃ b, links.1 = some b ∧ k ≤ b ∧ rankAt t.nodes c ≤ rankAt t.nodes b)
      ∨ ∃ u < k, t.Candidate p u ∧ rankAt t.nodes c ≤ rankAt t.nodes u := by
  have hbefore :
      (∃ b, bestChildAt t.nodes p = some b ∧ k < b ∧ rankAt t.nodes c ≤ rankAt t.nodes b)
        ∨ (∃ u < k, t.Candidate p u ∧ rankAt t.nodes c ≤ rankAt t.nodes u)
        ∨ (t.Leads k ∧ rankAt t.nodes c ≤ rankAt t.nodes k) := by
    rcases Nat.eq_or_lt_of_le hkc with rfl | hlt
    · exact Or.inr (Or.inr ⟨hcand.2, le_refl _⟩)
    · rcases h.covered p c hlt hcand with ⟨b, hb, hkb, hle⟩ | ⟨u, hu, hcand', hle⟩
      · exact Or.inl ⟨b, hb, hkb, hle⟩
      · rcases Nat.eq_or_lt_of_le (Nat.le_of_lt_succ hu) with rfl | hlt
        · exact Or.inr (Or.inr ⟨hcand'.2, hle⟩)
        · exact Or.inr (Or.inl ⟨u, hlt, hcand', hle⟩)
  rcases hbefore with ⟨b, hb, hkb, hle⟩ | hcome | ⟨hlead, hle⟩
  · -- it was outranked by the best child, which was offered before
    cases hdecision with
    | take _ hbeats => exact Or.inl ⟨k, rfl, Nat.le_refl k, hle.trans (hbeats b hb hkb)⟩
    | none => exact Or.inl ⟨b, hb, Nat.le_of_lt hkb, hle⟩
    | keep => exact Or.inl ⟨b, hb, Nat.le_of_lt hkb, hle⟩
    | drop _ hnot => exact absurd hkb (hnot b hb)
  · exact Or.inr hcome
  · -- it is outranked by the child on offer, which leads to a head
    cases hdecision with
    | take => exact Or.inl ⟨k, rfl, Nat.le_refl k, hle⟩
    | none _ hnot => exact absurd hlead hnot
    | keep b hb hne hleadb hbeaten =>
        have hle' := hle.trans (hbeaten hlead)
        rcases Nat.lt_or_gt_of_ne hne with hbk | hkb
        · exact Or.inr ⟨b, hbk, ⟨h.child p b hb, hleadb⟩, hle'⟩
        · exact Or.inl ⟨b, hb, Nat.le_of_lt hkb, hle'⟩
    | drop hnot => exact absurd hlead hnot

/-- Any choice of the parent carries the invariant on. -/
theorem relink (h : Refreshing t (k + 1)) (hpar : parentAt t.nodes k = some p)
    (hn : t.nodes[p]? = some n) (hm : t.nodes[k]? = some m)
    (hchoice : Choice t k n m links) : Refreshing (t.relink p n links) k := by
  have hsame : Relinked t (t.relink p n links) := relinked_relink hn
  have hdecision := h.decision hn hm hchoice
  have hpk := h.rooted k p hpar
  have hother {i : Nat} (hip : i ≠ p) : parentAt t.nodes k ≠ some i := fun heq =>
    hip (Option.some.inj (heq.symm.trans hpar))
  constructor
  case rooted =>
    intro i q hq
    rw [hsame.parentAt] at hq
    exact h.rooted i q hq
  case child =>
    intro i b hb
    rw [bestChildAt_relink hn] at hb
    rw [hsame.parentAt]
    split at hb
    case isTrue hip => exact hip ▸ h.child_offer hpar hdecision hb
    case isFalse => exact h.child i b hb
  case alone =>
    intro i hi
    rw [bestChildAt_relink hn] at hi
    rw [bestDescendantAt_relink hn]
    split at hi
    case isTrue hip => rw [if_pos hip, h.alone_offer hdecision hi]
    case isFalse hip => rw [if_neg hip, h.alone i hi]
  case below =>
    intro i d hd
    rw [bestDescendantAt_relink hn] at hd
    rw [below_congr hsame.parentAt]
    split at hd
    case isTrue hip => exact hip ▸ h.below_offer hpar hdecision hd
    case isFalse => exact h.below i d hd
  case settled =>
    intro i b hb hkb
    -- the best child comes after `p`, so its own links are as they were
    have hbp : b ≠ p := by omega
    rw [bestChildAt_relink hn] at hb
    rw [hsame.leads, bestDescendantAt_relink hn, bestDescendantAt_relink hn, if_neg hbp]
    split at hb
    case isTrue hip => exact if_pos hip ▸ h.settled_offer hdecision hb hkb
    case isFalse hip => exact if_neg hip ▸ h.settled_elsewhere (hother hip) hb hkb
  case covered =>
    intro i c hkc hcand
    rw [hsame.candidate] at hcand
    simp only [bestChildAt_relink hn, hsame.rankAt, hsame.candidate]
    split
    case isTrue hip =>
      subst hip
      exact h.covered_offer hpar hdecision hkc hcand
    case isFalse hip => exact h.covered_elsewhere (hother hip) hkc hcand

-- =========================================================== the pass

/-- An offer succeeds, and carries the invariant on. -/
theorem offerChild (h : Refreshing t (k + 1)) (hpar : parentAt t.nodes k = some p) :
    ∃ t', t.offerChild p k = .ok t' ∧ Refreshing t' k ∧ Relinked t t' := by
  have hk := lt_size_of_parentAt hpar
  have hp : p < t.nodes.size := Nat.lt_trans (h.rooted k p hpar) hk
  obtain ⟨m, hm⟩ : ∃ m, t.nodes[k]? = some m := ⟨_, Array.getElem?_eq_getElem hk⟩
  obtain ⟨n, hn⟩ : ∃ n, t.nodes[p]? = some n := ⟨_, Array.getElem?_eq_getElem hp⟩
  obtain ⟨eligible, hlead, -⟩ := h.leadsToHead hm
  have hbest : ∀ b, n.bestChild = some b →
      ∃ o lead, t.nodes[b]? = some o ∧ t.leadsToHead o = .ok lead := by
    intro b hb
    have hchild : bestChildAt t.nodes p = some b := by
      rw [bestChildAt, hn]
      exact hb
    obtain ⟨o, ho⟩ : ∃ o, t.nodes[b]? = some o :=
      ⟨_, Array.getElem?_eq_getElem (lt_size_of_parentAt (h.child p b hchild))⟩
    obtain ⟨lead, hlead', -⟩ := h.leadsToHead ho
    exact ⟨o, lead, ho, hlead'⟩
  obtain ⟨links, hlinks, hchoice⟩ := linksAfter_choice hlead hbest
  refine ⟨t.relink p n links, ?_, h.relink hpar hn hm hchoice, relinked_relink hn⟩
  simp only [Tree.offerChild, hm, hn, hlinks]
  rfl

/-- The pass always comes to its end, and changes nothing but links. -/
theorem refreshLinks (h : Refreshing t k) :
    ∃ t', Tree.refreshLinks k t = (t', .ok ()) ∧ Refreshing t' 0 ∧ Relinked t t' := by
  induction k generalizing t with
  | zero => exact ⟨t, rfl, h, .refl t⟩
  | succ k ih =>
      rw [Tree.refreshLinks]
      cases hpar : t.nodes[k]?.bind (·.parent) with
      | none => exact ih (h.skip hpar)
      | some p =>
          obtain ⟨t₁, hoffer, h₁, hsame₁⟩ := h.offerChild hpar
          simp only [hoffer]
          obtain ⟨t', hrest, h', hsame'⟩ := ih h₁
          exact ⟨t', hrest, h', hsame₁.trans hsame'⟩

-- ====================================================== after the pass

/-- After the pass, a best child is a candidate. -/
theorem candidate (h : Refreshing t 0) (hb : bestChildAt t.nodes i = some b) :
    t.Candidate i b :=
  ⟨h.child i b hb, (h.settled i b hb (Nat.zero_le b)).1⟩

/-- After the pass, every candidate is outranked by the best child. -/
theorem le_best (h : Refreshing t 0) (hc : t.Candidate i c) :
    ∃ b, bestChildAt t.nodes i = some b ∧ rankAt t.nodes c ≤ rankAt t.nodes b := by
  rcases h.covered i c (Nat.zero_le c) hc with ⟨b, hb, -, hle⟩ | ⟨u, hu, -⟩
  · exact ⟨b, hb, hle⟩
  · exact absurd hu (Nat.not_lt_zero u)

/-- After the pass, a block has no best child if and only if it has no
candidates. -/
theorem bestChildAt_eq_none_iff (h : Refreshing t 0) :
    bestChildAt t.nodes i = none ↔ ∀ c, ¬ t.Candidate i c := by
  constructor
  · intro hnone c hc
    obtain ⟨b, hb, -⟩ := h.le_best hc
    rw [hnone] at hb
    cases hb
  · intro hnone
    cases hb : bestChildAt t.nodes i with
    | none => rfl
    | some b => exact absurd (h.candidate hb) (hnone b)

/-- After the pass, the best child is the greatest candidate, if ranks
tell blocks apart. -/
theorem bestChildAt_eq_some_iff (h : Refreshing t 0)
    (hinj : ∀ a b, a < t.nodes.size → b < t.nodes.size →
      rankAt t.nodes a = rankAt t.nodes b → a = b) :
    bestChildAt t.nodes i = some c ↔ t.IsBestChild i c := by
  constructor
  · intro hc
    refine ⟨h.candidate hc, fun c' hc' => ?_⟩
    obtain ⟨b, hb, hle⟩ := h.le_best hc'
    rw [hc] at hb
    injection hb with hb
    exact hb ▸ hle
  · rintro ⟨hc, hmax⟩
    obtain ⟨b, hb, hle⟩ := h.le_best hc
    have hcand := h.candidate hb
    rw [hb, hinj b c (lt_size_of_parentAt hcand.1) (lt_size_of_parentAt hc.1)
      (le_antisymm (hmax b hcand) hle)]

/-- After the pass, the best descendant of a block, or the block itself
if it has none, is where its chain of best children ends. -/
theorem lastBest (h : Refreshing t 0) (i : Nat) :
    LastBest t.nodes i ((bestDescendantAt t.nodes i).getD i) := by
  suffices key : ∀ m i, t.nodes.size - i ≤ m →
      LastBest t.nodes i ((bestDescendantAt t.nodes i).getD i) by
    exact key _ i (Nat.le_refl _)
  intro m
  induction m with
  | zero =>
      intro i hm
      have hi : t.nodes[i]? = none := Array.getElem?_eq_none (by omega)
      have hnone : bestChildAt t.nodes i = none := by rw [bestChildAt, hi]; rfl
      rw [h.alone i hnone]
      exact ⟨.refl, hnone⟩
  | succ m ih =>
      intro i hm
      cases hb : bestChildAt t.nodes i with
      | none =>
          rw [h.alone i hb]
          exact ⟨.refl, hb⟩
      | some b =>
          have hpar := h.child i b hb
          have hlt := h.rooted b i hpar
          have hsize := lt_size_of_parentAt hpar
          rw [(h.settled i b hb (Nat.zero_le b)).2]
          obtain ⟨hchain, hend⟩ := ih b (by omega)
          exact ⟨.head hb hchain, hend⟩

end Refreshing

/-- A chain of best children has one end. -/
theorem LastBest.unique (h : LastBest nodes i d) (h' : LastBest nodes i e) : d = e := by
  have hunique : Relator.RightUnique fun a b => bestChildAt nodes a = some b := by
    intro a b c hb hc
    rw [hb] at hc
    injection hc
  -- of two ends, one is reached from the other, but nothing is reached from an end
  have key : ∀ {d e}, bestChildAt nodes d = none →
      ReflTransGen (fun a b => bestChildAt nodes a = some b) d e → d = e := by
    intro d e hd hde
    rcases ReflTransGen.cases_head hde with rfl | ⟨b, hb, -⟩
    · rfl
    · rw [hd] at hb
      cases hb
  rcases ReflTransGen.total_of_right_unique hunique h.1 h'.1 with hde | hed
  · exact key h.2 hde
  · exact (key h'.2 hed).symm

end ChainHead.Tree
