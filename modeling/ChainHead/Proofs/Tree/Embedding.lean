/-
One tree within another, with whole subtrees.

`Embeds e t u` says that each block of `t` has a counterpart in `u`,
found by the map `e` of positions, with the same root, epochs and weight
and with the same children: whatever is a child of a counterpart is the
counterpart of a child. Nothing is said of parents, so the rest of `u`
may hold anything, even the parents of blocks that have none in `t`; nor
of the order in which blocks stand.

# What carries over

Descent below a block does (`Embeds.below`), and with it everything that
the choice of a head looks at: which blocks lead to a viable one, which
child is best (`Embeds.isBestChild`), and, where links are up to date,
the links themselves. So a search for the head that starts in `t`
answers the same in `u` (`Embeds.findHead`).

To apply scores carries over, too, if counterparts get the same deltas
(`Embeds.scored`); and to apply nothing to a tree that is up to date
leaves it exactly as it is (`Scored.eq_of_zero`), because links that
depend on nothing but the tree are the same the second time.
-/
import ChainHead.Proofs.Tree.Run

namespace ChainHead.Tree

open Relation
open Finset (range)

variable {t t' u u' : Tree} {n m : Node} {root : Root} {e : Nat → Nat} {d d' : Nat → Int}
variable {i j c : Nat} {justifiedEpoch finalizedEpoch : Epoch}

-- ============================================== statement vocabulary

/-- Whether two blocks are the same to the choice of a head, links
apart. -/
structure Alike (n m : Node) : Prop where
  root : m.root = n.root
  justifiedEpoch : m.justifiedEpoch = n.justifiedEpoch
  finalizedEpoch : m.finalizedEpoch = n.finalizedEpoch
  weight : m.weight = n.weight

/-- Whether a map of positions leads from the blocks of a tree to
counterparts in another; see the head of the file. -/
structure Embeds (e : Nat → Nat) (t u : Tree) : Prop where
  node : ∀ (i : Nat) n, t.nodes[i]? = some n → ∃ m, u.nodes[e i]? = some m ∧ Alike n m
  child : ∀ i c, i < t.nodes.size →
    (parentAt u.nodes c = some (e i) ↔ ∃ b, parentAt t.nodes b = some i ∧ e b = c)
  justifiedEpoch : u.justifiedEpoch = t.justifiedEpoch
  finalizedEpoch : u.finalizedEpoch = t.finalizedEpoch

/-- Paths correspond where steps do. -/
theorem reflTransGen_image {R S : Nat → Nat → Prop} {P : Nat → Prop}
    (hclosed : ∀ a b, P a → R a b → P b)
    (hstep : ∀ a, P a → ∀ c, S (e a) c ↔ ∃ b, R a b ∧ e b = c) {a : Nat} (ha : P a) :
    ReflTransGen S (e a) c ↔ ∃ b, ReflTransGen R a b ∧ e b = c := by
  have hpath : ∀ b, ReflTransGen R a b → P b := by
    intro b hab
    induction hab with
    | refl => exact ha
    | tail _ hbc ih => exact hclosed _ _ ih hbc
  constructor
  · intro h
    induction h with
    | refl => exact ⟨a, .refl, rfl⟩
    | tail _ hbc ih =>
        obtain ⟨b, hab, rfl⟩ := ih
        obtain ⟨b', hbb', rfl⟩ := (hstep b (hpath b hab) _).mp hbc
        exact ⟨b', hab.tail hbb', rfl⟩
  · rintro ⟨b, hab, rfl⟩
    induction hab with
    | refl => exact .refl
    | tail hab hbc ih => exact ih.tail ((hstep _ (hpath _ hab) _).mpr ⟨_, hbc, rfl⟩)

namespace Embeds

-- ============================================================== blocks

theorem lt_size (h : Embeds e t u) (hi : i < t.nodes.size) : e i < u.nodes.size := by
  obtain ⟨m, hm, -⟩ := h.node i _ (Array.getElem?_eq_getElem hi)
  exact (Array.getElem?_eq_some_iff.mp hm).1

theorem get (h : Embeds e t u) (hi : i < t.nodes.size) :
    ∃ n m, t.nodes[i]? = some n ∧ u.nodes[e i]? = some m ∧ Alike n m := by
  obtain ⟨m, hm, hsame⟩ := h.node i _ (Array.getElem?_eq_getElem hi)
  exact ⟨_, m, Array.getElem?_eq_getElem hi, hm, hsame⟩

/-- A counterpart is found under the root of its block, and under no
other. -/
theorem position_iff (h : Embeds e t u) (ht : Sound t) (hu : Sound u)
    (hi : i < t.nodes.size) : u.position? root = some (e i) ↔ t.position? root = some i := by
  obtain ⟨n, m, hn, hm, hsame⟩ := h.get hi
  rw [hu.position, ht.position]
  constructor
  · intro ⟨m', hm', hroot⟩
    rw [hm] at hm'
    injection hm' with hm'
    exact ⟨n, hn, by rw [← hsame.root, hm', hroot]⟩
  · intro ⟨n', hn', hroot⟩
    rw [hn] at hn'
    injection hn' with hn'
    exact ⟨m, hm, by rw [hsame.root, hn', hroot]⟩

/-- No two blocks share a counterpart. -/
theorem injective (h : Embeds e t u) (ht : Sound t) (hi : i < t.nodes.size)
    (hj : j < t.nodes.size) (heq : e i = e j) : i = j := by
  obtain ⟨n, m, hn, hm, hsame⟩ := h.get hi
  obtain ⟨n', m', hn', hm', hsame'⟩ := h.get hj
  rw [heq, hm'] at hm
  injection hm with hm
  exact ht.root_injective hn hn' (by rw [← hsame.root, ← hm, hsame'.root])

theorem isViable (h : Embeds e t u) (hsame : Alike n m) : u.isViable m = t.isViable n := by
  simp only [Tree.isViable, hsame.justifiedEpoch, hsame.finalizedEpoch, h.justifiedEpoch,
    h.finalizedEpoch]

theorem verdict (h : Embeds e t u) (hsame : Alike n m) : u.verdict m = t.verdict n := by
  unfold Tree.verdict
  rw [h.isViable hsame, hsame.root, hsame.justifiedEpoch, hsame.finalizedEpoch,
    h.justifiedEpoch, h.finalizedEpoch]

theorem viableAt (h : Embeds e t u) (hi : i < t.nodes.size) :
    u.ViableAt (e i) ↔ t.ViableAt i := by
  obtain ⟨n, m, hn, hm, hsame⟩ := h.get hi
  unfold ViableAt
  rw [hn, hm]
  simp [h.isViable hsame]

theorem rankAt (h : Embeds e t u) (hi : i < t.nodes.size) :
    rankAt u.nodes (e i) = rankAt t.nodes i := by
  obtain ⟨n, m, hn, hm, hsame⟩ := h.get hi
  simp only [Tree.rankAt, hn, hm, Option.getD_some, rank, hsame.root, hsame.weight]

-- ============================================================= descent

/-- What is below a counterpart is a counterpart of what is below. -/
theorem below (h : Embeds e t u) (hi : i < t.nodes.size) :
    Below u.nodes (e i) j ↔ ∃ i', Below t.nodes i i' ∧ e i' = j :=
  reflTransGen_image (fun _ _ _ hb => lt_size_of_parentAt hb) (fun a ha c => h.child a c ha) hi

theorem leads (h : Embeds e t u) (hi : i < t.nodes.size) : u.Leads (e i) ↔ t.Leads i := by
  unfold Leads
  simp only [h.below hi]
  constructor
  · intro ⟨_, ⟨j, hij, hj⟩, hviable⟩
    subst hj
    exact ⟨j, hij, (h.viableAt (hij.lt_size hi)).mp hviable⟩
  · intro ⟨j, hij, hviable⟩
    exact ⟨e j, ⟨j, hij, rfl⟩, (h.viableAt (hij.lt_size hi)).mpr hviable⟩

theorem candidate (h : Embeds e t u) (hi : i < t.nodes.size) :
    u.Candidate (e i) c ↔ ∃ b, t.Candidate i b ∧ e b = c := by
  unfold Candidate
  rw [h.child i c hi]
  constructor
  · intro ⟨⟨b, hb, hbc⟩, hleads⟩
    subst hbc
    exact ⟨b, ⟨hb, (h.leads (lt_size_of_parentAt hb)).mp hleads⟩, rfl⟩
  · intro ⟨b, ⟨hb, hleads⟩, hbc⟩
    subst hbc
    exact ⟨⟨b, hb, rfl⟩, (h.leads (lt_size_of_parentAt hb)).mpr hleads⟩

/-- The best child of a counterpart is the counterpart of the best
child. -/
theorem isBestChild (h : Embeds e t u) (hi : i < t.nodes.size) (hc : t.IsBestChild i c) :
    u.IsBestChild (e i) (e c) := by
  obtain ⟨hcand, hmax⟩ := hc
  refine ⟨(h.candidate hi).mpr ⟨c, hcand, rfl⟩, fun b' hb' => ?_⟩
  obtain ⟨b, hb, rfl⟩ := (h.candidate hi).mp hb'
  rw [h.rankAt (lt_size_of_parentAt hb.1), h.rankAt (lt_size_of_parentAt hcand.1)]
  exact hmax b hb

-- =============================================================== links

/-- Links to best children correspond where they are up to date. -/
theorem bestChildAt (h : Embeds e t u) (ht : ∀ i, BestLinked t i) (hu : ∀ i, BestLinked u i)
    (hi : i < t.nodes.size) :
    bestChildAt u.nodes (e i) = (bestChildAt t.nodes i).map e := by
  cases hb : Tree.bestChildAt t.nodes i with
  | none =>
      apply (hu (e i)).childless.mpr
      intro c hc
      obtain ⟨b, hcand, -⟩ := (h.candidate hi).mp hc
      exact (ht i).childless.mp hb b hcand
  | some b => exact ((hu (e i)).child (e b)).mpr (h.isBestChild hi (((ht i).child b).mp hb))

/-- Chains of best children end at counterparts. -/
theorem lastBest (h : Embeds e t u) (ht : ∀ i, BestLinked t i) (hu : ∀ i, BestLinked u i)
    (hi : i < t.nodes.size) :
    LastBest u.nodes (e i) j ↔ ∃ i', LastBest t.nodes i i' ∧ e i' = j := by
  have hclosed : ∀ a b, a < t.nodes.size → Tree.bestChildAt t.nodes a = some b →
      b < t.nodes.size := fun a b _ hb =>
    lt_size_of_parentAt (((ht a).child b).mp hb).1.1
  have hpath : ∀ b, ReflTransGen (fun a b => Tree.bestChildAt t.nodes a = some b) i b →
      b < t.nodes.size := by
    intro b hib
    induction hib with
    | refl => exact hi
    | tail _ hbc ih => exact hclosed _ _ ih hbc
  unfold LastBest
  rw [reflTransGen_image hclosed (fun a ha c => by
    rw [h.bestChildAt ht hu ha, Option.map_eq_some_iff]) hi]
  constructor
  · intro ⟨⟨i', hpath', hj⟩, hend⟩
    subst hj
    rw [h.bestChildAt ht hu (hpath i' hpath'), Option.map_eq_none_iff] at hend
    exact ⟨i', ⟨hpath', hend⟩, rfl⟩
  · intro ⟨i', ⟨hpath', hend⟩, hj⟩
    subst hj
    exact ⟨⟨i', hpath', rfl⟩, by rw [h.bestChildAt ht hu (hpath i' hpath'), hend]; rfl⟩

/-- Links to best descendants correspond where links are up to date. -/
theorem bestDescendantAt (h : Embeds e t u) (ht : ∀ i, BestLinked t i)
    (hu : ∀ i, BestLinked u i) (hi : i < t.nodes.size) :
    bestDescendantAt u.nodes (e i) = (bestDescendantAt t.nodes i).map e := by
  refine Option.ext fun j => ?_
  rw [(hu (e i)).descendant, h.bestChildAt ht hu hi, h.lastBest ht hu hi,
    Option.map_eq_some_iff]
  simp only [(ht i).descendant, ne_eq, Option.map_eq_none_iff]
  constructor
  · intro ⟨hchild, i', hlast, hj⟩
    exact ⟨i', ⟨hchild, hlast⟩, hj⟩
  · intro ⟨i', ⟨hchild, hlast⟩, hj⟩
    exact ⟨hchild, i', hlast, hj⟩

/-- A search for the head that starts at a block answers the same at its
counterpart, if links to best descendants correspond. -/
theorem findHead (h : Embeds e t u) (ht : Sound t) (hu : Sound u)
    (hlinks : ∀ i < t.nodes.size,
      Tree.bestDescendantAt u.nodes (e i) = (Tree.bestDescendantAt t.nodes i).map e)
    (hi : t.position? root = some i) : u.findHead root = t.findHead root := by
  have hlt := ht.lt_size_of_position hi
  have hpos := (h.position_iff ht hu hlt).mpr hi
  rcases ht.findHead_cases root with ⟨hnone, -⟩ | ⟨i', n, hi', hn, heq⟩
  · rw [hi] at hnone
    cases hnone
  rcases hu.findHead_cases root with ⟨hnone, -⟩ | ⟨j, m, hj, hm, heq'⟩
  · rw [hpos] at hnone
    cases hnone
  rw [hi] at hi'
  injection hi' with hi'
  subst hi'
  rw [hpos] at hj
  injection hj with hj
  subst hj
  obtain ⟨m', hm', hsame⟩ := h.node _ n hn
  have hend : (Tree.bestDescendantAt u.nodes (e i)).getD (e i)
      = e ((Tree.bestDescendantAt t.nodes i).getD i) := by
    rw [hlinks i hlt, Option.getD_map]
  rw [hend, hm'] at hm
  injection hm with hm
  rw [heq, heq', ← hm]
  exact h.verdict hsame

-- ============================================================== scores

/-- Deltas that correspond add up to the same in corresponding
subtrees. -/
theorem shift (h : Embeds e t u) (ht : Sound t) (hd : ∀ x < t.nodes.size, d' (e x) = d x)
    (hi : i < t.nodes.size) : shift u.nodes d' (e i) = shift t.nodes d i := by
  classical
  unfold Tree.shift
  symm
  refine Finset.sum_nbij e (fun x hx => ?_) (fun x hx y hy hxy => ?_) (fun y hy => ?_)
    fun x hx => ?_
  · obtain ⟨hlt, hbelow⟩ := Finset.mem_filter.mp hx
    rw [Finset.mem_filter, Finset.mem_range]
    exact ⟨h.lt_size (Finset.mem_range.mp hlt), (h.below hi).mpr ⟨x, hbelow, rfl⟩⟩
  · exact h.injective ht (Finset.mem_range.mp (Finset.mem_filter.mp hx).1)
      (Finset.mem_range.mp (Finset.mem_filter.mp hy).1) hxy
  · obtain ⟨-, hbelow⟩ := Finset.mem_filter.mp hy
    obtain ⟨x, hx, hxy⟩ := (h.below hi).mp hbelow
    exact ⟨x, Finset.mem_filter.mpr ⟨Finset.mem_range.mpr (hx.lt_size hi), hx⟩, hxy⟩
  · exact (hd x (Finset.mem_range.mp (Finset.mem_filter.mp hx).1)).symm

/-- A new weight fits at a block if it does at its counterpart. -/
theorem fits (h : Embeds e t u) (ht : Sound t) (hd : ∀ x < t.nodes.size, d' (e x) = d x)
    (hi : i < t.nodes.size) (hfits : Fits u.nodes d' (e i)) : Fits t.nodes d i := by
  obtain ⟨n, m, hn, hm, hsame⟩ := h.get hi
  obtain ⟨m', hm', hrange⟩ := hfits
  rw [hm] at hm'
  injection hm' with hm'
  rw [← hm', hsame.weight, h.shift ht hd hi] at hrange
  exact ⟨n, hn, hrange⟩

/-- Scores that correspond keep trees embedded. -/
theorem scored (h : Embeds e t u) (ht : Sound t) (hd : ∀ x < t.nodes.size, d' (e x) = d x)
    (hscored : Scored t d justifiedEpoch finalizedEpoch t')
    (hscored' : Scored u d' justifiedEpoch finalizedEpoch u') : Embeds e t' u' where
  node := by
    intro i n' hn'
    obtain ⟨n, hn, hbare⟩ := hscored.get_old hn'
    obtain ⟨m, hm, hsame⟩ := h.node i n hn
    obtain ⟨m', hm', hbare'⟩ := hscored'.get hm
    have hlt := (Array.getElem?_eq_some_iff.mp hn).1
    have hweight := hscored.weight i n n' hn hn'
    have hweight' := hscored'.weight (e i) m m' hm hm'
    rw [h.shift ht hd hlt, hsame.weight, ← hweight] at hweight'
    refine ⟨m', hm', ?_, ?_, ?_, UInt64.toNat_inj.mp (Int.ofNat.inj hweight')⟩
    · show (unscored m').root = (unscored n').root
      rw [hbare', ← hbare]
      exact hsame.root
    · show (unscored m').justifiedEpoch = (unscored n').justifiedEpoch
      rw [hbare', ← hbare]
      exact hsame.justifiedEpoch
    · show (unscored m').finalizedEpoch = (unscored n').finalizedEpoch
      rw [hbare', ← hbare]
      exact hsame.finalizedEpoch
  child := by
    intro i c hi
    rw [hscored.parentAt, hscored'.parentAt]
    exact h.child i c (hscored.size ▸ hi)
  justifiedEpoch := hscored'.justifiedEpoch.trans hscored.justifiedEpoch.symm
  finalizedEpoch := hscored'.finalizedEpoch.trans hscored.finalizedEpoch.symm

end Embeds

-- ======================================================= nothing to do

theorem eq_of_unscored (hbare : unscored m = unscored n) (hweight : m.weight = n.weight)
    (hchild : m.bestChild = n.bestChild) (hdesc : m.bestDescendant = n.bestDescendant) :
    m = n := by
  cases n
  cases m
  simp only [unscored, unlinked, Node.mk.injEq] at hbare
  simp_all

theorem Scored.bestLinked (hscored : Scored t d justifiedEpoch finalizedEpoch t')
    (h : Sound t) (i : Nat) : BestLinked t' i :=
  (hscored.sound h).bestLinked hscored.refreshing i

/-- A tree to which scores were applied is embedded in what it becomes
when nothing more is applied. -/
theorem Scored.embeds_of_zero (hscored : Scored t (fun _ => 0) justifiedEpoch finalizedEpoch t')
    (hjustified : t.justifiedEpoch = justifiedEpoch)
    (hfinalized : t.finalizedEpoch = finalizedEpoch) : Embeds id t t' where
  node := by
    intro i n hn
    obtain ⟨n', hn', hbare⟩ := hscored.get hn
    have hweight := hscored.weight i n n' hn hn'
    unfold shift at hweight
    rw [Finset.sum_const_zero, Int.add_zero] at hweight
    refine ⟨n', hn', root_eq_of_unscored hbare, ?_, ?_, UInt64.toNat_inj.mp
      (Int.ofNat.inj hweight)⟩
    · show (unscored n').justifiedEpoch = (unscored n).justifiedEpoch
      rw [hbare]
    · show (unscored n').finalizedEpoch = (unscored n).finalizedEpoch
      rw [hbare]
  child := by
    intro i c _
    rw [hscored.parentAt]
    simp
  justifiedEpoch := hscored.justifiedEpoch.trans hjustified.symm
  finalizedEpoch := hscored.finalizedEpoch.trans hfinalized.symm

/-- To apply nothing to a tree that is up to date leaves it as it is. -/
theorem Scored.eq_of_zero (h : Sound t) (hlinked : ∀ i, BestLinked t i)
    (hscored : Scored t (fun _ => 0) justifiedEpoch finalizedEpoch t')
    (hjustified : t.justifiedEpoch = justifiedEpoch)
    (hfinalized : t.finalizedEpoch = finalizedEpoch) : t' = t := by
  have hembeds := hscored.embeds_of_zero hjustified hfinalized
  have hnodes : t'.nodes = t.nodes := by
    refine Array.ext_getElem? fun i => ?_
    cases hn : t.nodes[i]? with
    | none =>
        rw [Array.getElem?_eq_none_iff, hscored.size]
        exact Array.getElem?_eq_none_iff.mp hn
    | some n =>
        obtain ⟨n', hn', hbare⟩ := hscored.get hn
        obtain ⟨m, hm, hsame⟩ := hembeds.node i n hn
        have hlt := (Array.getElem?_eq_some_iff.mp hn).1
        rw [id, hn'] at hm
        injection hm with hm
        have hchild := hembeds.bestChildAt hlinked (hscored.bestLinked h) hlt
        have hdesc := hembeds.bestDescendantAt hlinked (hscored.bestLinked h) hlt
        rw [id, Option.map_id_fun, id, bestChildAt, bestChildAt, hn, hn'] at hchild
        rw [id, Option.map_id_fun, id, bestDescendantAt, bestDescendantAt, hn, hn'] at hdesc
        rw [hn', eq_of_unscored hbare (hm ▸ hsame.weight) hchild hdesc]
  have hpositions := hscored.positions
  have hthreshold := hscored.pruneThreshold
  have hepochs := hembeds.justifiedEpoch
  have hepochs' := hembeds.finalizedEpoch
  cases t
  cases t'
  rw [Tree.mk.injEq]
  exact ⟨hthreshold, hepochs, hepochs', hnodes, hpositions⟩

end ChainHead.Tree
