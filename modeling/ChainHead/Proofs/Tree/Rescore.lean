/-
What applying scores leaves: exact weights, and best links that depend
on nothing but weights, roots, epochs and lines of descent.

The three results a caller can see are told apart by
`Sound.applyScores_cases`. Either the number of deltas is wrong, or a
sum or a weight does not fit, and then the tree is the one before the
call, epochs included; or the tree is `Scored`. The second pass never
fails in a sound tree, so there is no fourth case in which the call has
done half of its work.
-/
import ChainHead.Proofs.Tree.Settle
import ChainHead.Proofs.Tree.Sound

namespace ChainHead.Tree

variable {t t' u : Tree} {nodes : Array Node} {n n' : Node} {d : Nat → Int} {i j : Nat}
variable {justifiedEpoch finalizedEpoch : Epoch}

-- ============================================== statement vocabulary

/-- A block without what scores are applied to. -/
def unscored (n : Node) : Node :=
  { unlinked n with weight := 0 }

theorem root_eq_of_unscored (h : unscored n' = unscored n) : n'.root = n.root := by
  show (unscored n').root = (unscored n).root
  rw [h]

/-- A tree with a family of deltas and new epochs applied to it. -/
structure Scored (t : Tree) (d : Nat → Int) (justifiedEpoch finalizedEpoch : Epoch)
    (t' : Tree) : Prop where
  nodes : ∀ i : Nat, t'.nodes[i]?.map unscored = t.nodes[i]?.map unscored
  weight : ∀ (i : Nat) n n', t.nodes[i]? = some n → t'.nodes[i]? = some n' →
    (n'.weight.toNat : Int) = n.weight.toNat + shift t.nodes d i
  positions : t'.positions = t.positions
  justifiedEpoch : t'.justifiedEpoch = justifiedEpoch
  finalizedEpoch : t'.finalizedEpoch = finalizedEpoch
  pruneThreshold : t'.pruneThreshold = t.pruneThreshold
  refreshing : Refreshing t' 0

namespace Scored

/-- A block keeps everything but its weight and its best links. -/
theorem get (h : Scored t d justifiedEpoch finalizedEpoch t') (hn : t.nodes[i]? = some n) :
    ∃ n', t'.nodes[i]? = some n' ∧ unscored n' = unscored n := by
  have hi := h.nodes i
  rw [hn, Option.map_some] at hi
  exact Option.map_eq_some_iff.mp hi

theorem get_old (h : Scored t d justifiedEpoch finalizedEpoch t')
    (hn' : t'.nodes[i]? = some n') :
    ∃ n, t.nodes[i]? = some n ∧ unscored n = unscored n' := by
  have hi := (h.nodes i).symm
  rw [hn', Option.map_some] at hi
  exact Option.map_eq_some_iff.mp hi

theorem position (h : Scored t d justifiedEpoch finalizedEpoch t') (root : Root) :
    t'.position? root = t.position? root := by
  unfold position?
  rw [h.positions]

theorem parentAt (h : Scored t d justifiedEpoch finalizedEpoch t') :
    parentAt t'.nodes = parentAt t.nodes := by
  funext i
  have hi := congrArg (fun o : Option Node => o.bind (·.parent)) (h.nodes i)
  simp only [Option.bind_map] at hi
  exact hi

theorem size (h : Scored t d justifiedEpoch finalizedEpoch t') :
    t'.nodes.size = t.nodes.size := by
  have hiff : ∀ i, t'.nodes.size ≤ i ↔ t.nodes.size ≤ i := by
    intro i
    rw [← Array.getElem?_eq_none_iff, ← Array.getElem?_eq_none_iff,
      ← Option.map_eq_none_iff (f := unscored), h.nodes i, Option.map_eq_none_iff]
  exact Nat.le_antisymm ((hiff _).mpr (Nat.le_refl _)) ((hiff _).mp (Nat.le_refl _))

/-- Every weight fitted. -/
theorem fits (h : Scored t d justifiedEpoch finalizedEpoch t') (hi : i < t.nodes.size) :
    Fits t.nodes d i := by
  have hn := Array.getElem?_eq_getElem hi
  obtain ⟨n', hn', -⟩ := h.get hn
  have hweight := h.weight i _ n' hn hn'
  have hlt := n'.weight.toNat_lt
  exact ⟨_, hn, by omega⟩

/-- The best descendant of a block is viable, and below its best child. -/
theorem descendant (h : Scored t d justifiedEpoch finalizedEpoch t') (i b : Nat)
    (hb : bestChildAt t'.nodes i = some b) :
    ∃ e, bestDescendantAt t'.nodes i = some e ∧ Below t'.nodes b e ∧ t'.ViableAt e := by
  obtain ⟨hleads, hdesc⟩ := h.refreshing.settled i b hb (Nat.zero_le b)
  refine ⟨_, hdesc, ?_, h.refreshing.viableAt_best b (Nat.zero_le _) hleads⟩
  cases hd : bestDescendantAt t'.nodes b with
  | none => exact Below.refl
  | some e => exact h.refreshing.below b e hd

/-- Applying scores keeps a tree sound. -/
theorem sound (h : Scored t d justifiedEpoch finalizedEpoch t') (hs : Sound t) :
    Sound t' where
  position := by
    intro root i
    rw [h.position, hs.position]
    constructor
    · rintro ⟨n, hn, hroot⟩
      obtain ⟨n', hn', heq⟩ := h.get hn
      exact ⟨n', hn', (root_eq_of_unscored heq).trans hroot⟩
    · rintro ⟨n', hn', hroot⟩
      obtain ⟨n, hn, heq⟩ := h.get_old hn'
      exact ⟨n, hn, (root_eq_of_unscored heq).trans hroot⟩
  rooted := h.refreshing.rooted
  parentRoot := by
    intro i n' p hn' hp
    obtain ⟨n, hn, heq⟩ := h.get_old hn'
    have hparent : n.parent = n'.parent := by
      show (unscored n).parent = (unscored n').parent
      rw [heq]
    have hparentRoot : n.parentRoot = n'.parentRoot := by
      show (unscored n).parentRoot = (unscored n').parentRoot
      rw [heq]
    obtain ⟨m, hm, hroot⟩ := hs.parentRoot i n p hn (hparent.trans hp)
    obtain ⟨m', hm', heq'⟩ := h.get hm
    refine ⟨m', hm', ?_⟩
    rw [← hparentRoot, ← hroot]
    exact root_eq_of_unscored heq'
  child := h.refreshing.child
  alone := h.refreshing.alone
  descendant := h.descendant

end Scored

-- ==================================================== the first pass

/-- The tree between the two passes. -/
def reweight (t : Tree) (weights : List Gwei) (justifiedEpoch finalizedEpoch : Epoch) : Tree :=
  { t with nodes := withWeights t.nodes weights, justifiedEpoch, finalizedEpoch }

theorem getElem?_withWeights (nodes : Array Node) (weights : List Gwei) (i : Nat) :
    (withWeights nodes weights)[i]?
      = (nodes[i]?).bind fun n => (weights[i]?).map fun w => { n with weight := w } := by
  have hlist : weights.toArray[i]? = weights[i]? := List.getElem?_toArray
  unfold withWeights
  rw [Array.getElem?_zipWith, hlist]
  cases nodes[i]? with
  | none => rfl
  | some n =>
      cases weights[i]? with
      | none => rfl
      | some w => rfl

theorem get_withWeights {weights : List Gwei} (hlen : weights.length = nodes.size)
    (hn : nodes[i]? = some n) :
    ∃ w, weights[i]? = some w ∧
      (withWeights nodes weights)[i]? = some { n with weight := w } := by
  have hlt : i < weights.length := hlen ▸ (Array.getElem?_eq_some_iff.mp hn).1
  refine ⟨weights[i], List.getElem?_eq_getElem hlt, ?_⟩
  rw [getElem?_withWeights, hn, List.getElem?_eq_getElem hlt]
  rfl

/-- New weights change nothing else about a block. -/
theorem map_withWeights {α : Type} {weights : List Gwei} (hlen : weights.length = nodes.size)
    {f : Node → α} (hf : ∀ n w, f { n with weight := w } = f n) (i : Nat) :
    (withWeights nodes weights)[i]?.map f = nodes[i]?.map f := by
  cases hn : nodes[i]? with
  | none =>
      rw [getElem?_withWeights, hn]
      rfl
  | some n =>
      obtain ⟨w, -, hw⟩ := get_withWeights hlen hn
      rw [hw, Option.map_some, Option.map_some, hf]

theorem bind_withWeights {weights : List Gwei} (hlen : weights.length = nodes.size)
    {f : Node → Option Nat} (hf : ∀ n w, f { n with weight := w } = f n) :
    (fun i : Nat => (withWeights nodes weights)[i]?.bind f) = fun i => nodes[i]?.bind f := by
  funext i
  have hi := congrArg (fun o : Option (Option Nat) => o.bind id) (map_withWeights hlen hf i)
  simp only [Option.bind_map, Function.id_comp] at hi
  exact hi

/-- Any sound tree with other weights and epochs can be refreshed. -/
theorem Sound.refreshing_reweight (h : Sound t) {weights : List Gwei}
    (hlen : weights.length = t.nodes.size) (justifiedEpoch finalizedEpoch : Epoch) :
    Refreshing (t.reweight weights justifiedEpoch finalizedEpoch) t.size := by
  have hpar : parentAt (withWeights t.nodes weights) = parentAt t.nodes :=
    bind_withWeights hlen fun _ _ => rfl
  have hchild : bestChildAt (withWeights t.nodes weights) = bestChildAt t.nodes :=
    bind_withWeights hlen fun _ _ => rfl
  have hdesc : bestDescendantAt (withWeights t.nodes weights) = bestDescendantAt t.nodes :=
    bind_withWeights hlen fun _ _ => rfl
  have hbelow : Below (withWeights t.nodes weights) = Below t.nodes := below_congr hpar
  have hold := h.refreshing
  exact {
    rooted := fun i p hp => hold.rooted i p (congrFun hpar i ▸ hp)
    child := fun i b hb => by
      show parentAt (withWeights t.nodes weights) b = some i
      rw [hpar]
      exact hold.child i b (congrFun hchild i ▸ hb)
    alone := fun i hi => by
      show bestDescendantAt (withWeights t.nodes weights) i = none
      rw [hdesc]
      exact hold.alone i (congrFun hchild i ▸ hi)
    below := fun i d hd => by
      show Below (withWeights t.nodes weights) i d
      rw [hbelow]
      exact hold.below i d (congrFun hdesc i ▸ hd)
    settled := fun i b hb hsize => by
      have hlt := lt_size_of_parentAt (hold.child i b (congrFun hchild i ▸ hb))
      exact absurd hlt (Nat.not_lt_of_le hsize)
    covered := fun i c hsize hc => by
      have hlt := lt_size_of_parentAt (congrFun hpar c ▸ hc.1)
      exact absurd hlt (Nat.not_lt_of_le hsize) }

/-- The deltas given are what the first pass starts from. -/
theorem holds_deltaAt {deltas : Array Delta} (hsize : deltas.size = nodes.size) :
    Holds nodes (deltaAt deltas) nodes.size deltas := by
  intro j hj
  have hget := Array.getElem?_eq_getElem (show j < deltas.size by omega)
  refine ⟨_, hget, ?_⟩
  rw [gatheredSum_size _ hj, deltaAt, Array.getD_eq_getD_getElem?, hget]
  rfl

-- ========================================================= both passes

/-- Once all weights are found, the second pass succeeds. -/
theorem Sound.scored_of_weights (h : Sound t) {weights : List Gwei}
    (hlen : weights.length = t.nodes.size)
    (hweights : ∀ (i : Nat) n w, t.nodes[i]? = some n → weights[i]? = some w →
      (w.toNat : Int) = n.weight.toNat + shift t.nodes d i)
    (justifiedEpoch finalizedEpoch : Epoch) :
    ∃ t', refreshLinks t.size (t.reweight weights justifiedEpoch finalizedEpoch) = (t', .ok ())
      ∧ Scored t d justifiedEpoch finalizedEpoch t' := by
  obtain ⟨t', ht', hrefreshed, hsame⟩ :=
    (h.refreshing_reweight hlen justifiedEpoch finalizedEpoch).refreshLinks
  refine ⟨t', ht', ?_, ?_, hsame.positions, hsame.justifiedEpoch, hsame.finalizedEpoch,
    hsame.pruneThreshold, hrefreshed⟩
  · intro i
    have hold : (withWeights t.nodes weights)[i]?.map unscored = t.nodes[i]?.map unscored :=
      map_withWeights hlen (fun _ _ => rfl) i
    have hi := congrArg (Option.map fun n : Node => { n with weight := 0 }) (hsame.nodes i)
    simp only [Option.map_map] at hi
    exact hi.trans hold
  · intro i n n' hn hn'
    obtain ⟨w, hw, hreweighted⟩ := get_withWeights hlen hn
    obtain ⟨m, hm, heq⟩ := hsame.get hreweighted
    rw [hn'] at hm
    injection hm with hm
    have hweight : n'.weight = w := by
      show (unlinked n').weight = w
      rw [hm, heq]
      rfl
    rw [hweight]
    exact hweights i n w hn hw

/-- The results of applying scores, with what each says of the tree. -/
theorem Sound.applyScores_cases (h : Sound t) (deltas : Array Delta)
    (justifiedEpoch finalizedEpoch : Epoch) :
    (deltas.size ≠ t.size ∧ t.applyScores deltas justifiedEpoch finalizedEpoch
        = (t, .error (.deltaCount deltas.size t.size)))
      ∨ (deltas.size = t.size ∧ ∃ i < t.size,
          t.applyScores deltas justifiedEpoch finalizedEpoch = (t, .error (.overflow i))
          ∧ (Contained t.nodes (deltaAt deltas) → ¬ Fits t.nodes (deltaAt deltas) i))
      ∨ (deltas.size = t.size ∧ ∃ t',
          t.applyScores deltas justifiedEpoch finalizedEpoch = (t', .ok ())
          ∧ Scored t (deltaAt deltas) justifiedEpoch finalizedEpoch t') := by
  unfold applyScores
  by_cases hsize : deltas.size = t.size
  · have hsettled := settleWeights_settled h.rooted (deltaAt deltas) t.size (Nat.le_refl _)
      deltas [] (holds_deltaAt hsize)
    rw [if_neg (by simpa using hsize)]
    cases hresult : settleWeights t.nodes t.size deltas [] with
    | error e =>
        rw [hresult] at hsettled
        obtain ⟨i, hi, rfl, hfits⟩ := hsettled
        exact Or.inr (Or.inl ⟨hsize, i, hi, rfl, hfits⟩)
    | ok weights =>
        rw [hresult] at hsettled
        obtain ⟨before, hbefore, hlen, hweights⟩ := hsettled
        rw [List.append_nil] at hbefore
        subst hbefore
        exact Or.inr (Or.inr ⟨hsize,
          h.scored_of_weights hlen hweights justifiedEpoch finalizedEpoch⟩)
  · rw [if_pos hsize]
    exact Or.inl ⟨hsize, rfl⟩

/-- Whatever applying scores answers, it keeps a tree sound. -/
theorem Sound.applyScores (h : Sound t) (deltas : Array Delta)
    (justifiedEpoch finalizedEpoch : Epoch) :
    Sound (t.applyScores deltas justifiedEpoch finalizedEpoch).1 := by
  rcases h.applyScores_cases deltas justifiedEpoch finalizedEpoch with
    ⟨-, heq⟩ | ⟨-, i, -, heq, -⟩ | ⟨-, t', heq, hscored⟩
  · rw [heq]
    exact h
  · rw [heq]
    exact h
  · rw [heq]
    exact hscored.sound h

end ChainHead.Tree
