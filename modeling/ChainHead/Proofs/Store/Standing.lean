/-
The head that was found last can be asked for again.

A question for the head goes to the best descendant of the justified
block, and calls that come after a head update leave old links to best
descendants in place. The answer stays what it was as long as it does
not matter from which block the question starts: every block on the way
from the justified one down to the head points to the head
(`Tree.Points`). After a head update that is so because each best
descendant is the end of a chain of best children, and the way down to
an end is that chain (`bestChain_of_below`). From then on a block can
come in, blocks above the justified one can be dropped and the justified
block can move towards the head; no such call touches a link on the way.

Nothing is asked of the run before the update, nor of weights: the head
may long be out of date.
-/
import ChainHead.Proofs.Store.Calls
import ChainHead.Proofs.Store.Outline

namespace ChainHead

open Ghost (isUnder)

namespace Tree

open Relation

variable {t t' : Tree} {nodes : Array Node} {n : Node} {root top next : Root}
variable {count e i j x : Nat}

-- ============================================== statement vocabulary

/-- Whether each block on the way from one position down to another has
the viable block there as its best descendant, or is that block. -/
structure Points (t : Tree) (i e : Nat) : Prop where
  below : Below t.nodes i e
  viable : t.ViableAt e
  best : ∀ x, Below t.nodes i x → Below t.nodes x e →
    (bestDescendantAt t.nodes x).getD x = e

/-- Whether each block on the way from a root down to another points to
that one. -/
def Stands (t : Tree) (root top : Root) : Prop :=
  ∃ i e, t.position? root = some i ∧ t.position? top = some e ∧ t.Points i e

-- ==================================================== what it is good for

/-- A head that stands is found. -/
theorem Stands.findHead (h : t.Stands root top) (hs : Sound t) : t.findHead root = .ok top := by
  obtain ⟨i, e, hi, he, hpoints⟩ := h
  obtain ⟨n, hn, hviable⟩ := hpoints.viable
  obtain ⟨m, hm, hroot⟩ := hs.get_position he
  rw [hn, Option.some.injEq] at hm
  refine hs.findHead_eq_ok_iff.mpr ⟨i, n, hi, ?_, hviable, hm ▸ hroot⟩
  rw [hpoints.best i Below.refl hpoints.below]
  exact hn

-- ======================================================= how it comes about

theorem below_of_bestChain
    (hchild : ∀ i b, bestChildAt nodes i = some b → parentAt nodes b = some i)
    (hchain : ReflTransGen (fun a b => bestChildAt nodes a = some b) i e) : Below nodes i e :=
  ReflTransGen.mono (fun a b => hchild a b) i e hchain

/-- A way down to the end of a chain of best children is part of that
chain. -/
theorem bestChain_of_below (hr : Rooted nodes)
    (hchild : ∀ i b, bestChildAt nodes i = some b → parentAt nodes b = some i)
    (hchain : ReflTransGen (fun a b => bestChildAt nodes a = some b) i e)
    (hix : Below nodes i x) (hxe : Below nodes x e) :
    ReflTransGen (fun a b => bestChildAt nodes a = some b) x e := by
  induction hchain using ReflTransGen.head_induction_on with
  | refl =>
      have hle := hix.le hr
      have hge := hxe.le hr
      rw [show x = e by omega]
  | head hbest hrest ih =>
      rename_i i b
      rcases below_iff_child.mp hix with rfl | ⟨c, hc, hcx⟩
      · exact .head hbest hrest
      · -- of the children only the best one is above the end
        have hcb : c = b := child_unique hr hc (hchild i b hbest) (hcx.trans hxe)
          (below_of_bestChain hchild hrest)
        exact ih (hcb ▸ hcx)

/-- A head that is found in a tree with refreshed links stands. -/
theorem Sound.stands (h : Sound t) (hfresh : Refreshing t 0)
    (hfind : t.findHead root = .ok top) : t.Stands root top := by
  obtain ⟨i, n, hi, hn, hviable, hroot⟩ := h.findHead_eq_ok_iff.mp hfind
  obtain ⟨hchain, hend⟩ := hfresh.lastBest i
  refine ⟨i, _, hi, hroot ▸ h.position_root hn, below_of_bestChain h.child hchain,
    ⟨n, hn, hviable⟩, fun x hix hxe => ?_⟩
  exact (hfresh.lastBest x).unique ⟨bestChain_of_below h.rooted h.child hchain hix hxe, hend⟩

-- ======================================================= what it survives

/-- The start can move towards the head. -/
theorem Stands.forward (h : t.Stands root top) (hs : Sound t)
    (hnext : isUnder t.outline root next = true) (htop : isUnder t.outline next top = true) :
    t.Stands next top := by
  obtain ⟨i, e, hi, he, hpoints⟩ := h
  obtain ⟨i', j, hi', hj, hij⟩ := hs.isUnder_iff.mp hnext
  obtain ⟨j', e', hj', he', hje⟩ := hs.isUnder_iff.mp htop
  rw [hi, Option.some.injEq] at hi'
  rw [hj, Option.some.injEq] at hj'
  rw [he, Option.some.injEq] at he'
  subst hi' hj' he'
  exact ⟨j, e, hj, he, hje, hpoints.viable, fun x hjx => hpoints.best x (hij.trans hjx)⟩

/-- A new block is below none of the blocks on the way that point to the
head. -/
theorem Stands.extend (h : t.Stands root top) (hs : Sound t) (hn : Fresh t n) :
    (t.extend n).Stands root top := by
  obtain ⟨i, e, hi, he, hpoints⟩ := h
  have hlt := hs.lt_size_of_position he
  have hold : ∀ {r k}, t.position? r = some k → (t.extend n).position? r = some k := by
    intro r k hk
    rw [position_extend, if_neg, hk]
    intro hroot
    have habsent := hn.absent
    rw [hroot, hk] at habsent
    cases habsent
  refine ⟨i, e, hold hi, hold he, (below_extend_old hs.rooted n hlt).mpr hpoints.below,
    (viableAt_extend_old n hlt).mpr hpoints.viable, fun x hix hxe => ?_⟩
  have hxe := (below_extend_old hs.rooted n hlt).mp hxe
  have hxlt : x < t.nodes.size := Nat.lt_of_le_of_lt (hxe.le hs.rooted) hlt
  rw [bestDescendantAt_extend t hn.bestDescendant]
  exact hpoints.best x ((below_extend_old hs.rooted n hxlt).mp hix) hxe

/-- Blocks before the start can be dropped. -/
theorem Stands.dropped (h : t.Stands root top) (hs : Sound t) (hdropped : Dropped count t t')
    (hi : t.position? root = some i) (hcount : count ≤ i) : t'.Stands root top := by
  obtain ⟨i', e, hi', he, hpoints⟩ := h
  rw [hi, Option.some.injEq] at hi'
  subst hi'
  have hie := hpoints.below.le hs.rooted
  have hmoved : ∀ {r k}, t.position? r = some k → count ≤ k →
      t'.position? r = some (k - count) := by
    intro r k hk hle
    rw [hdropped.position, hk, Option.bind_some, shift?_of_le hle]
  refine ⟨_, _, hmoved hi hcount, hmoved he (by omega), ?_, ?_, fun x hix hxe => ?_⟩
  · rw [hdropped.below_iff hs.rooted, Nat.sub_add_cancel hcount, Nat.sub_add_cancel (by omega)]
    exact hpoints.below
  · rw [hdropped.viableAt, Nat.sub_add_cancel (by omega)]
    exact hpoints.viable
  · rw [hdropped.below_iff hs.rooted, Nat.sub_add_cancel hcount] at hix
    rw [hdropped.below_iff hs.rooted, Nat.sub_add_cancel (by omega)] at hxe
    have hbest := hpoints.best (x + count) hix hxe
    rw [hdropped.bestDescendantAt]
    cases hd : bestDescendantAt t.nodes (x + count) with
    | none =>
        rw [hd, Option.getD_none] at hbest
        rw [Option.map_none, Option.getD_none]
        omega
    | some d =>
        rw [hd, Option.getD_some] at hbest
        rw [Option.map_some, Option.getD_some, hbest]

/-- A block at or above the start can be finalized. -/
theorem Stands.prune (h : t.Stands root top) (hs : Sound t)
    (habove : isUnder t.outline next root = true) :
    (t.prune next).value.1.Stands root top := by
  obtain ⟨c, i, hc, hi, hci⟩ := hs.isUnder_iff.mp habove
  rcases hs.prune_cases next with ⟨hnone, -⟩ | ⟨count, hcount, ⟨-, heq⟩ | ⟨-, t', heq, hdropped⟩⟩
  · rw [hc] at hnone
    cases hnone
  · rw [heq]
    exact h
  · rw [hc, Option.some.injEq] at hcount
    rw [heq]
    exact h.dropped hs hdropped hi (hcount ▸ hci.le hs.rooted)

theorem Stands.setPruneThreshold (h : t.Stands root top) (threshold : Nat) :
    (t.setPruneThreshold threshold).Stands root top := by
  obtain ⟨i, e, hi, he, hpoints⟩ := h
  exact ⟨i, e, hi, he, hpoints.below, hpoints.viable, hpoints.best⟩

end Tree

namespace Store

open ChainHead.Tree (Sound)

variable {s : Store} {top : Root} {later : List Call}

-- ============================================================ promises

/-- Whether a call keeps to the way from the justified block to the
head: a block that becomes justified is on it, one that is finalized is
at its start or above. -/
def Call.Abides (s : Store) (top : Root) : Call → Prop
  | .justified checkpoint _ =>
    isUnder s.tree.outline s.snapshot.justified.root checkpoint.root = true
      ∧ isUnder s.tree.outline checkpoint.root top = true
  | .finalized checkpoint =>
    isUnder s.tree.outline checkpoint.root s.snapshot.justified.root = true
  | .finalizedBlock root => isUnder s.tree.outline root s.snapshot.justified.root = true
  | .head _ _ => False
  | .block _ _ _ | .attestation _ | .pruneThreshold _ => True

/-- Whether all calls of a run keep to it. -/
def Abiding (start : Store) (top : Root) : List Call → Prop
  | [] => True
  | c :: earlier => Abiding start top earlier ∧ c.Abides (start.after earlier) top

instance (s : Store) (top : Root) : (c : Call) → Decidable (c.Abides s top)
  | .justified checkpoint _ => inferInstanceAs (Decidable
      (isUnder s.tree.outline s.snapshot.justified.root checkpoint.root = true
        ∧ isUnder s.tree.outline checkpoint.root top = true))
  | .finalized checkpoint => inferInstanceAs (Decidable
      (isUnder s.tree.outline checkpoint.root s.snapshot.justified.root = true))
  | .finalizedBlock root => inferInstanceAs (Decidable
      (isUnder s.tree.outline root s.snapshot.justified.root = true))
  | .head _ _ => isFalse id
  | .block _ _ _ | .attestation _ | .pruneThreshold _ => isTrue trivial

instance (start : Store) (top : Root) : (calls : List Call) → Decidable (Abiding start top calls)
  | [] => isTrue trivial
  | c :: earlier =>
    have := instDecidableAbiding start top earlier
    inferInstanceAs (Decidable (Abiding start top earlier ∧ c.Abides (start.after earlier) top))

-- ================================================================ runs

/-- A call that keeps to the way leaves the head standing. -/
theorem stands_call (h : s.tree.Stands s.snapshot.justified.root top) (hs : Sound s.tree)
    (c : Call) (hc : c.Abides s top) :
    (s.call c).tree.Stands (s.call c).snapshot.justified.root top := by
  cases c with
  | block b justified finalized =>
      simp only [call]
      rcases s.onBlock_cases b justified finalized with ⟨-, heq⟩ | ⟨hnew, metrics, heq⟩
      · rw [heq]
        exact h
      · rw [heq]
        exact h.extend hs (fresh_entry justified finalized hnew)
  | attestation a => exact h
  | justified checkpoint balancesOf =>
      simp only [call]
      rcases s.updateJustified_cases checkpoint balancesOf with
        ⟨reason, -, heq⟩ | ⟨balances, -, heq⟩
      · rw [heq]
        exact h
      · rw [heq]
        exact h.forward hs hc.1 hc.2
  | finalized checkpoint =>
      obtain ⟨metrics, hstate⟩ := updateFinalizedBlock_state
        { s with snapshot := s.snapshot.withFinalized checkpoint } checkpoint.root
      simp only [call, updateFinalized, hstate]
      exact h.prune hs hc
  | finalizedBlock root =>
      obtain ⟨metrics, hstate⟩ := s.updateFinalizedBlock_state root
      simp only [call, hstate]
      exact h.prune hs hc
  | pruneThreshold threshold => exact h.setPruneThreshold threshold
  | head features sharing => exact hc.elim

theorem stands_after (h : s.tree.Stands s.snapshot.justified.root top) (hs : Sound s.tree)
    (hlater : Abiding s top later) :
    (s.after later).tree.Stands (s.after later).snapshot.justified.root top := by
  induction later with
  | nil => exact h
  | cons c earlier ih => exact stands_call (ih hlater.1) (sound_after hs earlier) c hlater.2

theorem Abiding.of_suffix {steps : List Call} (hsteps : steps <:+ later)
    (h : Abiding s top later) : Abiding s top steps := by
  obtain ⟨latest, rfl⟩ := hsteps
  induction latest with
  | nil => exact h
  | cons c latest ih => exact ih h.1

/-- After any run and a head update that found a head, any calls that
keep to the way from the justified block to that head leave it the
answer to a question for the head, after each of them. -/
theorem head_of_abiding (justified finalized : Checkpoint) (pruneThreshold : Nat)
    (calls : List Call) (features : Features) (sharing : Sharing) :
    let s := (empty justified finalized pruneThreshold).after calls
    let found := (s.updateHeadShared features sharing).value
    found.result = .ok top → Abiding found.state top later →
      ∀ steps, steps <:+ later → (found.state.after steps).head = .ok top := by
  intro s found hresult hlater steps hsteps
  have hs : Sound s.tree := sound_run justified finalized pruneThreshold calls
  have hsound : Sound found.state.tree := sound_call hs (.head features sharing)
  have hstands : found.state.tree.Stands found.state.snapshot.justified.root top := by
    rcases updateHead_cases hs features sharing with
      ⟨i, heq, -⟩ | ⟨deltas, t, -, -, hscored, heq⟩
    · have hfailed := (congrArg Step.result heq).symm.trans hresult
      cases hfailed
    · have hfind := ok_of_mapError ((congrArg Step.result heq).symm.trans hresult)
      have hstate : found.state = s.upToDate t := congrArg Step.state heq
      rw [hstate]
      exact (hscored.sound hs).stands hscored.refreshing hfind
  have hafter := (stands_after hstands hsound (hlater.of_suffix hsteps)).findHead
    (sound_after hsound steps)
  unfold head
  rw [hafter]
  rfl

/-- The only child of a first block. -/
def trunk : BeaconBlock :=
  { slot := 1, parentRoot := ({} : BeaconBlock).hashTreeRoot }

/-- A child of the trunk, which is there when the head is found. -/
def tip : BeaconBlock :=
  { slot := 2, parentRoot := trunk.hashTreeRoot }

/-- Another one, which comes later. -/
def rival : BeaconBlock :=
  { slot := 3, parentRoot := trunk.hashTreeRoot }

/-- A chain of three blocks, the first of which is justified. -/
def chain : List Call :=
  [.attestation { indices := [0], data := { beaconBlockRoot := tip.hashTreeRoot } },
    .justified { root := ({} : BeaconBlock).hashTreeRoot } fun _ => .ok #[10, 20],
    .block tip {} {},
    .block trunk {} {},
    .block {} {} {}]

/-- The rival gets the greater vote, and the trunk is justified and
finalized. -/
def ascent : List Call :=
  [.finalized { root := trunk.hashTreeRoot },
    .justified { root := trunk.hashTreeRoot } fun _ => .ok #[10, 30],
    .attestation { indices := [1], data := { beaconBlockRoot := rival.hashTreeRoot } },
    .block rival {} {}]

/-- The first block is dropped and the rival is due to become the head,
but until the next head update the answer is still the tip. -/
theorem head_of_abiding_ascent :
    let found := (((empty {} {} 0).after chain).updateHeadShared {} (.halving 1)).value
    (found.result = .ok tip.hashTreeRoot
        ∧ Abiding found.state tip.hashTreeRoot ascent
        ∧ (found.state.after ascent).tree.nodes.toList.map (·.weight) = [10, 10, 0]
        ∧ ((found.state.after ascent).updateHead {}).value.result = .ok rival.hashTreeRoot)
      ∧ ∀ steps, steps <:+ ascent → (found.state.after steps).head = .ok tip.hashTreeRoot := by
  have hstays := @head_of_abiding tip.hashTreeRoot ascent {} {} 0 chain {} (.halving 1)
  refine (and_iff_left_of_imp fun hseen => hstays hseen.1 hseen.2.1).mpr ?_
  decide +kernel

end Store

end ChainHead
