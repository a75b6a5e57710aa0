/-
What waits for a slot.

The queue keeps submissions in lists by the slot of their data. What
waits is all of these lists together (`waiting`): an addition puts one
more submission in, also when an equal one waits, and a slot that begins
takes out what is from slots before it. The second is about slots of
data as long as every submission is listed under its own (`Sound`).

Then the list says all there is to say. It is in the order of slots, and
within a slot in that of the additions: to add is to put something last
and to sort (`Sound.waiting_add_eq`), and what is due and what is left
are its two parts (`Sound.waiting_filter`).
-/
import ChainHead.Proofs.Map
import ChainHead.Proofs.Queue.Order
import ChainHead.Queue.BySlot

namespace ChainHead.SlotQueue

variable {q : SlotQueue} {s : Submission} {slot : Slot}

/-- The submissions that wait. -/
def waiting (q : SlotQueue) : List Submission :=
  q.bySlot.toList.flatMap fun entry => entry.2

/-- Whether every submission is listed under the slot of its data. -/
def Sound (q : SlotQueue) : Prop :=
  ∀ (slot : Slot) (l : List Submission), q.bySlot[slot]? = some l → ∀ s ∈ l, s.data.slot = slot

theorem sound_empty : Sound {} := by
  intro slot l hl
  simp at hl

-- ============================================================ one list

theorem size_eq_length (q : SlotQueue) : q.size = q.waiting.length := by
  unfold size waiting
  rw [Std.ExtTreeMap.foldl_eq_foldl_toList, List.length_flatMap, List.sum_eq_foldl,
    List.foldl_map]

/-- What waits is in the order of slots. -/
theorem Sound.pairwise_waiting (h : q.Sound) :
    q.waiting.Pairwise fun x y => x.data.slot ≤ y.data.slot := by
  have hslot : ∀ e ∈ q.bySlot.toList, ∀ s ∈ e.2, s.data.slot = e.1 := fun e he =>
    h e.1 e.2 (Std.ExtTreeMap.mem_toList_iff_getElem?_eq_some.mp he)
  unfold waiting
  rw [List.pairwise_flatMap]
  constructor
  · intro e he
    refine List.pairwise_of_forall_mem_list fun x hx y hy => ?_
    rw [hslot e he x hx, hslot e he y hy]
    exact UInt64.le_refl _
  · refine q.bySlot.ordered_keys_toList.imp_of_mem fun he he' hlt x hx y hy => ?_
    rw [hslot _ he x hx, hslot _ he' y hy]
    exact UInt64.le_of_lt (Std.compare_eq_lt.mp hlt)

/-- At each slot it is what is listed there. -/
theorem Sound.filter_waiting (h : q.Sound) (slot : Slot) :
    (q.waiting.filter fun s => s.data.slot = slot) = q.bySlot.getD slot [] := by
  have hlisted (e : Slot × List Submission) (he : e ∈ q.bySlot.toList) :
      ∀ s ∈ e.2, s.data.slot = e.1 :=
    h e.1 e.2 (Std.ExtTreeMap.mem_toList_iff_getElem?_eq_some.mp he)
  unfold waiting
  rw [List.filter_flatMap, Map.flatMap_toList q.bySlot slot fun e he hne => ?_,
    Std.ExtTreeMap.getD_eq_getD_getElem?]
  · cases hl : q.bySlot[slot]? with
    | none => rfl
    | some l => exact List.filter_eq_self.mpr fun s hs => decide_eq_true (h slot l hl s hs)
  · refine List.filter_eq_nil_iff.mpr fun s hs heq => hne ?_
    rw [← hlisted e he s hs]
    exact of_decide_eq_true heq

-- =============================================================== adding

/-- One more submission waits, whatever waits already. -/
theorem waiting_add (q : SlotQueue) (s : Submission) :
    (q.add s).waiting.Perm (s :: q.waiting) := by
  let others := (q.bySlot.erase s.data.slot).toList.flatMap fun entry => entry.2
  let listed := q.bySlot.getD s.data.slot []
  have hadded : (q.add s).waiting.Perm ((listed ++ [s]) ++ others) := by
    have hperm := Map.toList_perm
      (q.bySlot.getElem?_insert_self (k := s.data.slot) (v := listed ++ [s]))
    rw [Map.erase_insert] at hperm
    exact hperm.flatMap_right _
  have hbefore : q.waiting.Perm (listed ++ others) := by
    show q.waiting.Perm (q.bySlot.getD s.data.slot [] ++ others)
    rw [Std.ExtTreeMap.getD_eq_getD_getElem?]
    cases hl : q.bySlot[s.data.slot]? with
    | none =>
        show q.waiting.Perm ([] ++ (q.bySlot.erase s.data.slot).toList.flatMap fun entry => entry.2)
        rw [Map.erase_of_absent hl]
        exact .refl _
    | some l => exact (Map.toList_perm hl).flatMap_right _
  have hfirst : ((listed ++ [s]) ++ others).Perm (s :: (listed ++ others)) :=
    (List.perm_append_singleton s listed).append_right others
  exact (hadded.trans hfirst).trans (hbefore.symm.cons s)

theorem Sound.add (h : q.Sound) (s : Submission) : (q.add s).Sound := by
  refine Map.forall_insert h fun s' hs' => ?_
  rcases List.mem_append.mp hs' with hold | hnew
  · rw [Std.ExtTreeMap.getD_eq_getD_getElem?] at hold
    cases hl : q.bySlot[s.data.slot]? with
    | none =>
        rw [hl] at hold
        exact absurd hold List.not_mem_nil
    | some l =>
        rw [hl] at hold
        exact h _ l hl s' hold
  · rw [List.mem_singleton.mp hnew]

/-- To add is to put a submission last and to sort. -/
theorem Sound.waiting_add_eq (h : q.Sound) (s : Submission) :
    (q.add s).waiting = ChainHead.bySlot (·.data.slot) (q.waiting ++ [s]) := by
  refine eq_bySlot (h.add s).pairwise_waiting fun slot => ?_
  rw [(h.add s).filter_waiting, List.filter_append, h.filter_waiting]
  unfold SlotQueue.add
  rw [Std.ExtTreeMap.getD_insert]
  split
  case isTrue hslot =>
    rw [Std.LawfulEqOrd.compare_eq_iff_eq] at hslot
    subst hslot
    simp
  case isFalse hslot =>
    rw [Std.LawfulEqOrd.compare_eq_iff_eq] at hslot
    simp [hslot]

-- =============================================================== taking

/-- What is listed under slots of one kind is what is from such slots. -/
theorem Sound.waiting_filter (h : q.Sound) (p : Slot → Bool) :
    waiting ⟨q.bySlot.filter fun slot _ => p slot⟩ = q.waiting.filter fun s => p s.data.slot := by
  have hsound : Sound ⟨q.bySlot.filter fun slot _ => p slot⟩ := fun k l hl =>
    h k l (Map.getElem?_filter_eq_some.mp hl).1
  refine eq_of_filter_eq hsound.pairwise_waiting (h.pairwise_waiting.filter _) fun slot => ?_
  rw [hsound.filter_waiting, List.filter_filter,
    List.filter_congr fun s _ => Bool.and_comm _ _, ← List.filter_filter, h.filter_waiting,
    Std.ExtTreeMap.getD_eq_getD_getElem?, Std.ExtTreeMap.getElem?_filter',
    Std.ExtTreeMap.getD_eq_getD_getElem?]
  cases hl : q.bySlot[slot]? with
  | none => rfl
  | some l =>
      have hkind : ∀ s ∈ l, p s.data.slot = p slot := fun s hs => by rw [h slot l hl s hs]
      rw [Option.getD_some, List.filter_congr hkind]
      cases p slot with
      | true => simp [Option.filter]
      | false => simp [Option.filter]

/-- What keeps waiting when a slot begins, and what is due. -/
theorem Sound.takeDue_eq (h : q.Sound) (slot : Slot) :
    (q.takeDue slot).1.waiting = q.waiting.filter (fun s => slot ≤ s.data.slot)
      ∧ (q.takeDue slot).2 = q.waiting.filter fun s => s.data.slot < slot :=
  ⟨h.waiting_filter fun k => slot ≤ k, h.waiting_filter fun k => k < slot⟩

theorem Sound.takeDue (h : q.Sound) (slot : Slot) : (q.takeDue slot).1.Sound :=
  fun k l hl => h k l (Map.getElem?_filter_eq_some.mp hl).1

/-- What is from a slot that begins, or from a later one, keeps waiting. -/
theorem Sound.mem_waiting_takeDue (h : q.Sound) :
    s ∈ (q.takeDue slot).1.waiting ↔ s ∈ q.waiting ∧ slot ≤ s.data.slot := by
  rw [(h.takeDue_eq slot).1, List.mem_filter, decide_eq_true_iff]

theorem takeDue_empty (slot : Slot) : ({} : SlotQueue).takeDue slot = ({}, []) := by
  have hnone (keep : Slot → List Submission → Bool) :
      (∅ : Std.ExtTreeMap Slot (List Submission)).filter keep = ∅ :=
    Std.ExtTreeMap.ext_getElem? fun k => by
      rw [Std.ExtTreeMap.getElem?_filter']
      simp
  unfold takeDue
  dsimp only
  rw [hnone, hnone]
  simp

/-- What is alone in the queue is all that is due when its slot is over. -/
theorem takeDue_add (hover : s.data.slot < slot) :
    (({} : SlotQueue).add s).takeDue slot = ({}, [s]) := by
  have hget : ∀ (k : Slot) (l : List Submission),
      (({} : SlotQueue).add s).bySlot[k]? = some l ↔ s.data.slot = k ∧ [s] = l := by
    intro k l
    unfold add
    simp [Std.ExtTreeMap.getElem?_insert]
  have hkept : (({} : SlotQueue).add s).bySlot.filter (fun k _ => slot ≤ k) = ∅ := by
    refine Std.ExtTreeMap.ext_getElem? fun k => Option.ext fun l => ?_
    rw [Map.getElem?_filter_eq_some, hget, decide_eq_true_iff]
    refine iff_of_false (fun ⟨⟨hslot, _⟩, hle⟩ => ?_) (by simp)
    rw [← hslot] at hle
    exact UInt64.not_le.mpr hover hle
  have hdue : (({} : SlotQueue).add s).bySlot.filter (fun k _ => k < slot)
      = (({} : SlotQueue).add s).bySlot := by
    refine Std.ExtTreeMap.ext_getElem? fun k => Option.ext fun l => ?_
    rw [Map.getElem?_filter_eq_some, hget, decide_eq_true_iff]
    exact and_iff_left_of_imp fun ⟨hslot, _⟩ => hslot ▸ hover
  have hlist : (({} : SlotQueue).add s).bySlot.toList = [(s.data.slot, [s])] := by
    have hperm := Map.toList_perm ((hget _ _).mpr ⟨rfl, rfl⟩)
    have hnone : (({} : SlotQueue).add s).bySlot.erase s.data.slot = ∅ := by
      refine Std.ExtTreeMap.ext_getElem? fun k => Option.ext fun l => ?_
      rw [Map.getElem?_erase_eq_some, hget]
      exact iff_of_false (fun ⟨⟨hslot, _⟩, hne⟩ => hne hslot) (by simp)
    rw [hnone, Std.ExtTreeMap.toList_eq_nil_iff.mpr rfl] at hperm
    exact List.perm_singleton.mp hperm
  unfold takeDue
  rw [hkept, hdue, hlist]
  rfl

end ChainHead.SlotQueue
