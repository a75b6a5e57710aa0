/-
The order of a queue: by slot, and by arrival within a slot.

What is listed in the order of arrival is brought into that order by a
stable sort, `bySlot`. Two facts determine its result: it is ordered by
slot, and at each slot it has what the list has there, in the order of
the list (`eq_bySlot`). So whatever is claimed to be such a sort only has
to be looked at slot by slot, where nothing is sorted any more.

The earliest element of a list is the first of those with the least
slot. It comes first in the sort, and without it the sort is what is left
of it (`exists_earliest`).
-/
import ChainHead.Epoch
import Mathlib.Data.List.Nodup

namespace ChainHead

variable {α β : Type} {slot : α → Slot} {l m : List α}

-- ============================================== statement vocabulary

/-- A list in the order of slots, and in its own order within a slot. -/
def bySlot (slot : α → Slot) (l : List α) : List α :=
  l.mergeSort fun x y => slot x ≤ slot y

/-- A list without the first element of those with the least slot. -/
def dropEarliest (slot : α → Slot) (l : List α) : List α :=
  l.eraseP fun x => l.all fun y => slot x ≤ slot y

-- ============================================================ the sort

theorem bySlot_perm (slot : α → Slot) (l : List α) : (bySlot slot l).Perm l :=
  List.mergeSort_perm l _

theorem slot_le_trans (slot : α → Slot) (x y z : α) :
    decide (slot x ≤ slot y) = true → decide (slot y ≤ slot z) = true →
      decide (slot x ≤ slot z) = true := by
  simp only [decide_eq_true_iff]
  exact UInt64.le_trans

theorem slot_le_total (slot : α → Slot) (x y : α) :
    (decide (slot x ≤ slot y) || decide (slot y ≤ slot x)) = true := by
  simp only [Bool.or_eq_true, decide_eq_true_iff]
  exact UInt64.le_total _ _

theorem pairwise_bySlot (slot : α → Slot) (l : List α) :
    (bySlot slot l).Pairwise fun x y => slot x ≤ slot y := by
  have hsorted := List.pairwise_mergeSort (slot_le_trans slot) (slot_le_total slot) l
  exact hsorted.imp of_decide_eq_true

/-- The sort has for each slot what the list has, in the same order. -/
theorem filter_bySlot (slot : α → Slot) (l : List α) (s : Slot) :
    (bySlot slot l).filter (fun x => slot x = s) = l.filter fun x => slot x = s := by
  have hclass : (l.filter fun x => slot x = s).Pairwise fun x y => slot x ≤ slot y := by
    refine List.pairwise_of_forall_mem_list fun x hx y hy => ?_
    have hxs := of_decide_eq_true (List.mem_filter.mp hx).2
    have hys := of_decide_eq_true (List.mem_filter.mp hy).2
    rw [hxs, hys]
    exact UInt64.le_refl s
  -- it is in order, and so it is found in the sort as it is
  have hfound : (l.filter fun x => slot x = s).Sublist (bySlot slot l) :=
    List.sublist_mergeSort (slot_le_trans slot) (slot_le_total slot)
      (hclass.imp decide_eq_true) List.filter_sublist
  have hsub := hfound.filter fun x => decide (slot x = s)
  rw [List.filter_filter] at hsub
  simp only [Bool.and_self] at hsub
  exact (hsub.eq_of_length ((bySlot_perm slot l).filter _).length_eq.symm).symm

/-- The first element of a list in order has no greater slot than any
that is found elsewhere with the same elements at its slot. -/
theorem le_head {x y : α} (hl : (x :: l).Pairwise fun x y => slot x ≤ slot y)
    (h : ((x :: l).filter fun z => slot z = slot y)
      = (y :: m).filter fun z => slot z = slot y) : slot x ≤ slot y := by
  have hmem : y ∈ (x :: l).filter fun z => slot z = slot y := by
    rw [h]
    simp
  rcases List.mem_cons.mp (List.mem_filter.mp hmem).1 with rfl | hmem
  · exact UInt64.le_refl _
  · exact (List.pairwise_cons.mp hl).1 y hmem

/-- Lists in the order of slots are equal if they are so slot by slot. -/
theorem eq_of_filter_eq (hl : l.Pairwise fun x y => slot x ≤ slot y)
    (hm : m.Pairwise fun x y => slot x ≤ slot y)
    (h : ∀ s, (l.filter fun x => slot x = s) = m.filter fun x => slot x = s) : l = m := by
  induction l generalizing m with
  | nil =>
      cases m with
      | nil => rfl
      | cons y m =>
          have hy := h (slot y)
          simp at hy
  | cons x l ih =>
      have hclass := h (slot x)
      rw [List.filter_cons_of_pos (by simp)] at hclass
      cases m with
      | nil => simp at hclass
      | cons y m =>
          -- each first element has the least slot, so both have the same
          have hslot : slot y = slot x :=
            UInt64.le_antisymm (le_head hm (h (slot x)).symm) (le_head hl (h (slot y)))
          rw [List.filter_cons_of_pos (by simp [hslot])] at hclass
          injection hclass with hhead _
          subst hhead
          congr 1
          refine ih hl.of_cons hm.of_cons fun s => ?_
          have hs := h s
          rw [List.filter_cons, List.filter_cons] at hs
          split at hs
          case isTrue => exact List.tail_eq_of_cons_eq hs
          case isFalse => exact hs

/-- The sort of a list is the one that is in the order of slots and has
for each slot what the list has. -/
theorem eq_bySlot (hm : m.Pairwise fun x y => slot x ≤ slot y)
    (h : ∀ s, (m.filter fun x => slot x = s) = l.filter fun x => slot x = s) :
    m = bySlot slot l :=
  eq_of_filter_eq hm (pairwise_bySlot slot l) fun s => (h s).trans (filter_bySlot slot l s).symm

/-- The order that a list has is kept within a slot. -/
theorem pairwise_bySlot_of_pairwise {R : α → α → Prop} (hl : l.Pairwise R) :
    (bySlot slot l).Pairwise fun x y => slot x < slot y ∨ slot x = slot y ∧ R x y := by
  have hclass : ∀ s, ((bySlot slot l).filter fun x => slot x = s).Pairwise R := fun s => by
    rw [filter_bySlot]
    exact hl.filter _
  have hsorted := pairwise_bySlot slot l
  generalize bySlot slot l = m at hclass hsorted
  induction m with
  | nil => exact .nil
  | cons x m ih =>
      have htail (s : Slot) : (m.filter fun x => slot x = s).Pairwise R :=
        (hclass s).sublist ((List.sublist_cons_self x m).filter _)
      refine List.pairwise_cons.mpr ⟨fun y hy => ?_, ih htail hsorted.of_cons⟩
      rcases UInt64.lt_or_eq_of_le ((List.pairwise_cons.mp hsorted).1 y hy) with hlt | heq
      · exact .inl hlt
      · have hx := hclass (slot x)
        rw [List.filter_cons_of_pos (by simp)] at hx
        exact .inr ⟨heq, (List.pairwise_cons.mp hx).1 y (List.mem_filter.mpr ⟨hy, by simp [heq]⟩)⟩

theorem bySlot_filter (slot : α → Slot) (p : α → Bool) (l : List α) :
    bySlot slot (l.filter p) = (bySlot slot l).filter p := by
  refine (eq_bySlot ((pairwise_bySlot slot l).filter p) fun s => ?_).symm
  rw [List.filter_filter, List.filter_filter, List.filter_congr fun x _ => Bool.and_comm _ _,
    ← List.filter_filter, filter_bySlot, List.filter_filter]
  exact List.filter_congr fun x _ => Bool.and_comm _ _

/-- What is sorted already may be sorted before something is added. -/
theorem bySlot_append_bySlot (slot : α → Slot) (l m : List α) :
    bySlot slot (bySlot slot l ++ m) = bySlot slot (l ++ m) := by
  refine eq_bySlot (pairwise_bySlot slot _) fun s => ?_
  rw [filter_bySlot, List.filter_append, List.filter_append, filter_bySlot]

theorem bySlot_map (slot : β → Slot) (f : α → β) (l : List α) :
    bySlot slot (l.map f) = (bySlot (fun x => slot (f x)) l).map f := by
  refine (eq_bySlot ?_ fun s => ?_).symm
  · exact List.pairwise_map.mpr (pairwise_bySlot (fun x => slot (f x)) l)
  · rw [List.filter_map, List.filter_map]
    exact congrArg _ (filter_bySlot (fun x => slot (f x)) l s)

-- ======================================================== the earliest

/-- The earliest element comes first in the sort, the others are what is
left. -/
theorem exists_earliest (slot : α → Slot) (hl : l ≠ []) :
    ∃ before x after, l = before ++ x :: after ∧ dropEarliest slot l = before ++ after
      ∧ bySlot slot l = x :: bySlot slot (before ++ after) := by
  obtain ⟨z, rest, hz⟩ : ∃ z rest, bySlot slot l = z :: rest := by
    refine List.exists_cons_of_ne_nil fun hnil => hl ?_
    have hperm := bySlot_perm slot l
    rw [hnil] at hperm
    exact hperm.nil_eq.symm
  have hmem : ∀ y, y ∈ l ↔ y ∈ z :: rest := by
    intro y
    rw [← hz]
    exact (bySlot_perm slot l).mem_iff.symm
  have hsorted := pairwise_bySlot slot l
  rw [hz] at hsorted
  have hleast : (l.all fun y => slot z ≤ slot y) = true := by
    simp only [List.all_eq_true, decide_eq_true_iff]
    intro y hy
    rcases List.mem_cons.mp ((hmem y).mp hy) with rfl | hy
    · exact UInt64.le_refl _
    · exact (List.pairwise_cons.mp hsorted).1 y hy
  obtain ⟨x, before, after, hbefore, hx, hsplit, hdrop⟩ :=
    List.exists_of_eraseP (p := fun x => l.all fun y => slot x ≤ slot y)
      ((hmem z).mpr List.mem_cons_self) hleast
  simp only [List.all_eq_true, decide_eq_true_iff] at hx hbefore
  have hothers : ∀ y ∈ bySlot slot (before ++ after), slot x ≤ slot y := by
    intro y hy
    refine hx y ?_
    rw [hsplit]
    have hy := (bySlot_perm slot (before ++ after)).mem_iff.mp hy
    rw [List.mem_append] at hy
    simp only [List.mem_append, List.mem_cons]
    tauto
  refine ⟨before, x, after, hsplit, hdrop, (eq_bySlot ?_ fun s => ?_).symm⟩
  · exact List.pairwise_cons.mpr ⟨hothers, pairwise_bySlot slot _⟩
  · rw [hsplit, List.filter_cons, List.filter_append, List.filter_cons, filter_bySlot,
      List.filter_append]
    split
    case isFalse => rfl
    case isTrue hs =>
      -- nothing before it has the same slot, or it would not be the first
      have hnone : (before.filter fun y => slot y = s) = [] := by
        refine List.filter_eq_nil_iff.mpr fun y hy hys => hbefore y hy fun z hz => ?_
        rw [of_decide_eq_true hys, ← of_decide_eq_true hs]
        exact hx z hz
      rw [hnone, List.nil_append, List.nil_append]

theorem dropEarliest_map (slot : β → Slot) (f : α → β) (l : List α) :
    dropEarliest slot (l.map f) = (dropEarliest (fun x => slot (f x)) l).map f := by
  unfold dropEarliest
  rw [List.eraseP_map]
  congr 2
  funext x
  simp [Function.comp_def]

end ChainHead
