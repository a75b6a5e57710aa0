/-
What slots that begin leave of a pool.

One slot takes away the groups that are too old for it, whole and
nothing else (`Tidy.swept`). The window is reckoned with words that stop
at the greatest, and is exact nevertheless (`firstKept_le_iff`).

Of several slots the latest decides. What a slot drops is gone before
the next, so that an earlier one finds nothing to drop and a later one
only the rest, and what was counted out twice is what one would have
counted out (`evicted_evicted`). This needs no agreement of index and
groups: both are changed root by root and the size by what was there.
-/
import ChainHead.Proofs.Pool.Interchange
import ChainHead.Proofs.Pool.Window

namespace ChainHead.Pool

variable {p : Pool} {preset : Preset} {root : Root} {slot slot' first first' : Slot}
variable {slots : List Slot}

-- ============================================== statement vocabulary

/-- Whether data of one slot are kept when another begins. -/
def Recent (preset : Preset) (retentionEpochs : UInt64) (now slot : Slot) : Prop :=
  now.toNat ≤ slot.toNat + preset.slotsPerEpoch.toNat * retentionEpochs.toNat

instance (preset : Preset) (retentionEpochs : UInt64) (now slot : Slot) :
    Decidable (Recent preset retentionEpochs now slot) :=
  inferInstanceAs (Decidable (_ ≤ _))

/-- The groups in the order of the index, latest slot first. -/
def inOrder (p : Pool) : List Group :=
  p.rootsNewestFirst.filterMap fun root => p.groups[root]?

/-- Whether a pool is left of another when a slot begins: the groups that
are kept, as they were and in their order, and the size without the
members of the others. -/
structure Swept (preset : Preset) (retentionEpochs : UInt64) (slot : Slot) (p p' : Pool) :
    Prop where
  groups : p'.groups = p.groups.filter fun _ g => Recent preset retentionEpochs slot g.data.slot
  order : p'.inOrder = p.inOrder.filter fun g => Recent preset retentionEpochs slot g.data.slot
  size : p'.size + (storedIn (p.groups.filter fun _ g =>
    ¬Recent preset retentionEpochs slot g.data.slot)).length = p.size

/-- Whether a slot is the latest of several. -/
def Latest (slot : Slot) (slots : List Slot) : Prop :=
  slot ∈ slots ∧ ∀ s ∈ slots, s ≤ slot

-- a word is one of finitely many, but only those of the list are to be gone through
instance (slot : Slot) (slots : List Slot) : Decidable (Latest slot slots) :=
  decidable_of_iff (slot ∈ slots ∧ slots.all (· ≤ slot)) (by simp [Latest])

-- ============================================================ one slot

/-- The groups that pass a test and those that do not have all members. -/
theorem length_storedIn_filter (groups : Std.ExtTreeMap Root Group) (keep : Group → Bool) :
    (storedIn (groups.filter fun _ g => keep g)).length
        + (storedIn (groups.filter fun _ g => !keep g)).length
      = (storedIn groups).length := by
  unfold storedIn
  rw [Std.ExtTreeMap.toList_filter, Std.ExtTreeMap.toList_filter, ← List.length_append,
    ← List.flatMap_append]
  exact ((List.filter_append_perm (fun entry => keep entry.2) groups.toList).flatMap_right _).length_eq

theorem recent_of_none (h : p.firstKeptSlot? preset slot = none) (slot' : Slot) :
    Recent preset p.retentionEpochs slot slot' :=
  firstKept_le_iff.mp fun first hfirst => by rw [h] at hfirst; cases hfirst

theorem le_iff_recent (h : p.firstKeptSlot? preset slot = some first) :
    first ≤ slot' ↔ Recent preset p.retentionEpochs slot slot' := by
  refine Iff.trans ⟨fun hle first' hfirst' => ?_, fun hall => hall first h⟩ firstKept_le_iff
  rw [h, Option.some.injEq] at hfirst'
  exact hfirst' ▸ hle

namespace Tidy

theorem groups_call_slot (h : p.Tidy) (preset : Preset) (slot : Slot) :
    (p.call preset (.slot slot)).groups
      = p.groups.filter fun _ g => Recent preset p.retentionEpochs slot g.data.slot := by
  rw [call_slot]
  cases hfirst : p.firstKeptSlot? preset slot with
  | none =>
      refine Std.ExtTreeMap.ext_getElem? fun root => ?_
      rw [Std.ExtTreeMap.getElem?_filter']
      cases p.groups[root]? with
      | none => rfl
      | some g => rw [Option.filter_some, if_pos (decide_eq_true (recent_of_none hfirst _))]
  | some first =>
      refine (h.groups_evicted first).trans (congrArg p.groups.filter ?_)
      funext _ g
      exact decide_eq_decide.mpr (le_iff_recent hfirst)

/-- The groups that are kept stand as they stood. -/
theorem inOrder_call_slot (h : p.Tidy) (preset : Preset) (slot : Slot) :
    (p.call preset (.slot slot)).inOrder
      = p.inOrder.filter fun g => Recent preset p.retentionEpochs slot g.data.slot := by
  have hgroup : ∀ root : Root, (p.call preset (.slot slot)).groups[root]?
      = p.groups[root]?.filter fun g => Recent preset p.retentionEpochs slot g.data.slot := by
    intro root
    rw [h.groups_call_slot, Std.ExtTreeMap.getElem?_filter']
  unfold inOrder
  simp only [List.filter_filterMap, ← hgroup]
  rw [call_slot]
  cases hfirst : p.firstKeptSlot? preset slot with
  | none => rfl
  | some first =>
      change (p.evicted first).rootsNewestFirst.filterMap (fun root => (p.evicted first).groups[root]?)
        = p.rootsNewestFirst.filterMap fun root => (p.evicted first).groups[root]?
      rw [h.rootsNewestFirst_evicted, List.filterMap_filter]
      refine List.filterMap_congr fun root _ => ?_
      by_cases hroot : root ∈ rootsBefore p.slots first
      · -- a root that is no longer listed has no group
        rw [if_neg (by simp [hroot]), Pool.evicted, Map.getElem?_foldl_erase, if_pos hroot]
      · rw [if_pos (decide_eq_true hroot)]

theorem swept (h : p.Tidy) (preset : Preset) (slot : Slot) :
    Swept preset p.retentionEpochs slot p (p.call preset (.slot slot)) where
  groups := h.groups_call_slot preset slot
  order := h.inOrder_call_slot preset slot
  size := by
    have htidy : (p.call preset (.slot slot)).Tidy :=
      (h.call preset (.slot slot) fun s facts heq => by cases heq).1
    have hsplit := length_storedIn_filter p.groups
      fun g => Recent preset p.retentionEpochs slot g.data.slot
    simp only [decide_not]
    rw [htidy.size, h.size, stored, stored, h.groups_call_slot, hsplit]

end Tidy

-- ======================================================= several slots

theorem mem_rootsBefore_evicted :
    root ∈ rootsBefore (p.evicted first).slots first'
      ↔ ∃ slot, first ≤ slot ∧ slot < first' ∧ root ∈ p.rootsAt slot := by
  rw [evicted, mem_rootsBefore]
  refine exists_congr fun slot => ?_
  rw [mem_rootsIn_filter, and_left_comm]
  rfl

/-- To drop what is older than a slot and then what is older than a later
one is to drop the latter. -/
theorem evicted_evicted (p : Pool) (hle : first ≤ first') :
    (p.evicted first).evicted first' = p.evicted first' := by
  have hroots : ∀ root, root ∈ rootsBefore p.slots first'
      ↔ root ∈ rootsBefore (p.evicted first).slots first' ∨ root ∈ rootsBefore p.slots first := by
    intro root
    rw [mem_rootsBefore_evicted, mem_rootsBefore, mem_rootsBefore]
    constructor
    · rintro ⟨slot, hlt, hroot⟩
      rcases UInt64.lt_or_le slot first with hold | hkept
      · exact Or.inr ⟨slot, hold, hroot⟩
      · exact Or.inl ⟨slot, hkept, hlt, hroot⟩
    · rintro (⟨slot, -, hlt, hroot⟩ | ⟨slot, hlt, hroot⟩)
      · exact ⟨slot, hlt, hroot⟩
      · exact ⟨slot, UInt64.lt_of_lt_of_le hlt hle, hroot⟩
  have hgroups : ((p.evicted first).evicted first').groups = (p.evicted first').groups := by
    refine Std.ExtTreeMap.ext_getElem? fun root => ?_
    have hafter : ((p.evicted first).evicted first').groups[root]?
        = if root ∈ rootsBefore (p.evicted first).slots first' then none
          else (p.evicted first).groups[root]? := Map.getElem?_foldl_erase _ _ root
    rw [hafter, evicted, evicted, Map.getElem?_foldl_erase, Map.getElem?_foldl_erase, ← ite_or]
    exact (if_congr (hroots root) rfl rfl).symm
  have hslots : ((p.evicted first).evicted first').slots = (p.evicted first').slots := by
    refine (Map.filter_filter p.slots _ _).trans (congrArg p.slots.filter ?_)
    funext slot _
    rw [← Bool.decide_and, decide_eq_decide]
    exact and_iff_right_of_imp fun hkept => UInt64.le_trans hle hkept
  have hsize : ((p.evicted first).evicted first').size = (p.evicted first').size := by
    have hboth := countIn_add_length p.groups (rootsBefore p.slots first')
    have hone := countIn_add_length p.groups (rootsBefore p.slots first)
    have hother := countIn_add_length (p.evicted first).groups
      (rootsBefore (p.evicted first).slots first')
    have hleft := congrArg (fun groups => (storedIn groups).length) hgroups
    simp only [evicted] at hother hleft ⊢
    omega
  show Pool.mk _ _ _ _ _ = Pool.mk _ _ _ _ _
  rw [Pool.mk.injEq]
  exact ⟨rfl, hgroups, hslots, hsize, rfl⟩

/-- Nothing is left that an earlier slot would drop. -/
theorem evicted_of_le (p : Pool) (hle : first' ≤ first) :
    (p.evicted first).evicted first' = p.evicted first := by
  have hnone : rootsBefore (p.evicted first).slots first' = [] := by
    rw [List.eq_nil_iff_forall_not_mem]
    intro root hroot
    obtain ⟨slot, hkept, hlt, -⟩ := mem_rootsBefore_evicted.mp hroot
    exact UInt64.not_lt.mpr (UInt64.le_trans hle hkept) hlt
  have hslots : ((p.evicted first).evicted first').slots = (p.evicted first).slots := by
    refine (Map.filter_filter p.slots _ _).trans (congrArg p.slots.filter ?_)
    funext slot _
    rw [← Bool.decide_and, decide_eq_decide]
    exact and_iff_left_of_imp fun hkept => UInt64.le_trans hle hkept
  show Pool.mk _ _ _ _ _ = Pool.mk _ _ _ _ _
  rw [Pool.mk.injEq, hnone]
  exact ⟨rfl, rfl, hslots, rfl, rfl⟩

theorem firstKeptSlot?_call (p : Pool) (preset : Preset) (c : Call) (slot : Slot) :
    (p.call preset c).firstKeptSlot? preset slot = p.firstKeptSlot? preset slot := by
  unfold firstKeptSlot?
  rw [retentionEpochs_call]

/-- Where a slot drops anything, a later one drops that as well. -/
theorem firstKeptSlot?_mono (hle : slot ≤ slot')
    (h : p.firstKeptSlot? preset slot = some first) :
    ∃ first', p.firstKeptSlot? preset slot' = some first' ∧ first ≤ first' := by
  rw [firstKeptSlot?_eq_some_iff] at h
  rw [UInt64.le_iff_toNat_le] at hle
  cases h' : p.firstKeptSlot? preset slot' with
  | none =>
      -- the data of slot zero would be dropped
      have hzero : Recent preset p.retentionEpochs slot' 0 := recent_of_none h' 0
      have hwindow := Word.toNat_mulSat preset.slotsPerEpoch p.retentionEpochs
      have hslot := slot'.toNat_lt
      have hnat : (0 : Slot).toNat = 0 := rfl
      unfold Recent at hzero
      omega
  | some first' =>
      rw [firstKeptSlot?_eq_some_iff] at h'
      refine ⟨first', rfl, ?_⟩
      rw [UInt64.le_iff_toNat_le]
      omega

theorem updateMetrics_evicted (p : Pool) (first : Slot) :
    (p.updateMetrics.evicted first).updateMetrics = (p.evicted first).updateMetrics :=
  updateMetrics_congr rfl rfl rfl rfl rfl

/-- A slot that begins after another leaves what it would have left
alone. -/
theorem call_slot_of_le (p : Pool) (preset : Preset) (hle : slot ≤ slot') :
    (p.call preset (.slot slot)).call preset (.slot slot') = p.call preset (.slot slot') := by
  rw [call_slot preset (p.call preset (.slot slot)), firstKeptSlot?_call, call_slot preset p slot,
    call_slot preset p slot']
  cases hfirst : p.firstKeptSlot? preset slot with
  | none => rfl
  | some first =>
      obtain ⟨first', hfirst', hmore⟩ := firstKeptSlot?_mono hle hfirst
      rw [hfirst']
      dsimp only
      rw [updateMetrics_evicted, p.evicted_evicted hmore]

/-- A slot before another changes nothing afterwards. -/
theorem call_slot_of_ge (p : Pool) (preset : Preset) (hle : slot' ≤ slot) :
    (p.call preset (.slot slot)).call preset (.slot slot') = p.call preset (.slot slot) := by
  rw [call_slot preset (p.call preset (.slot slot)), firstKeptSlot?_call, call_slot preset p slot]
  cases hfirst' : p.firstKeptSlot? preset slot' with
  | none => rfl
  | some first' =>
      obtain ⟨first, hfirst, hmore⟩ := firstKeptSlot?_mono hle hfirst'
      rw [hfirst]
      dsimp only
      rw [updateMetrics_evicted, p.evicted_of_le hmore]

/-- Slots up to one that begins after them make no difference. -/
theorem call_slot_after (p : Pool) (preset : Preset) (hle : ∀ s ∈ slots, s ≤ slot) :
    (after preset p (slots.map .slot)).call preset (.slot slot) = p.call preset (.slot slot) := by
  induction slots with
  | nil => rfl
  | cons s slots ih =>
      obtain ⟨hs, hslots⟩ := List.forall_mem_cons.mp hle
      exact (call_slot_of_le _ preset hs).trans (ih hslots)

/-- Of several slots that begin, the latest decides what is left. -/
theorem Latest.after_eq (h : Latest slot slots) (p : Pool) (preset : Preset) :
    after preset p (slots.map .slot) = p.call preset (.slot slot) := by
  obtain ⟨hmem, hle⟩ := h
  induction slots with
  | nil => cases hmem
  | cons s slots ih =>
      obtain ⟨hs, hslots⟩ := List.forall_mem_cons.mp hle
      rcases List.mem_cons.mp hmem with rfl | hearlier
      · exact call_slot_after p preset hslots
      · have hrest := ih hearlier hslots
        show (after preset p (slots.map .slot)).call preset (.slot s) = _
        rw [hrest]
        exact call_slot_of_ge p preset hs

/-- After any run, a slot that begins leaves just the groups whose window
has not passed, if data are told apart by their roots; and of several
slots the latest decides. -/
theorem swept_after (preset : Preset) (retentionEpochs : UInt64) (calls : List Call) :
    let p := after preset { retentionEpochs } calls
    (Distinct calls → ∀ slot, Swept preset retentionEpochs slot p (p.onSlot preset slot).value)
      ∧ ∀ slots slots' slot, Latest slot slots → Latest slot slots' →
        after preset p (slots.map .slot) = after preset p (slots'.map .slot) := by
  intro p
  refine ⟨fun hdistinct slot => ?_, fun slots slots' slot h h' => ?_⟩
  · have hkept : p.retentionEpochs = retentionEpochs := retentionEpochs_after preset _ calls
    rw [← hkept]
    exact (tidy_run preset retentionEpochs hdistinct).1.swept preset slot
  · exact (h.after_eq p preset).trans (h'.after_eq p preset).symm

/-- Of two slots one is kept for a block of the next epoch, and it makes no
difference in which order that slot and others began. -/
theorem swept_after_harvest :
    let p := after .minimal { retentionEpochs := 1 } harvest
    (Distinct harvest
        ∧ p.inOrder.map (fun g => (g.data.slot, g.size)) = [(7, 1), (1, 1)]
        ∧ (p.onSlot .minimal 10).value.inOrder.map (fun g => (g.data.slot, g.size)) = [(7, 1)]
        ∧ p.size = 2 ∧ (p.onSlot .minimal 10).value.size = 1
        ∧ Latest 10 [10, 4, 9, 10] ∧ Latest 10 [9, 10])
      ∧ (∀ slot, Swept .minimal 1 slot p (p.onSlot .minimal slot).value)
      ∧ after .minimal p ([10, 4, 9, 10].map .slot) = after .minimal p ([9, 10].map .slot) := by
  refine (and_iff_left_of_imp fun hseen => ?_).mpr ?_
  · obtain ⟨hswept, hsame⟩ := swept_after .minimal 1 harvest
    obtain ⟨hdistinct, -, -, -, -, hlatest, hlatest'⟩ := hseen
    exact ⟨hswept hdistinct, hsame _ _ _ hlatest hlatest'⟩
  · decide +kernel

end ChainHead.Pool
