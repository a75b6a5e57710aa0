/-
The slots that a pool holds are those of its index.

Data are filed under their root, and nothing here promises that
different data have different roots. So a group may have members with
other slots than its own, and its root may be listed at several slots.
It is listed at each of them (`Listed`), whatever is asked of the pool;
that is enough for eviction, which then leaves no group behind that has
a slot of before (`Listed.evicted`).

What remains is to follow the slots of the index. A call adds none but
that of a submission that was added, and of a slot that begins only
those survive whose window has not passed (`mem_slots_call`).
-/
import ChainHead.Proofs.Pool.Eviction
import Mathlib.Order.Interval.Finset.Nat

namespace ChainHead

/-- The slots of the data of a group and of its members. -/
def Group.slots (g : Group) : List Slot :=
  g.data.slot :: g.members.map (·.data.slot)

namespace Pool

variable {p : Pool} {preset : Preset} {c : Call} {s : Submission} {g : Group} {a : Attestation}
variable {root : Root} {slot now : Slot}

/-- Whether the index lists the root of each group at all slots of the
group. -/
def Listed (p : Pool) : Prop :=
  p.Everywhere fun root g => ∀ slot ∈ g.slots, root ∈ p.rootsAt slot

theorem mem_slots_iff : slot ∈ p.slots
    ↔ ∃ roots : Std.ExtTreeSet Root, p.slots[slot]? = some roots := by
  rw [Std.ExtTreeMap.mem_iff_isSome_getElem?, Option.isSome_iff_exists]

theorem mem_slots_of_mem_rootsAt (h : root ∈ p.rootsAt slot) : slot ∈ p.slots := by
  obtain ⟨roots, hroots, -⟩ := mem_rootsIn.mp h
  exact mem_slots_iff.mpr ⟨roots, hroots⟩

-- ===================================================== groups are listed

namespace Listed

theorem mem_slots (h : p.Listed) (hg : p.groups[root]? = some g) (hslot : slot ∈ g.slots) :
    slot ∈ p.slots :=
  mem_slots_of_mem_rootsAt (h root g hg slot hslot)

/-- A group can be filed if its slots are listed for its root, that of the
submission apart. -/
theorem filed (h : p.Listed)
    (hslots : ∀ slot ∈ g.slots, slot = s.data.slot ∨ s.dataRoot ∈ p.rootsAt slot) (size : Nat) :
    (p.filed s g size).Listed := by
  have hkept : ∀ root slot, root ∈ p.rootsAt slot → root ∈ (p.filed s g size).rootsAt slot := by
    intro root slot hroot
    rw [rootsAt, Pool.filed, mem_rootsIn_insert, Std.ExtTreeSet.mem_insert]
    split
    case isTrue heq => exact Or.inr (heq ▸ hroot)
    case isFalse => exact hroot
  have hnew : s.dataRoot ∈ (p.filed s g size).rootsAt s.data.slot := by
    rw [rootsAt, Pool.filed, mem_rootsIn_insert, if_pos rfl]
    exact Std.ExtTreeSet.mem_insert_self
  refine Map.forall_insert (fun root g hg slot hslot => hkept root slot (h root g hg slot hslot)) ?_
  intro slot hslot
  rcases hslots slot hslot with rfl | hold
  · exact hnew
  · exact hkept _ slot hold

/-- The group that a submission is to join has no slots but that of the
submission that are not listed. -/
theorem joined (h : p.Listed) (s : Submission) (seed : Root) :
    ∀ slot ∈ (p.joined s seed).slots, slot = s.data.slot ∨ s.dataRoot ∈ p.rootsAt slot := by
  unfold Pool.joined
  rw [Std.ExtTreeMap.getD_eq_getD_getElem?]
  cases hg : p.groups[s.dataRoot]? with
  | none => exact fun slot hslot => Or.inl (List.mem_singleton.mp hslot)
  | some g => exact fun slot hslot => Or.inr (h _ g hg slot hslot)

theorem add (h : p.Listed) {facts : Facts} {result : Logged (Pool × Bool)}
    (hadd : p.add s facts = .ok result) : result.value.1.Listed := by
  rcases p.add_cases s facts with ⟨-, herror⟩ | ⟨seed, result', -, hok, hvalue⟩
  · rw [hadd] at herror
    cases herror
  · rw [hadd] at hok
    injection hok with hok
    subst hok
    rcases hvalue with ⟨hvalue, -⟩ | ⟨members, hvalue, hperm⟩
    · rw [hvalue]
      exact h.filed (h.joined s seed) p.size
    · rw [hvalue]
      refine h.filed (fun slot hslot => ?_) (p.size + 1)
      -- one more member, with the slot of the submission
      have hjoined := h.joined s seed slot
      simp only [Group.slots, List.mem_cons, List.mem_map, hperm.mem_iff] at hslot hjoined
      rcases hslot with rfl | ⟨m, rfl | hm, rfl⟩
      · exact hjoined (Or.inl rfl)
      · exact Or.inl rfl
      · exact hjoined (Or.inr ⟨m, hm, rfl⟩)

/-- A group goes together with its entry at the slot of what was removed
last; what is left of it has no other slots. -/
theorem removeEqual (h : p.Listed) (a : Attestation) : (p.removeEqual a).Listed := by
  rcases p.removeEqual_cases a with ⟨-, heq⟩ | ⟨g, hg, ⟨-, heq⟩ | ⟨-, heq⟩⟩
  · rw [heq]
    exact h
  · rw [heq]
    intro root g' hg' slot hslot
    obtain ⟨hg', hne⟩ := Map.getElem?_erase_eq_some.mp hg'
    exact mem_rootsIn_dropRoot.mpr ⟨h root g' hg' slot hslot, fun hsame => hne hsame.2⟩
  · rw [heq]
    refine Map.forall_insert h fun slot hslot => h _ g hg slot ?_
    simp only [Group.slots, Group.remove, List.mem_cons, List.mem_map, List.mem_filter] at hslot ⊢
    rcases hslot with rfl | ⟨m, ⟨hm, -⟩, rfl⟩
    · exact Or.inl rfl
    · exact Or.inr ⟨m, hm, rfl⟩

theorem foldl_removeEqual (h : p.Listed) (as : List Attestation) :
    (as.foldl Pool.removeEqual p).Listed := by
  induction as generalizing p with
  | nil => exact h
  | cons a as ih => exact ih (h.removeEqual a)

/-- A group that eviction leaves has no slot of before. -/
theorem evicted (h : p.Listed) (first : Slot) : (p.evicted first).Listed := by
  intro root g hg slot hslot
  change ((rootsBefore p.slots first).foldl _ p.groups)[root]? = some g at hg
  rw [Map.getElem?_foldl_erase] at hg
  split at hg
  case isTrue => cases hg
  case isFalse hkept =>
    have hlisted := h root g hg slot hslot
    refine mem_rootsIn_filter.mpr ⟨UInt64.not_lt.mp fun hlt => ?_, hlisted⟩
    exact hkept (mem_rootsBefore.mpr ⟨slot, hlt, hlisted⟩)

theorem call (h : p.Listed) (preset : Preset) (c : Call) : (p.call preset c).Listed := by
  cases c with
  | add s facts =>
      cases hadd : p.add s facts with
      | error e =>
          simp only [Pool.call, hadd]
          exact h
      | ok result =>
          simp only [Pool.call, hadd]
          exact h.add hadd
  | remove a => exact h.removeEqual a
  | removeAll as => exact h.foldl_removeEqual as
  | slot slot =>
      rw [Pool.call, onSlot_value]
      cases p.firstKeptSlot? preset slot with
      | none => exact h
      | some first => exact h.evicted first

end Listed

theorem listed_empty (retentionEpochs : UInt64) : Listed { retentionEpochs } := by
  intro root g hg
  simp at hg

-- ================================================= slots of the index

theorem mem_slots_removeEqual (h : slot ∈ (p.removeEqual a).slots) : slot ∈ p.slots := by
  rcases p.removeEqual_cases a with ⟨-, heq⟩ | ⟨g, hg, ⟨-, heq⟩ | ⟨-, heq⟩⟩
  · rwa [heq] at h
  · rw [heq] at h
    change slot ∈ dropRoot p.slots a.data.slot a.data.hashTreeRoot at h
    unfold dropRoot at h
    cases hroots : p.slots[a.data.slot]? with
    | none =>
        rw [hroots] at h
        exact h
    | some roots =>
        rw [hroots] at h
        dsimp only at h
        split at h
        case isTrue => exact (Std.ExtTreeMap.mem_erase.mp h).2
        case isFalse =>
          rcases Std.ExtTreeMap.mem_insert.mp h with heq | hold
          · rw [← Std.LawfulEqOrd.compare_eq_iff_eq.mp heq]
            exact mem_slots_iff.mpr ⟨roots, hroots⟩
          · exact hold
  · rwa [heq] at h

/-- No slot is cut off when one begins if its window has not passed. -/
theorem firstKept_le_iff :
    (∀ first, p.firstKeptSlot? preset now = some first → first ≤ slot)
      ↔ now.toNat ≤ slot.toNat + preset.slotsPerEpoch.toNat * p.retentionEpochs.toNat := by
  rw [← Nat.not_lt, ← lt_firstKept_iff]
  simp only [← UInt64.not_lt]
  exact ⟨fun h ⟨first, hfirst, hlt⟩ => h first hfirst hlt,
    fun h first hfirst hlt => h ⟨first, hfirst, hlt⟩⟩

theorem mem_slots_onSlot (h : slot ∈ (p.onSlot preset now).value.slots) :
    slot ∈ p.slots
      ∧ now.toNat ≤ slot.toNat + preset.slotsPerEpoch.toNat * p.retentionEpochs.toNat := by
  rw [onSlot_value] at h
  rw [← firstKept_le_iff]
  cases hfirst : p.firstKeptSlot? preset now with
  | none =>
      rw [hfirst] at h
      exact ⟨h, by simp⟩
  | some kept =>
      rw [hfirst] at h
      change slot ∈ p.slots.filter fun slot _ => kept ≤ slot at h
      rw [Std.ExtTreeMap.mem_iff_isSome_getElem?, Option.isSome_iff_exists] at h
      obtain ⟨roots, hroots⟩ := h
      rw [Map.getElem?_filter_eq_some, decide_eq_true_iff] at hroots
      exact ⟨mem_slots_iff.mpr ⟨roots, hroots.1⟩,
        fun first hsome => Option.some.inj hsome ▸ hroots.2⟩

/-- A slot that is listed after a call was listed before, and its window
has not passed if a slot began; or it is that of a submission that was
added. -/
theorem mem_slots_call (h : slot ∈ (p.call preset c).slots) :
    (slot ∈ p.slots ∧ ∀ now, c = .slot now → now.toNat
        ≤ slot.toNat + preset.slotsPerEpoch.toNat * p.retentionEpochs.toNat)
      ∨ ∃ s facts, c = .add s facts ∧ slot = s.data.slot := by
  cases c with
  | add s facts =>
      rcases p.add_cases s facts with ⟨-, hadd⟩
        | ⟨seed, result, -, hadd, ⟨hvalue, -⟩ | ⟨members, hvalue, -⟩⟩
      · simp only [Pool.call, hadd] at h
        exact Or.inl ⟨h, by simp⟩
      all_goals
        simp only [Pool.call, hadd, hvalue] at h
        rcases Std.ExtTreeMap.mem_insert.mp h with heq | hold
        · exact Or.inr ⟨s, facts, rfl, (Std.LawfulEqOrd.compare_eq_iff_eq.mp heq).symm⟩
        · exact Or.inl ⟨hold, by simp⟩
  | remove a => exact Or.inl ⟨mem_slots_removeEqual h, by simp⟩
  | removeAll as =>
      refine Or.inl ⟨?_, by simp⟩
      change slot ∈ (as.foldl removeEqual p).slots at h
      induction as generalizing p with
      | nil => exact h
      | cons a as ih => exact mem_slots_removeEqual (ih h)
  | slot now =>
      obtain ⟨hold, hkept⟩ := mem_slots_onSlot h
      refine Or.inl ⟨hold, fun now' hnow => ?_⟩
      injection hnow with hnow
      exact hnow ▸ hkept

/-- A slot that begins changes nothing as long as no window has passed,
if the gauges are right. -/
theorem onSlot_of_not_passed (hgauges : p.updateMetrics = p) (h : ∀ slot ∈ p.slots,
      now.toNat ≤ slot.toNat + preset.slotsPerEpoch.toNat * p.retentionEpochs.toNat) :
    (p.onSlot preset now).value = p := by
  rw [onSlot_value]
  cases hfirst : p.firstKeptSlot? preset now with
  | none => rfl
  | some kept =>
      have hlate : ∀ slot ∈ p.slots, kept ≤ slot := fun slot hslot =>
        firstKept_le_iff.mpr (h slot hslot) kept hfirst
      have hnone : rootsBefore p.slots kept = [] := by
        refine List.eq_nil_iff_forall_not_mem.mpr fun root hroot => ?_
        obtain ⟨slot, hlt, hlisted⟩ := mem_rootsBefore.mp hroot
        exact UInt64.not_lt.mpr (hlate slot (mem_slots_of_mem_rootsAt hlisted)) hlt
      have hall : (p.slots.filter fun slot _ => kept ≤ slot) = p.slots := by
        refine Std.ExtTreeMap.ext_getElem? fun slot => Option.ext fun roots => ?_
        rw [Map.getElem?_filter_eq_some, decide_eq_true_iff]
        exact and_iff_left_of_imp fun hroots => hlate slot (mem_slots_iff.mpr ⟨roots, hroots⟩)
      have hsame : p.evicted kept = p := by
        unfold Pool.evicted
        rw [hnone, hall]
        rfl
      exact (congrArg Pool.updateMetrics hsame).trans hgauges

/-- As many slots fit in a window as it is long. -/
theorem Listed.card_slots_le (h : p.Listed) {low high : Nat}
    (hwindow : ∀ slot ∈ p.slots, low ≤ slot.toNat ∧ slot.toNat ≤ high) :
    (p.groups.toList.map fun entry => entry.2.data.slot).toFinset.card ≤ high + 1 - low := by
  calc (p.groups.toList.map fun entry => entry.2.data.slot).toFinset.card
      = ((p.groups.toList.map fun entry => entry.2.data.slot).toFinset.image
          UInt64.toNat).card :=
        (Finset.card_image_of_injective _ fun _ _ heq => UInt64.toNat_inj.mp heq).symm
    _ ≤ (Finset.Icc low high).card := by
        refine Finset.card_le_card fun n hn => ?_
        obtain ⟨slot, hslot, rfl⟩ := Finset.mem_image.mp hn
        obtain ⟨⟨root, g⟩, hentry, rfl⟩ := List.mem_map.mp (List.mem_toFinset.mp hslot)
        have hg := Std.ExtTreeMap.mem_toList_iff_getElem?_eq_some.mp hentry
        exact Finset.mem_Icc.mpr (hwindow _ (h.mem_slots hg List.mem_cons_self))
    _ = high + 1 - low := Nat.card_Icc low high

end Pool

end ChainHead
