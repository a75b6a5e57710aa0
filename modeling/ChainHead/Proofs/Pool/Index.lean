/-
The index of a pool and its size agree with its groups.

A pool keeps three things that could come apart: groups by the root of
their data, those roots again by slot, and a count. `Tidy` says that
they do not. Each operation is followed twice, once for the invariant
and once for what is stored, since the count is the length of that list:
adding puts one submission in or none, removing and eviction leave a
part of the list (`Tidy.removeEqual`, `Tidy.evicted`). So no subtraction
from the count is ever cut off at zero, and what an operation takes from
it is what the operation was to take out.

A submission joins the group with its root, which is a group for its
data only as long as no other data have that root; this is where
`Distinct` is needed, and nowhere else. An attestation that is to be
removed may have any data.
-/
import ChainHead.Proofs.Pool.Contents

namespace ChainHead

-- ============================================== statement vocabulary

/-- Whether a group has members, all with its data, and stands under the
root of these. -/
structure Group.Keyed (root : Root) (g : Group) : Prop where
  inhabited : g.members ≠ []
  dataRoot : g.dataRoot = root
  root : g.data.hashTreeRoot = root
  data : ∀ m ∈ g.members, m.data = g.data

namespace Pool

variable {p : Pool} {groups : Std.ExtTreeMap Root Group} {g : Group} {s m : Submission}
variable {slots : Std.ExtTreeMap Slot (Std.ExtTreeSet Root)} {slot slot' first : Slot}
variable {root root' : Root} {a : Attestation}

/-- Whether the size of a pool counts what its groups hold, and its
index lists the roots of all groups, each at the slot of its data, and
nothing else. -/
structure Tidy (p : Pool) : Prop where
  size : p.size = p.stored.length
  group : ∀ (root : Root) (g : Group), p.groups[root]? = some g → g.Keyed root
  index : ∀ (slot : Slot) (root : Root), root ∈ p.rootsAt slot
    ↔ ∃ g : Group, p.groups[root]? = some g ∧ g.data.slot = slot
  occupied : ∀ (slot : Slot) (roots : Std.ExtTreeSet Root), p.slots[slot]? = some roots →
    roots ≠ ∅

-- =========================================================== the index

theorem mem_rootsIn :
    root ∈ rootsIn slots slot ↔ ∃ roots : Std.ExtTreeSet Root,
      slots[slot]? = some roots ∧ root ∈ roots :=
  Map.mem_setAt

theorem mem_rootsIn_insert {roots : Std.ExtTreeSet Root} :
    root ∈ rootsIn (slots.insert slot roots) slot'
      ↔ if slot = slot' then root ∈ roots else root ∈ rootsIn slots slot' :=
  Map.mem_setAt_insert

theorem dropRoot_eq : dropRoot slots slot root = Map.dropAt slots slot root := by
  unfold dropRoot Map.dropAt
  cases slots[slot]? with
  | none => rfl
  | some roots => rfl

/-- A root that is dropped from a slot is missing there and nowhere
else. -/
theorem mem_rootsIn_dropRoot :
    root' ∈ rootsIn (dropRoot slots slot root) slot'
      ↔ root' ∈ rootsIn slots slot' ∧ ¬(slot = slot' ∧ root = root') := by
  rw [dropRoot_eq]
  exact Map.mem_setAt_dropAt

theorem occupied_dropRoot
    (h : ∀ (slot : Slot) (roots : Std.ExtTreeSet Root), slots[slot]? = some roots →
      roots ≠ ∅) :
    ∀ (slot' : Slot) (roots : Std.ExtTreeSet Root),
      (dropRoot slots slot root)[slot']? = some roots → roots ≠ ∅ := by
  rw [dropRoot_eq]
  exact Map.occupied_dropAt h

/-- What is left of an index from a slot on is what it listed there. -/
theorem mem_rootsIn_filter :
    root ∈ rootsIn (slots.filter fun slot _ => first ≤ slot) slot
      ↔ first ≤ slot ∧ root ∈ rootsIn slots slot := by
  rw [mem_rootsIn, mem_rootsIn, Std.ExtTreeMap.getElem?_filter']
  simp only [Option.filter_eq_some_iff, decide_eq_true_iff]
  constructor
  · intro ⟨roots, ⟨hroots, hle⟩, hmem⟩
    exact ⟨hle, roots, hroots, hmem⟩
  · intro ⟨hle, roots, hroots, hmem⟩
    exact ⟨roots, ⟨hroots, hle⟩, hmem⟩

/-- What is listed before a slot is listed at a slot before it. -/
theorem mem_rootsBefore :
    root ∈ rootsBefore slots first ↔ ∃ slot < first, root ∈ rootsIn slots slot := by
  unfold rootsBefore
  rw [List.mem_flatMap]
  constructor
  · intro ⟨⟨slot, roots⟩, hentry, hroot⟩
    rw [Std.ExtTreeMap.mem_toList_iff_getElem?_eq_some, Std.ExtTreeMap.getElem?_filter',
      Option.filter_eq_some_iff, decide_eq_true_iff] at hentry
    exact ⟨slot, hentry.2, mem_rootsIn.mpr
      ⟨roots, hentry.1, Std.ExtTreeSet.mem_toList.mp hroot⟩⟩
  · intro ⟨slot, hlt, hroot⟩
    obtain ⟨roots, hroots, hmem⟩ := mem_rootsIn.mp hroot
    refine ⟨(slot, roots), ?_, Std.ExtTreeSet.mem_toList.mpr hmem⟩
    rw [Std.ExtTreeMap.mem_toList_iff_getElem?_eq_some, Std.ExtTreeMap.getElem?_filter',
      Option.filter_eq_some_iff, decide_eq_true_iff]
    exact ⟨hroots, hlt⟩

-- ======================================================= the invariant

theorem tidy_empty (retentionEpochs : UInt64) : Tidy { retentionEpochs } where
  size := rfl
  group := by simp
  index := by simp [rootsAt, rootsIn]
  occupied := by simp

namespace Tidy

theorem updateMetrics (h : Tidy p) : Tidy p.updateMetrics :=
  ⟨h.size, h.group, h.index, h.occupied⟩

/-- What is stored is in the group with its root. -/
theorem group_of_mem (h : Tidy p) (hm : m ∈ p.stored) :
    ∃ g : Group, p.groups[m.dataRoot]? = some g ∧ m ∈ g.members ∧ m.data = g.data := by
  obtain ⟨root, g, hg, hmem⟩ := mem_storedIn.mp hm
  have hkeyed := h.group root g hg
  have hdata := hkeyed.data m hmem
  refine ⟨g, ?_, hmem, hdata⟩
  rw [Submission.dataRoot, hdata, hkeyed.root, hg]

/-- No root is listed at two slots. -/
theorem slot_unique (h : Tidy p) (hroot : root ∈ p.rootsAt slot)
    (hroot' : root ∈ p.rootsAt slot') : slot = slot' := by
  obtain ⟨g, hg, hslot⟩ := (h.index slot root).mp hroot
  obtain ⟨g', hg', hslot'⟩ := (h.index slot' root).mp hroot'
  rw [hg, Option.some.injEq] at hg'
  rw [← hslot, ← hslot', hg']

-- ============================================================== adding

/-- A pool stays tidy when a group is filed that belongs to the
submission, if the one before did. -/
theorem filed (h : Tidy p)
    (hsame : ∀ g : Group, p.groups[s.dataRoot]? = some g → g.data = s.data)
    (hkeyed : g.Keyed s.dataRoot) (hdata : g.data = s.data) {size : Nat}
    (hsize : size = g.members.length + (storedIn (p.groups.erase s.dataRoot)).length) :
    Tidy (p.filed s g size) where
  size := hsize.trans (length_storedIn_insert p.groups s.dataRoot g).symm
  group := Map.forall_insert h.group hkeyed
  index := by
    intro slot root
    rw [rootsAt, Pool.filed, mem_rootsIn_insert, Std.ExtTreeSet.mem_insert,
      Std.ExtTreeMap.getElem?_insert]
    simp only [Std.LawfulEqOrd.compare_eq_iff_eq]
    by_cases hroot : s.dataRoot = root
    · rw [if_pos hroot]
      constructor
      · intro hmem
        refine ⟨g, rfl, ?_⟩
        rw [hdata]
        split at hmem
        case isTrue hslot => exact hslot
        case isFalse =>
          obtain ⟨g', hg', hslot⟩ := (h.index slot root).mp hmem
          rw [← hslot, hsame g' (hroot ▸ hg')]
      · intro ⟨g', hg', hslot⟩
        injection hg' with hg'
        rw [if_pos (by rw [← hslot, ← hg', hdata])]
        exact Or.inl hroot
    · rw [if_neg hroot, ← h.index slot root]
      split
      case isTrue hslot =>
        rw [← hslot]
        simp only [hroot, false_or]
        rfl
      case isFalse => rfl
  occupied := Map.forall_insert h.occupied Std.ExtTreeSet.insert_ne_empty

/-- The group that a submission is to join belongs to it, and has all
that is stored under its root. -/
theorem joined (h : Tidy p)
    (hsame : ∀ g : Group, p.groups[s.dataRoot]? = some g → g.data = s.data) (seed : Root) :
    (p.joined s seed).dataRoot = s.dataRoot ∧ (p.joined s seed).data = s.data
      ∧ (∀ m ∈ (p.joined s seed).members, m.data = s.data)
      ∧ p.stored.Perm ((p.joined s seed).members ++ storedIn (p.groups.erase s.dataRoot)) := by
  unfold Pool.joined
  rw [Std.ExtTreeMap.getD_eq_getD_getElem?]
  cases hg : p.groups[s.dataRoot]? with
  | none =>
      rw [Map.erase_of_absent hg]
      exact ⟨rfl, rfl, by simp, .refl _⟩
  | some g =>
      have hkeyed := h.group _ g hg
      have hdata := hsame g hg
      exact ⟨hkeyed.dataRoot, hdata, fun m hm => (hkeyed.data m hm).trans hdata,
        storedIn_split hg⟩

/-- A pool stays tidy when the group that a submission is to join is
filed with other members that have its data. -/
theorem filed_joined (h : Tidy p)
    (hsame : ∀ g : Group, p.groups[s.dataRoot]? = some g → g.data = s.data) (seed : Root)
    {members : List Submission} (hne : members ≠ []) (hmembers : ∀ m ∈ members, m.data = s.data)
    {size : Nat} (hsize : size = members.length + (storedIn (p.groups.erase s.dataRoot)).length) :
    Tidy (p.filed s { p.joined s seed with members } size) := by
  obtain ⟨hroot, hdata, -⟩ := h.joined hsame seed
  have hkeyed : ({ p.joined s seed with members } : Group).Keyed s.dataRoot :=
    ⟨hne, hroot, congrArg AttestationData.hashTreeRoot hdata,
      fun m hm => (hmembers m hm).trans hdata.symm⟩
  exact h.filed hsame hkeyed hdata hsize

/-- A pool stays tidy when a submission is added, if the group with its
root has its data, and then holds what it held, and the submission if
that was taken in. -/
theorem add (h : Tidy p)
    (hsame : ∀ g : Group, p.groups[s.dataRoot]? = some g → g.data = s.data) {facts : Facts}
    {result : Logged (Pool × Bool)} (hadd : p.add s facts = .ok result) :
    Tidy result.value.1
      ∧ result.value.1.stored.Perm (if result.value.2 then s :: p.stored else p.stored) := by
  rcases p.add_cases s facts with ⟨-, herror⟩ | ⟨seed, result', -, hok, hvalue⟩
  · rw [hadd] at herror
    cases herror
  · rw [hadd] at hok
    injection hok with hok
    subst hok
    obtain ⟨-, -, hmembers, hsplit⟩ := h.joined hsame seed
    have hsize := h.size
    rw [hsplit.length_eq, List.length_append] at hsize
    rcases hvalue with ⟨hvalue, hne⟩ | ⟨members, hvalue, hperm⟩
    · rw [hvalue]
      exact ⟨(h.filed_joined hsame seed hne hmembers hsize).updateMetrics,
        (storedIn_insert _ _ _).trans hsplit.symm⟩
    · have hlength := hperm.length_eq
      rw [List.length_cons] at hlength
      have hne : members ≠ [] := by
        intro hnil
        rw [hnil] at hlength
        cases hlength
      have hall : ∀ m ∈ members, m.data = s.data := by
        intro m hm
        rcases List.mem_cons.mp (hperm.mem_iff.mp hm) with rfl | hold
        · rfl
        · exact hmembers m hold
      rw [hvalue]
      refine ⟨(h.filed_joined hsame seed hne hall (by omega)).updateMetrics, ?_⟩
      refine (storedIn_insert _ _ _).trans ?_
      exact (hperm.append_right _).trans (List.Perm.cons s hsplit.symm)

-- ============================================================ removing

/-- What is stored in other groups has other data. -/
theorem dataRoot_ne (h : Tidy p) (hm : m ∈ storedIn (p.groups.erase root)) :
    m.dataRoot ≠ root := by
  obtain ⟨root', g, hg, hmem⟩ := mem_storedIn.mp hm
  rw [Std.ExtTreeMap.getElem?_erase] at hg
  split at hg
  case isTrue => cases hg
  case isFalse hne =>
    have hkeyed := h.group root' g hg
    rw [Submission.dataRoot, hkeyed.data m hmem, hkeyed.root]
    exact fun heq => hne (Std.LawfulEqOrd.compare_eq_iff_eq.mpr heq.symm)

/-- All that equals an attestation is in the group with its root. -/
theorem filter_stored (h : Tidy p) (hg : p.groups[a.data.hashTreeRoot]? = some g) :
    (p.stored.filter fun m => m.attestation ≠ a).Perm
      ((g.remove a).members ++ storedIn (p.groups.erase a.data.hashTreeRoot)) := by
  have hothers : (storedIn (p.groups.erase a.data.hashTreeRoot)).filter
      (fun m => m.attestation ≠ a) = storedIn (p.groups.erase a.data.hashTreeRoot) := by
    refine List.filter_eq_self.mpr fun m hm => decide_eq_true fun heq => ?_
    refine h.dataRoot_ne hm ?_
    rw [Submission.dataRoot, Submission.data, heq]
  have hsplit := (storedIn_split hg).filter fun m => m.attestation ≠ a
  rw [List.filter_append, hothers] at hsplit
  exact hsplit

/-- A group of which nothing is left can go, and its root from the slot
of its data. -/
theorem erased (h : Tidy p) (hg : p.groups[root]? = some g) :
    Tidy { p with
      groups := p.groups.erase root
      slots := dropRoot p.slots g.data.slot root
      size := (storedIn (p.groups.erase root)).length } where
  size := rfl
  group := Map.forall_erase h.group
  index := by
    intro slot root'
    rw [rootsAt, mem_rootsIn_dropRoot, Std.ExtTreeMap.getElem?_erase]
    simp only [Std.LawfulEqOrd.compare_eq_iff_eq]
    have hindex := h.index slot root'
    unfold rootsAt at hindex
    rw [hindex]
    by_cases hroot : root = root'
    · rw [if_pos hroot]
      constructor
      · intro ⟨⟨g', hg', hslot⟩, hnot⟩
        rw [← hroot, hg, Option.some.injEq] at hg'
        exact absurd ⟨hg' ▸ hslot, hroot⟩ hnot
      · intro ⟨g', hnone, _⟩
        cases hnone
    · rw [if_neg hroot]
      exact and_iff_left fun both => hroot both.2
  occupied := occupied_dropRoot h.occupied

/-- A group can lose members as long as some are left. -/
theorem reduced (h : Tidy p) (hg : p.groups[root]? = some g) (hne : (g.remove a).members ≠ []) :
    Tidy { p with
      groups := p.groups.insert root (g.remove a)
      size := (g.remove a).members.length + (storedIn (p.groups.erase root)).length } where
  size := (length_storedIn_insert p.groups root (g.remove a)).symm
  group := by
    have hkeyed := h.group root g hg
    exact Map.forall_insert h.group ⟨hne, hkeyed.dataRoot, hkeyed.root,
      fun m hm => hkeyed.data m (List.mem_of_mem_filter hm)⟩
  index := by
    intro slot root'
    rw [Std.ExtTreeMap.getElem?_insert]
    simp only [Std.LawfulEqOrd.compare_eq_iff_eq]
    refine (h.index slot root').trans ?_
    by_cases hroot : root = root'
    · rw [if_pos hroot, ← hroot, hg]
      simp [Group.remove]
    · rw [if_neg hroot]
  occupied := h.occupied

/-- A pool stays tidy when what equals an attestation is removed, and
then holds the rest. -/
theorem removeEqual (h : Tidy p) (a : Attestation) :
    Tidy (p.removeEqual a)
      ∧ (p.removeEqual a).stored.Perm (p.stored.filter fun m => m.attestation ≠ a) := by
  rcases p.removeEqual_cases a with ⟨hnone, heq⟩ | ⟨g, hg, ⟨hnil, heq⟩ | ⟨hne, heq⟩⟩
  · have hall : ∀ m ∈ p.stored, m.attestation ≠ a := by
      intro m hm hsame
      obtain ⟨g, hg, -⟩ := h.group_of_mem hm
      rw [Submission.dataRoot, Submission.data, hsame, hnone] at hg
      cases hg
    rw [heq]
    refine ⟨h, .of_eq (List.filter_eq_self.mpr fun m hm => ?_).symm⟩
    exact decide_eq_true (hall m hm)
  · -- all members were equal to it, so its data are those of the group
    have hkeyed := h.group _ g hg
    have hdata : a.data = g.data := by
      obtain ⟨m, hm⟩ := List.exists_mem_of_ne_nil _ hkeyed.inhabited
      have hgone := List.filter_eq_nil_iff.mp hnil m hm
      rw [decide_eq_true_iff, not_not] at hgone
      rw [← hkeyed.data m hm, Submission.data, hgone]
    have hfilter := h.filter_stored hg
    rw [hnil, List.nil_append] at hfilter
    have herased := h.erased hg
    rw [heq, size_remove h.size hg, hnil, List.length_nil, Nat.zero_add, hdata]
    rw [hdata] at hfilter herased
    exact ⟨herased, hfilter.symm⟩
  · rw [heq, size_remove h.size hg]
    exact ⟨h.reduced hg hne, (storedIn_insert _ _ _).trans (h.filter_stored hg).symm⟩

theorem foldl_removeEqual (h : Tidy p) (as : List Attestation) :
    Tidy (as.foldl Pool.removeEqual p)
      ∧ (as.foldl Pool.removeEqual p).stored.Perm
        (p.stored.filter fun m => m.attestation ∉ as) := by
  induction as generalizing p with
  | nil => exact ⟨h, by simp⟩
  | cons a as ih =>
      obtain ⟨hone, hperm⟩ := h.removeEqual a
      obtain ⟨hall, hrest⟩ := ih hone
      refine ⟨hall, hrest.trans ((hperm.filter _).trans (.of_eq ?_))⟩
      rw [List.filter_filter]
      refine List.filter_congr fun m _ => ?_
      simp [Bool.and_comm]

-- ============================================================ eviction

/-- The roots listed before a slot are those of the groups of earlier
slots. -/
theorem mem_rootsBefore_iff (h : Tidy p) :
    root ∈ rootsBefore p.slots first
      ↔ ∃ g : Group, p.groups[root]? = some g ∧ g.data.slot < first := by
  rw [mem_rootsBefore]
  constructor
  · intro ⟨slot, hlt, hroot⟩
    obtain ⟨g, hg, hslot⟩ := (h.index slot root).mp hroot
    exact ⟨g, hg, hslot ▸ hlt⟩
  · intro ⟨g, hg, hlt⟩
    exact ⟨g.data.slot, hlt, (h.index _ root).mpr ⟨g, hg, rfl⟩⟩

/-- Eviction leaves the groups of later slots. -/
theorem groups_evicted (h : Tidy p) (first : Slot) :
    (p.evicted first).groups = p.groups.filter fun _ g => first ≤ g.data.slot := by
  refine Std.ExtTreeMap.ext_getElem? fun root => ?_
  rw [Pool.evicted, Map.getElem?_foldl_erase, Std.ExtTreeMap.getElem?_filter']
  simp only [h.mem_rootsBefore_iff]
  cases hg : p.groups[root]? with
  | none => simp
  | some g =>
      rw [Option.filter_some]
      simp only [Option.some.injEq, exists_eq_left', ← UInt64.not_le, ite_not, decide_eq_true_iff]

/-- The members of the groups of later slots are those with data of
later slots. -/
theorem storedIn_filter (h : Tidy p) (first : Slot) :
    storedIn (p.groups.filter fun _ g => first ≤ g.data.slot)
      = p.stored.filter fun m => first ≤ m.data.slot := by
  unfold stored storedIn
  rw [Std.ExtTreeMap.toList_filter]
  refine flatMap_filter fun ⟨root, g⟩ hentry m hm => ?_
  have hg := Std.ExtTreeMap.mem_toList_iff_getElem?_eq_some.mp hentry
  rw [(h.group root g hg).data m hm]

/-- A pool stays tidy when groups are evicted, and then holds what has
data of later slots. -/
theorem evicted (h : Tidy p) (first : Slot) :
    Tidy (p.evicted first)
      ∧ (p.evicted first).stored = p.stored.filter fun m => first ≤ m.data.slot := by
  have hgroups := h.groups_evicted first
  have hold : ∀ (root : Root) (g : Group), (p.evicted first).groups[root]? = some g
      ↔ p.groups[root]? = some g ∧ first ≤ g.data.slot := by
    intro root g
    rw [hgroups, Std.ExtTreeMap.getElem?_filter', Option.filter_eq_some_iff, decide_eq_true_iff]
  refine ⟨⟨size_evicted h.size first, fun root g hg => h.group root g ((hold root g).mp hg).1,
    fun slot root => ?_, fun slot roots hroots => ?_⟩, ?_⟩
  · show root ∈ rootsIn (p.slots.filter fun slot _ => first ≤ slot) slot ↔ _
    rw [mem_rootsIn_filter]
    refine (and_congr_right fun _ => h.index slot root).trans ?_
    simp only [hold]
    constructor
    · intro ⟨hle, g, hg, hslot⟩
      exact ⟨g, ⟨hg, hslot ▸ hle⟩, hslot⟩
    · intro ⟨g, ⟨hg, hle⟩, hslot⟩
      exact ⟨hslot ▸ hle, g, hg, hslot⟩
  · rw [Pool.evicted, Std.ExtTreeMap.getElem?_filter', Option.filter_eq_some_iff] at hroots
    exact h.occupied slot roots hroots.1
  · rw [stored, hgroups]
    exact h.storedIn_filter first

-- ================================================================ runs

/-- The size goes down by the number of those that are selected, if the
others are left. -/
theorem size_add_countP {p' : Pool} (h : Tidy p) (h' : Tidy p') {gone kept : Submission → Bool}
    (hperm : p'.stored.Perm (p.stored.filter kept)) (hgone : ∀ m, gone m = !kept m) :
    p'.size + p.stored.countP gone = p.size := by
  have hnot : gone = fun m => decide ¬kept m = true := by
    funext m
    rw [hgone m]
    simp
  rw [h'.size, h.size, hperm.length_eq, ← List.countP_eq_length_filter, hnot]
  exact (List.length_eq_countP_add_countP kept).symm

/-- A tidy pool stays tidy, and nothing gets in but what is added. -/
theorem call (h : Tidy p) (preset : Preset) (c : Call)
    (hsame : ∀ s facts, c = .add s facts →
      ∀ g : Group, p.groups[s.dataRoot]? = some g → g.data = s.data) :
    Tidy (p.call preset c)
      ∧ ∀ m ∈ (p.call preset c).stored, m ∈ p.stored ∨ ∃ facts, c = .add m facts := by
  cases c with
  | add s facts =>
      simp only [Pool.call]
      cases hadd : p.add s facts with
      | error e => exact ⟨h, fun m hm => Or.inl hm⟩
      | ok result =>
          obtain ⟨htidy, hperm⟩ := h.add (hsame s facts rfl) hadd
          refine ⟨htidy, fun m hm => ?_⟩
          have hmem := hperm.mem_iff.mp hm
          split at hmem
          case isTrue =>
            rcases List.mem_cons.mp hmem with rfl | hold
            · exact Or.inr ⟨facts, rfl⟩
            · exact Or.inl hold
          case isFalse => exact Or.inl hmem
  | remove a =>
      obtain ⟨htidy, hperm⟩ := h.removeEqual a
      exact ⟨htidy.updateMetrics, fun m hm =>
        Or.inl (List.mem_of_mem_filter (hperm.mem_iff.mp hm))⟩
  | removeAll as =>
      obtain ⟨htidy, hperm⟩ := h.foldl_removeEqual as
      exact ⟨htidy.updateMetrics, fun m hm =>
        Or.inl (List.mem_of_mem_filter (hperm.mem_iff.mp hm))⟩
  | slot slot =>
      simp only [Pool.call]
      rw [onSlot_value]
      cases p.firstKeptSlot? preset slot with
      | none => exact ⟨h, fun m hm => Or.inl hm⟩
      | some first =>
          obtain ⟨htidy, hstored⟩ := h.evicted first
          refine ⟨htidy.updateMetrics, fun m hm => Or.inl ?_⟩
          change m ∈ (p.evicted first).stored at hm
          rw [hstored] at hm
          exact List.mem_of_mem_filter hm

end Tidy

/-- Whether every operation changes the size of a pool by the number of
submissions that it puts in or takes out, and what it subtracts, some
members of a group or all members of groups of old slots, is never
more than the size. -/
structure Exact (preset : Preset) (p : Pool) : Prop where
  add : ∀ s facts result, p.add s facts = .ok result →
    result.value.1.size = if result.value.2 then p.size + 1 else p.size
  remove : ∀ a, (p.remove a).size + p.stored.countP (fun m => m.attestation = a) = p.size
  removeAll : ∀ as, (p.removeAll as).size + p.stored.countP (fun m => m.attestation ∈ as)
    = p.size
  onSlot : ∀ slot, (p.onSlot preset slot).value.size
    + p.stored.countP (fun m => (p.firstKeptSlot? preset slot).any (m.data.slot < ·)) = p.size
  group_le : ∀ (root : Root) (g : Group), p.groups[root]? = some g → g.size ≤ p.size
  countIn_le : ∀ first, countIn p.groups (rootsBefore p.slots first) ≤ p.size

theorem Tidy.exact (h : Tidy p) (preset : Preset) : Exact preset p where
  add := by
    intro s facts result hadd
    rcases p.add_cases s facts with ⟨-, herror⟩ | ⟨seed, result', -, hok, hvalue⟩
    · rw [hadd] at herror
      cases herror
    · rw [hadd] at hok
      injection hok with hok
      rw [hok]
      rcases hvalue with ⟨hvalue, -⟩ | ⟨members, hvalue, -⟩
      · rw [hvalue]
        rfl
      · rw [hvalue]
        rfl
  remove := by
    intro a
    obtain ⟨htidy, hperm⟩ := h.removeEqual a
    exact h.size_add_countP htidy.updateMetrics hperm fun m => by simp
  removeAll := by
    intro as
    obtain ⟨htidy, hperm⟩ := h.foldl_removeEqual as
    exact h.size_add_countP htidy.updateMetrics hperm fun m => by simp
  onSlot := by
    intro slot
    rw [onSlot_value]
    cases p.firstKeptSlot? preset slot with
    | none => simp
    | some first =>
        obtain ⟨htidy, hstored⟩ := h.evicted first
        refine h.size_add_countP htidy.updateMetrics (.of_eq hstored) fun m => ?_
        simp [← UInt64.not_le]
  group_le := by
    intro root g hg
    rw [h.size, stored, (storedIn_split hg).length_eq, List.length_append]
    exact Nat.le_add_right _ _
  countIn_le := by
    intro first
    rw [h.size, stored, ← countIn_add_length _ _]
    exact Nat.le_add_right _ _

/-- In a run with distinct data a pool is always tidy, and holds only
what was handed in. -/
theorem tidy_run (preset : Preset) (retentionEpochs : UInt64) {calls : List Call}
    (h : Distinct calls) :
    Tidy (after preset { retentionEpochs } calls)
      ∧ ∀ m ∈ (after preset { retentionEpochs } calls).stored, m.data ∈ offered calls := by
  induction calls with
  | nil =>
      refine ⟨tidy_empty retentionEpochs, fun m hm => ?_⟩
      obtain ⟨root, g, hg, -⟩ := mem_storedIn.mp hm
      simp [after] at hg
  | cons c earlier ih =>
      obtain ⟨htidy, hoffered⟩ := ih h.tail
      have hadd : ∀ {s facts}, c = .add s facts → offered (c :: earlier)
          = s.data :: offered earlier := by
        rintro s facts rfl
        rfl
      obtain ⟨htidy', hstored⟩ := htidy.call preset c fun s facts hc g hg => by
        -- the group has a member, which was handed in before
        have hkeyed := htidy.group _ g hg
        obtain ⟨m, hm⟩ := List.exists_mem_of_ne_nil _ hkeyed.inhabited
        have hold := hoffered m (mem_storedIn.mpr ⟨_, g, hg, hm⟩)
        rw [hkeyed.data m hm] at hold
        refine h _ ?_ _ ?_ hkeyed.root
        · rw [hadd hc]
          exact List.mem_cons_of_mem _ hold
        · rw [hadd hc]
          exact List.mem_cons_self
      refine ⟨htidy', fun m hm => ?_⟩
      rcases hstored m hm with hold | ⟨facts, hc⟩
      · exact mem_offered_cons c (hoffered m hold)
      · rw [hadd hc]
        exact List.mem_cons_self

/-- After any run in which data are told apart by their roots, the size
and the index of a pool agree with its groups, and every operation
changes the size by what it puts in or takes out. -/
theorem tidy_after (preset : Preset) (retentionEpochs : UInt64) (calls : List Call)
    (h : Distinct calls) :
    let p := after preset { retentionEpochs } calls
    p.Tidy ∧ p.Exact preset := by
  intro p
  obtain ⟨htidy, -⟩ := tidy_run preset retentionEpochs h
  exact ⟨htidy, htidy.exact preset⟩

/-- The vote of some of two members of a committee at a slot. -/
def ballot (id : Nat) (votes : UInt8) (slot : Slot) : Submission :=
  { id, attestation := { bits := ⟨2, [votes]⟩, data := { slot } } }

/-- One vote and then both are handed in for a slot, the first of them
again, and one vote for a later slot; then the first is removed. -/
def errand : List Call :=
  [.remove (ballot 0 1 1).attestation,
    .add (ballot 3 1 40) { seed := some 0 },
    .add (ballot 2 1 1) { seed := some 0 },
    .add (ballot 1 3 1) { seed := some 0 },
    .add (ballot 0 1 1) { seed := some 0 }]

/-- The submission handed in again was refused, the first one is gone,
and the other one of its slot is too old for a later block. -/
theorem tidy_after_errand :
    let p := after .minimal { retentionEpochs := 2 } errand
    (Distinct errand
        ∧ p.size = 2
        ∧ p.groupCount = 2
        ∧ (p.onSlot .minimal 41).value.size = 1)
      ∧ p.Tidy ∧ p.Exact .minimal := by
  refine (and_iff_left_of_imp fun hseen => tidy_after .minimal 2 errand hseen.1).mpr ?_
  decide +kernel

end Pool

end ChainHead
