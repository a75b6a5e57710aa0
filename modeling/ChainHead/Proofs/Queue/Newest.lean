/-
What a full queue keeps.

Room is made before a submission is taken in, and what comes in stays
until something else does. So the submission that came last is always
held, however old it is; of the others those are held that are the
latest by slot and arrival (`held_additions`).

Where the last one is itself among the latest, the queue holds the
latest of all. Where at least as many as fit are later than the last
one, it is held in place of one of those. Along a run this does not add
up: what the last one displaced would have been displaced by whatever
comes next (`latest_append_latest`).
-/
import ChainHead.Proofs.Queue.Refinement
import Mathlib.Data.List.Induction

namespace ChainHead

variable {α : Type} {slot : α → Slot} {l : List α} {x : α} {n : Nat}

-- ========================================================== the latest

/-- The last so many of a list by slot and place, in that order. -/
def latest (slot : α → Slot) (n : Nat) (l : List α) : List α :=
  (bySlot slot l).drop (l.length - n)

theorem length_bySlot (slot : α → Slot) (l : List α) : (bySlot slot l).length = l.length :=
  (bySlot_perm slot l).length_eq

theorem length_latest (slot : α → Slot) (n : Nat) (l : List α) :
    (latest slot n l).length = l.length - (l.length - n) := by
  rw [latest, List.length_drop, length_bySlot]

theorem latest_congr {m : List α} (h : bySlot slot l = bySlot slot m) (n : Nat) :
    latest slot n l = latest slot n m := by
  have hlength : l.length = m.length := by rw [← length_bySlot slot l, h, length_bySlot]
  rw [latest, latest, h, hlength]

theorem latest_map {β : Type} (slot : β → Slot) (f : α → β) (n : Nat) (l : List α) :
    latest slot n (l.map f) = (latest (fun x => slot (f x)) n l).map f := by
  rw [latest, latest, bySlot_map, List.map_drop, List.length_map]

theorem bySlot_dropEarliest (slot : α → Slot) (l : List α) :
    bySlot slot (dropEarliest slot l) = (bySlot slot l).tail := by
  by_cases hl : l = []
  · simp [hl, bySlot, dropEarliest]
  · obtain ⟨before, x, after, -, hdrop, hsort⟩ := exists_earliest slot hl
    rw [hdrop, hsort, List.tail_cons]

/-- A list in order is what is not after some slot, then what is. -/
theorem filter_append_filter (hl : l.Pairwise fun x y => slot x ≤ slot y) (s : Slot) :
    (l.filter fun y => slot y ≤ s) ++ (l.filter fun y => s < slot y) = l := by
  induction l with
  | nil => rfl
  | cons y l ih =>
      have hrest := ih hl.of_cons
      by_cases hy : slot y ≤ s
      · rw [List.filter_cons_of_pos (by simpa using hy),
          List.filter_cons_of_neg (by simpa using UInt64.not_lt.mpr hy), List.cons_append, hrest]
      · -- then all of it is after the slot
        have hafter : ∀ z ∈ y :: l, s < slot z := by
          intro z hz
          have hlt := UInt64.not_le.mp hy
          rcases List.mem_cons.mp hz with rfl | hz
          · exact hlt
          · exact UInt64.lt_of_lt_of_le hlt ((List.pairwise_cons.mp hl).1 z hz)
        rw [List.filter_eq_nil_iff.mpr fun z hz => by simpa using hafter z hz,
          List.filter_eq_self.mpr fun z hz => by simpa using hafter z hz, List.nil_append]

/-- What is added comes behind all that are not after its slot. -/
theorem bySlot_between {before behind : List α}
    (hsorted : (before ++ behind).Pairwise fun x y => slot x ≤ slot y)
    (hle : ∀ y ∈ before, slot y ≤ slot x) (hlt : ∀ y ∈ behind, slot x < slot y) :
    bySlot slot (before ++ behind ++ [x]) = before ++ x :: behind := by
  obtain ⟨hbefore, hbehind, hacross⟩ := List.pairwise_append.mp hsorted
  refine (eq_bySlot ?_ fun s => ?_).symm
  · refine List.pairwise_append.mpr ⟨hbefore, List.pairwise_cons.mpr
      ⟨fun z hz => UInt64.le_of_lt (hlt z hz), hbehind⟩, fun y hy z hz => ?_⟩
    rcases List.mem_cons.mp hz with rfl | hz
    · exact hle y hy
    · exact hacross y hy z hz
  · rw [List.append_assoc, List.filter_append, List.filter_append, List.filter_append,
      List.filter_cons]
    split
    case isFalse hs => simp [hs]
    case isTrue hs =>
      -- nothing behind it has its slot
      have hnone : (behind.filter fun y => slot y = s) = [] := by
        refine List.filter_eq_nil_iff.mpr fun y hy hys => ?_
        have hafter := hlt y hy
        rw [of_decide_eq_true hys, of_decide_eq_true hs] at hafter
        exact UInt64.lt_irrefl _ hafter
      rw [hnone]
      simp [hs]

/-- A list sorted, in the parts before and behind something new. -/
theorem exists_parts (slot : α → Slot) (l : List α) (x : α) :
    ∃ before behind, bySlot slot l = before ++ behind
      ∧ (∀ y ∈ before, slot y ≤ slot x) ∧ (∀ y ∈ behind, slot x < slot y)
      ∧ behind.length = l.countP fun y => slot x < slot y := by
  refine ⟨_, _, (filter_append_filter (pairwise_bySlot slot l) (slot x)).symm,
    fun y hy => of_decide_eq_true (List.mem_filter.mp hy).2,
    fun y hy => of_decide_eq_true (List.mem_filter.mp hy).2, ?_⟩
  rw [← List.countP_eq_length_filter]
  exact (bySlot_perm slot l).countP_eq _

/-- How the latest with something new, and all with something new, come
out of the same parts. -/
theorem exists_parts_latest (slot : α → Slot) (n : Nat) (l : List α) (x : α) :
    ∃ before behind : List α, before.length + behind.length = l.length
      ∧ (∀ y ∈ behind, slot x < slot y) ∧ behind.length = l.countP (fun y => slot x < slot y)
      ∧ bySlot slot (l ++ [x]) = before ++ x :: behind
      ∧ bySlot slot (latest slot n l ++ [x])
          = before.drop (l.length - n) ++ x :: behind.drop (l.length - n - before.length) := by
  obtain ⟨before, behind, hparts, hle, hlt, hcount⟩ := exists_parts slot l x
  have hsorted := pairwise_bySlot slot l
  have hlatest : latest slot n l
      = before.drop (l.length - n) ++ behind.drop (l.length - n - before.length) := by
    rw [latest, hparts, List.drop_append]
  refine ⟨before, behind, ?_, hlt, hcount, ?_, ?_⟩
  · rw [← List.length_append, ← hparts, length_bySlot]
  · rw [← bySlot_append_bySlot, hparts]
    rw [hparts] at hsorted
    exact bySlot_between hsorted hle hlt
  · have hkept : (latest slot n l).Pairwise fun x y => slot x ≤ slot y :=
      hsorted.sublist (List.drop_sublist _ _)
    rw [hlatest] at hkept ⊢
    exact bySlot_between hkept (fun y hy => hle y (List.mem_of_mem_drop hy))
      fun y hy => hlt y (List.mem_of_mem_drop hy)

/-- Dropping some around a new element and then one more is dropping one
more from the start. -/
theorem tail_drop_around (before behind : List α) (x : α) (d : Nat) :
    (before.drop d ++ x :: behind.drop (d - before.length)).tail
      = (before ++ x :: behind).drop (d + 1) := by
  induction before generalizing d with
  | nil => simp
  | cons y before ih =>
      cases d with
      | zero => simp
      | succ d =>
          rw [List.length_cons, Nat.succ_sub_succ]
          exact ih d

/-- What is not among the latest never comes back among them. -/
theorem latest_append_latest (slot : α → Slot) (n : Nat) (l : List α) (x : α) :
    latest slot n (latest slot n l ++ [x]) = latest slot n (l ++ [x]) := by
  obtain ⟨before, behind, -, -, -, hall, hkept⟩ := exists_parts_latest slot n l x
  show (bySlot slot (latest slot n l ++ [x])).drop _ = (bySlot slot (l ++ [x])).drop _
  rw [hkept, hall, List.length_append, List.length_append, length_latest, List.length_singleton]
  by_cases hn : l.length < n
  · -- none is left out on either side
    have hzero : l.length - n = 0 := by omega
    rw [hzero, Nat.zero_sub, Nat.sub_zero, List.drop_zero, List.drop_zero]
  · have hone : l.length - (l.length - n) + 1 - n = 1 := by omega
    have hsucc : l.length + 1 - n = l.length - n + 1 := by omega
    rw [hone, hsucc, List.drop_one, tail_drop_around]

/-- What comes behind the latest is among one more of the latest exactly
if fewer than those are after it. -/
theorem latest_succ_perm_iff (slot : α → Slot) (n : Nat) (l : List α) (x : α) :
    (bySlot slot (latest slot n l ++ [x])).Perm (latest slot (n + 1) (l ++ [x]))
      ↔ l.countP (fun y => slot x < slot y) < n + 1 := by
  obtain ⟨before, behind, hlength, hlt, hcount, hall, hkept⟩ := exists_parts_latest slot n l x
  have hlatest : latest slot (n + 1) (l ++ [x])
      = before.drop (l.length - n) ++ (x :: behind).drop (l.length - n - before.length) := by
    have hsame : l.length + 1 - (n + 1) = l.length - n := by omega
    rw [latest, hall, List.length_append, List.length_singleton, hsame, List.drop_append]
  rw [hkept, hlatest, ← hcount]
  by_cases hd : l.length - n ≤ before.length
  · have hnone : l.length - n - before.length = 0 := by omega
    rw [hnone, List.drop_zero, List.drop_zero]
    exact ⟨fun _ => by omega, fun _ => List.Perm.refl _⟩
  · refine ⟨fun hperm => ?_, fun h => by omega⟩
    -- it is not among those behind it
    have hmore : l.length - n - before.length
        = l.length - n - before.length - 1 + 1 := by omega
    have hmem : x ∈ before.drop (l.length - n)
        ++ (x :: behind).drop (l.length - n - before.length) :=
      hperm.mem_iff.mp (List.mem_append_right _ List.mem_cons_self)
    rw [List.drop_eq_nil_of_le (by omega), List.nil_append, hmore, List.drop_succ_cons] at hmem
    exact absurd (hlt x (List.mem_of_mem_drop hmem)) (UInt64.lt_irrefl _)

-- ================================================= runs of additions

namespace BlockQueue

/-- The calls that hand in submissions one after the other, each of which
waits for its head; newest first. -/
def additions (ss : List Submission) : List Call :=
  (ss.map fun s => .add s.data.beaconBlockRoot s).reverse

/-- A submission that waits for its head. -/
def forHead (s : Submission) : Waiting := ⟨s.data.beaconBlockRoot, s⟩

/-- What a queue holds, by slot and arrival. -/
def held (q : BlockQueue) : List Submission :=
  q.entries.toList.map fun e => e.2.submission

end BlockQueue

namespace Waitlist

open BlockQueue (additions forHead)

theorem after_additions_append (start : Waitlist) (earlier : List Submission) (last : Submission) :
    start.after (additions (earlier ++ [last]))
      = (start.after (additions earlier)).add last.data.beaconBlockRoot last := by
  unfold additions
  rw [List.map_append, List.reverse_append]
  rfl

/-- Room for one is made by keeping one fewer than fit. -/
theorem bySlot_room {w : Waitlist} (hcapacity : 1 ≤ w.capacity)
    (hwithin : w.entries.length ≤ w.capacity) :
    bySlot Waiting.slot (if w.capacity ≤ w.entries.length
        then dropEarliest Waiting.slot w.entries else w.entries)
      = latest Waiting.slot (w.capacity - 1) w.entries := by
  unfold latest
  split
  case isTrue hfull =>
    have hone : w.entries.length - (w.capacity - 1) = 1 := by omega
    rw [hone, bySlot_dropEarliest, List.drop_one]
  case isFalse hroom =>
    have hzero : w.entries.length - (w.capacity - 1) = 0 := by omega
    rw [hzero, List.drop_zero]

/-- A submission that is told apart from all that is listed is taken in,
behind what is left when there is room for it. -/
theorem add_of_fresh {w : Waitlist} (hcapacity : 1 ≤ w.capacity) (root : Root) {s : Submission}
    (hfresh : ∀ e ∈ w.entries, e.submission.attestation ≠ s.attestation) :
    ∃ kept, w.add root s = { w with entries := kept ++ [⟨root, s⟩] }
      ∧ kept.Sublist w.entries ∧ (w.entries.length ≤ w.capacity →
          bySlot Waiting.slot kept = latest Waiting.slot (w.capacity - 1) w.entries) := by
  have hholds : w.holds s.attestation = false := by
    rw [holds, List.any_eq_false]
    intro e he hequal
    rw [Bool.and_eq_true, beq_iff_eq] at hequal
    exact hfresh e he hequal.1
  have hpositive : ¬w.capacity = 0 := by omega
  refine ⟨_, ?_, ?_, bySlot_room hcapacity⟩
  · simp [add, hholds, hpositive]
  · split
    case isTrue => exact List.eraseP_sublist
    case isFalse => exact List.Sublist.refl _

/-- What is listed after additions: some of what was added, no more than
fit, and with room for one more the same as if nothing had been dropped. -/
structure Keeps (w : Waitlist) (added : List Submission) : Prop where
  mem : ∀ e ∈ w.entries, e ∈ added.map forHead
  within : w.entries.length ≤ w.capacity
  newest : latest Waiting.slot (w.capacity - 1) w.entries
    = latest Waiting.slot (w.capacity - 1) (added.map forHead)

/-- What one addition leaves. -/
theorem Keeps.add {w : Waitlist} {earlier : List Submission} {last : Submission}
    (h : Keeps w earlier) (hcapacity : 1 ≤ w.capacity)
    (hfresh : ∀ s ∈ earlier, s.attestation ≠ last.attestation) :
    Keeps (w.add last.data.beaconBlockRoot last) (earlier ++ [last])
      ∧ bySlot Waiting.slot (w.add last.data.beaconBlockRoot last).entries
          = bySlot Waiting.slot (latest Waiting.slot (w.capacity - 1)
              (earlier.map forHead) ++ [forHead last]) := by
  have hother : ∀ e ∈ w.entries, e.submission.attestation ≠ last.attestation := by
    intro e he
    obtain ⟨s, hs, rfl⟩ := List.mem_map.mp (h.mem e he)
    exact hfresh s hs
  obtain ⟨kept, hadd, hsub, hkept⟩ := add_of_fresh hcapacity last.data.beaconBlockRoot hother
  have hkept := hkept h.within
  have hsort : bySlot Waiting.slot (kept ++ [forHead last])
      = bySlot Waiting.slot (latest Waiting.slot (w.capacity - 1)
          (earlier.map forHead) ++ [forHead last]) := by
    rw [← bySlot_append_bySlot, hkept, h.newest]
  rw [hadd]
  refine ⟨⟨fun e he => ?_, ?_, ?_⟩, hsort⟩
  · rw [List.map_append]
    rcases List.mem_append.mp he with he | he
    · exact List.mem_append_left _ (h.mem e (hsub.subset he))
    · exact List.mem_append_right _ he
  · have hlength := congrArg List.length hkept
    rw [length_bySlot, length_latest] at hlength
    show (kept ++ [_]).length ≤ w.capacity
    rw [List.length_append, List.length_singleton]
    omega
  · rw [List.map_append]
    exact (latest_congr hsort _).trans (latest_append_latest _ _ _ _)

theorem keeps_additions {start : Waitlist} (hcapacity : 1 ≤ start.capacity)
    (hempty : start.entries = []) (ss : List Submission)
    (hdistinct : (ss.map (·.attestation)).Nodup) : Keeps (start.after (additions ss)) ss := by
  induction ss using List.reverseRecOn with
  | nil =>
      refine ⟨fun e he => ?_, ?_, ?_⟩
      · have he : e ∈ start.entries := he
        rw [hempty] at he
        exact absurd he List.not_mem_nil
      · show start.entries.length ≤ start.capacity
        rw [hempty]
        exact Nat.zero_le _
      · show latest _ _ start.entries = _
        rw [hempty]
        rfl
  | append_singleton earlier last ih =>
      rw [List.map_append] at hdistinct
      obtain ⟨hearlier, -, hlast⟩ := List.nodup_append.mp hdistinct
      rw [← start.capacity_after (additions earlier)] at hcapacity
      rw [after_additions_append]
      exact ((ih hearlier).add hcapacity fun s hs =>
        hlast _ (List.mem_map_of_mem hs) _ List.mem_cons_self).1

end Waitlist

namespace BlockQueue

-- ============================================================= results

/-- Of submissions with different attestations a queue holds the last one
and, as far as there is room, the latest of the others. -/
theorem held_eq (capacity : Nat) (retention : UInt64) (earlier : List Submission)
    (last : Submission) (hcapacity : 1 ≤ capacity)
    (hdistinct : ((earlier ++ [last]).map (·.attestation)).Nodup) :
    (BlockQueue.after { capacity, retention } (additions (earlier ++ [last]))).held
      = bySlot (fun s => s.data.slot)
          (latest (fun s => s.data.slot) (capacity - 1) earlier ++ [last]) := by
  rw [List.map_append] at hdistinct
  obtain ⟨hearlier, -, hlast⟩ := List.nodup_append.mp hdistinct
  let list : Waitlist := { capacity, retention }
  have hstart := Sound.empty capacity retention
  have hqueue := (hstart.waitlist_after (additions (earlier ++ [last]))).1
  rw [waitlist_empty, Waitlist.after_additions_append] at hqueue
  have hlimit : (list.after (additions earlier)).capacity = capacity :=
    list.capacity_after (additions earlier)
  have hkeeps : Waitlist.Keeps (list.after (additions earlier)) earlier :=
    Waitlist.keeps_additions hcapacity rfl earlier hearlier
  have hadd := (hkeeps.add (hlimit.symm ▸ hcapacity) fun s hs =>
    hlast _ (List.mem_map_of_mem hs) _ List.mem_cons_self).2
  rw [hlimit, latest_map, ← List.map_singleton, ← List.map_append, bySlot_map] at hadd
  have hsort := (sound_after hstart (additions (earlier ++ [last]))).bySlot_waitlist
  rw [hqueue, hadd] at hsort
  have hheld := congrArg (List.map Waiting.submission) hsort
  rw [List.map_map, List.map_map] at hheld
  exact hheld.symm.trans (List.map_id _)

/-- What is held is the last one and the latest of the others. These are
the latest of all exactly if fewer than fit are from slots after that of
the last one. -/
theorem held_additions (capacity : Nat) (retention : UInt64) (earlier : List Submission)
    (last : Submission) (hcapacity : 1 ≤ capacity)
    (hdistinct : ((earlier ++ [last]).map (·.attestation)).Nodup) :
    let held := (BlockQueue.after { capacity, retention } (additions (earlier ++ [last]))).held
    let slot := fun s : Submission => s.data.slot
    held = bySlot slot (latest slot (capacity - 1) earlier ++ [last])
      ∧ (held.Perm (latest slot capacity (earlier ++ [last]))
          ↔ (earlier.countP fun s => slot last < slot s) < capacity) := by
  intro held slot
  have hheld : held = bySlot slot (latest slot (capacity - 1) earlier ++ [last]) :=
    held_eq capacity retention earlier last hcapacity hdistinct
  have hsucc : capacity = capacity - 1 + 1 := by omega
  refine ⟨hheld, ?_⟩
  rw [hheld, hsucc]
  exact latest_succ_perm_iff slot (capacity - 1) earlier last

/-- A submission from a slot, for a head of its own. -/
def letter (slot : Nat) : Submission where
  id := slot
  attestation := { data := { slot := .ofNat slot, beaconBlockRoot := .ofNat 256 slot } }

/-- A queue for three, and five letters in no order: only one is later
than the last, so the three latest are held. -/
theorem held_additions_mixed :
    let earlier := [9, 2, 7, 5].map letter
    let last := letter 8
    let held := (BlockQueue.after { capacity := 3, retention := 32 }
      (additions (earlier ++ [last]))).held
    let slot := fun s : Submission => s.data.slot
    (1 ≤ 3 ∧ ((earlier ++ [last]).map (·.attestation)).Nodup
        ∧ (earlier.countP fun s => slot last < slot s) = 1)
      ∧ held = bySlot slot (latest slot (3 - 1) earlier ++ [last])
      ∧ (held.Perm (latest slot 3 (earlier ++ [last]))
          ↔ (earlier.countP fun s => slot last < slot s) < 3) := by
  refine (and_iff_left_of_imp fun hseen =>
    held_additions 3 32 ([9, 2, 7, 5].map letter) (letter 8) hseen.1 hseen.2.1).mpr ?_
  decide +kernel

/-- A queue for one that is given a letter and then an older one holds
the older one, which is not the latest of the two. -/
theorem older_displaces_newer :
    let letters := [letter 5, letter 3]
    let held := (BlockQueue.after { capacity := 1, retention := 32 } (additions letters)).held
    let slot := fun s : Submission => s.data.slot
    (letters.map (·.attestation)).Nodup ∧ held = [letter 3]
      ∧ ¬held.Perm (latest slot 1 letters) := by
  intro letters held slot
  have hdistinct : (letters.map (·.attestation)).Nodup := by decide +kernel
  have hheld : held = bySlot slot (latest slot 0 [letter 5] ++ [letter 3]) :=
    held_eq 1 32 [letter 5] (letter 3) (Nat.le_refl 1) hdistinct
  have hnone : latest slot 0 [letter 5] = [] := by
    apply List.eq_nil_of_length_eq_zero
    rw [length_latest]
    rfl
  refine ⟨hdistinct, ?_, fun hperm => ?_⟩
  · rw [hheld, hnone]
    exact List.perm_singleton.mp (bySlot_perm _ _)
  · rw [hheld] at hperm
    exact absurd ((latest_succ_perm_iff slot 0 [letter 5] (letter 3)).mp hperm)
      (by decide +kernel)

end BlockQueue

end ChainHead
