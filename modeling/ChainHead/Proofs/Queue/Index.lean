/-
The index of a queue, kept in step with its entries.

`entries` and `tickets` hold the same facts twice: an entry has a ticket
listed under the root it waits for, and a ticket is listed nowhere
without its entry. `Sound` says so, and with it where tickets come from
and that the queue is never over its capacity.

There is one way in, `enlist`. All ways out have one form: of the entries
those go that do not pass a test, and their tickets with them. That form
is `Restriction`; whoever takes something out only has to show that it
has it, and what stays is `Sound` again. What is left of the three ways
out is the test of each: not the first one, not waiting for this block,
not too old.
-/
import ChainHead.Proofs.Map
import ChainHead.Proofs.Queue.Run
import ChainHead.Proofs.Word

namespace ChainHead.BlockQueue

variable {q q' : BlockQueue} {root : Root} {s : Submission} {t : Ticket} {w : Waiting}
variable {keep : Ticket → Waiting → Bool}

-- ============================================================== sound

/-- What holds of a queue at any time. -/
structure Sound (q : BlockQueue) : Prop where
  /-- A ticket is listed under a root if its entry waits for it. -/
  listed : ∀ (root : Root) (t : Ticket), t ∈ Map.setAt q.tickets root
    ↔ ∃ w : Waiting, q.entries[t]? = some w ∧ w.blockRoot = root
  /-- No root is listed without tickets. -/
  occupied : ∀ (root : Root) (held : Std.ExtTreeSet Ticket Ticket.order),
    q.tickets[root]? = some held → held ≠ ∅
  /-- Tickets are numbered in the order of arrival. -/
  numbered : ∀ (t : Ticket) (w : Waiting), q.entries[t]? = some w → t.arrival < q.nextArrival
  /-- No number is given twice. -/
  apart : ∀ (t t' : Ticket) (w w' : Waiting), q.entries[t]? = some w →
    q.entries[t']? = some w' → t.arrival = t'.arrival → t = t'
  /-- A ticket has the slot of its entry. -/
  slotted : ∀ (t : Ticket) (w : Waiting), q.entries[t]? = some w → t.slot = w.slot
  within : q.size ≤ q.capacity

theorem Sound.empty (capacity : Nat) (retention : UInt64) :
    Sound { capacity, retention } where
  listed root t := by
    rw [Map.mem_setAt]
    simp
  occupied root held h := by simp at h
  numbered t w h := by simp at h
  apart t t' w w' h := by simp at h
  slotted t w h := by simp at h
  within := Nat.zero_le capacity

theorem mem_ticketsOf : t ∈ q.ticketsOf root ↔ t ∈ Map.setAt q.tickets root := by
  rw [Map.mem_setAt, ticketsOf]
  cases q.tickets[root]? with
  | none => simp
  | some held => simp [Std.ExtTreeSet.mem_toList]

theorem Sound.mem_ticketsOf (h : Sound q) :
    t ∈ q.ticketsOf root ↔ ∃ w, q.entries[t]? = some w ∧ w.blockRoot = root :=
  BlockQueue.mem_ticketsOf.trans (h.listed root t)

/-- What the search finds: an entry of an equal attestation that waits
for its head or for its target. -/
theorem Sound.contains_iff (h : Sound q) (a : Attestation) :
    q.contains a = true ↔ ∃ (t : Ticket) (w : Waiting), q.entries[t]? = some w
      ∧ w.submission.attestation = a
      ∧ (w.blockRoot = a.data.beaconBlockRoot ∨ w.blockRoot = a.data.target.root) := by
  have hroots : ∀ root, root ∈ [a.data.beaconBlockRoot, a.data.target.root]
      ↔ root = a.data.beaconBlockRoot ∨ root = a.data.target.root := by simp
  simp only [contains, List.any_eq_true, hroots]
  constructor
  · intro ⟨root, hroot, t, ht, hequal⟩
    obtain ⟨w, hw, rfl⟩ := h.mem_ticketsOf.mp ht
    rw [hw] at hequal
    exact ⟨t, w, hw, eq_of_beq hequal, hroot⟩
  · intro ⟨t, w, hw, hequal, hroot⟩
    refine ⟨w.blockRoot, hroot, t, h.mem_ticketsOf.mpr ⟨w, hw, rfl⟩, ?_⟩
    rw [hw]
    exact beq_iff_eq.mpr hequal

-- ============================================================= way in

/-- The queue with one more entry, whether there is room or not. -/
def enlist (q : BlockQueue) (blockRoot : Root) (s : Submission) : BlockQueue :=
  let ticket : Ticket := ⟨s.data.slot, q.nextArrival⟩
  { q with
    nextArrival := q.nextArrival + 1
    entries := q.entries.insert ticket ⟨blockRoot, s⟩
    tickets := q.tickets.insert blockRoot ((q.tickets.getD blockRoot ∅).insert ticket) }

/-- The queue that an addition is made to. -/
def makeRoom (q : BlockQueue) : BlockQueue :=
  if q.capacity ≤ q.size then q.dropOldest.value else q

theorem add_value (q : BlockQueue) (root : Root) (s : Submission) :
    (q.add root s).value
      = if q.capacity = 0 || q.contains s.attestation then q
        else q.makeRoom.enlist root s := by
  unfold add makeRoom
  split
  case isTrue => rfl
  case isFalse =>
    split
    case isTrue => rfl
    case isFalse => rfl

/-- What an addition that is not turned away has found. -/
theorem of_accepted (h : ¬(decide (q.capacity = 0) || q.contains s.attestation) = true) :
    q.capacity ≠ 0 ∧ q.contains s.attestation = false := by
  simpa using h

/-- The ticket of a new entry is not in use. -/
theorem Sound.unused (h : Sound q) (slot : Slot) :
    q.entries[(⟨slot, q.nextArrival⟩ : Ticket)]? = none := by
  cases hw : q.entries[(⟨slot, q.nextArrival⟩ : Ticket)]? with
  | none => rfl
  | some w => exact absurd (h.numbered _ _ hw) (Nat.lt_irrefl _)

theorem entries_enlist (q : BlockQueue) (root : Root) (s : Submission) (t : Ticket) (w : Waiting) :
    (q.enlist root s).entries[t]? = some w
      ↔ if t = ⟨s.data.slot, q.nextArrival⟩ then w = ⟨root, s⟩ else q.entries[t]? = some w := by
  show (q.entries.insert _ _)[t]? = some w ↔ _
  rw [Std.ExtTreeMap.getElem?_insert]
  simp only [Std.LawfulEqCmp.compare_eq_iff_eq, eq_comm (a := t)]
  split
  case isTrue => simp [eq_comm]
  case isFalse => rfl

theorem Sound.enlist (h : Sound q) (hroom : q.size < q.capacity) (root : Root) (s : Submission) :
    Sound (q.enlist root s) where
  listed root' t := by
    show t ∈ Map.setAt (q.tickets.insert root _) root' ↔ _
    rw [Map.mem_setAt_insert, Std.ExtTreeSet.mem_insert]
    show (if root = root' then _ ∨ t ∈ Map.setAt q.tickets root else _) ↔ _
    rw [h.listed, h.listed]
    simp only [entries_enlist, Std.LawfulEqCmp.compare_eq_iff_eq, eq_comm (a := t)]
    by_cases ht : (⟨s.data.slot, q.nextArrival⟩ : Ticket) = t
    · -- the new ticket is listed under the root of the new entry only
      subst ht
      simp [h.unused s.data.slot]
    · by_cases hroot : root = root'
      · subst hroot
        simp [ht]
      · simp [ht, hroot]
  occupied := by
    refine Map.forall_insert h.occupied fun hempty => ?_
    have hmem := Std.ExtTreeSet.mem_insert_self
      (t := q.tickets.getD root ∅) (k := (⟨s.data.slot, q.nextArrival⟩ : Ticket))
    rw [hempty] at hmem
    exact Std.ExtTreeSet.not_mem_empty hmem
  numbered t w hw := by
    show t.arrival < q.nextArrival + 1
    rw [entries_enlist] at hw
    split at hw
    case isTrue ht =>
      rw [ht]
      exact Nat.lt_succ_self _
    case isFalse => exact Nat.lt_succ_of_lt (h.numbered t w hw)
  apart t t' w w' hw hw' harrival := by
    rw [entries_enlist] at hw hw'
    split at hw
    case isTrue ht =>
      split at hw'
      case isTrue ht' => rw [ht, ht']
      case isFalse =>
        rw [ht] at harrival
        exact absurd (h.numbered t' w' hw') (Nat.not_lt.mpr (Nat.le_of_eq harrival))
    case isFalse =>
      split at hw'
      case isTrue ht' =>
        rw [ht'] at harrival
        exact absurd (h.numbered t w hw) (Nat.not_lt.mpr (Nat.le_of_eq harrival.symm))
      case isFalse => exact h.apart t t' w w' hw hw' harrival
  slotted t w hw := by
    rw [entries_enlist] at hw
    split at hw
    case isTrue ht =>
      rw [ht, hw]
      rfl
    case isFalse => exact h.slotted t w hw
  within := by
    show (q.entries.insert _ _).size ≤ q.capacity
    have hsize := Std.ExtTreeMap.size_insert_le (t := q.entries)
      (k := (⟨s.data.slot, q.nextArrival⟩ : Ticket)) (v := (⟨root, s⟩ : Waiting))
    have hroom : q.entries.size < q.capacity := hroom
    omega

-- =========================================================== ways out

/-- One queue has what passes a test in another, with its tickets. -/
structure Restriction (keep : Ticket → Waiting → Bool) (q q' : BlockQueue) : Prop where
  same : q' = { q with entries := q'.entries, tickets := q'.tickets }
  kept : ∀ (t : Ticket) (w : Waiting), q'.entries[t]? = some w
    ↔ q.entries[t]? = some w ∧ keep t w = true
  listed : ∀ (root : Root) (t : Ticket), t ∈ Map.setAt q'.tickets root
    ↔ t ∈ Map.setAt q.tickets root ∧ ∀ w, q.entries[t]? = some w → keep t w = true
  occupied : ∀ (root : Root) (held : Std.ExtTreeSet Ticket Ticket.order),
    q'.tickets[root]? = some held → held ≠ ∅

namespace Restriction

theorem capacity_eq (r : Restriction keep q q') : q'.capacity = q.capacity := by rw [r.same]

theorem retention_eq (r : Restriction keep q q') : q'.retention = q.retention := by rw [r.same]

theorem nextArrival_eq (r : Restriction keep q q') : q'.nextArrival = q.nextArrival := by
  rw [r.same]

theorem entries_eq (r : Restriction keep q q') : q'.entries = q.entries.filter keep := by
  refine Std.ExtTreeMap.ext_getElem? fun t => Option.ext fun w => ?_
  rw [r.kept, Map.getElem?_filter_eq_some]

theorem toList_eq (r : Restriction keep q q') :
    q'.entries.toList = q.entries.toList.filter fun e => keep e.1 e.2 := by
  rw [r.entries_eq, Std.ExtTreeMap.toList_filter]

theorem sound (r : Restriction keep q q') (h : Sound q) : Sound q' where
  listed root t := by
    rw [r.listed, h.listed]
    simp only [r.kept]
    constructor
    · intro ⟨⟨w, hw, hroot⟩, hkeep⟩
      exact ⟨w, ⟨hw, hkeep w hw⟩, hroot⟩
    · intro ⟨w, ⟨hw, hkeep⟩, hroot⟩
      refine ⟨⟨w, hw, hroot⟩, fun w' hw' => ?_⟩
      rw [hw] at hw'
      injection hw' with hw'
      rw [← hw']
      exact hkeep
  occupied := r.occupied
  numbered t w hw := by
    rw [r.nextArrival_eq]
    exact h.numbered t w ((r.kept t w).mp hw).1
  apart t t' w w' hw hw' := h.apart t t' w w' ((r.kept t w).mp hw).1 ((r.kept t' w').mp hw').1
  slotted t w hw := h.slotted t w ((r.kept t w).mp hw).1
  within := by
    rw [r.capacity_eq, size, r.entries_eq]
    exact Nat.le_trans Std.ExtTreeMap.size_filter_le_size h.within

end Restriction

theorem dropTicket_eq (tickets : Std.ExtTreeMap Root (Std.ExtTreeSet Ticket Ticket.order))
    (root : Root) (t : Ticket) : dropTicket tickets root t = Map.dropAt tickets root t := by
  unfold dropTicket Map.dropAt
  cases tickets[root]? with
  | none => rfl
  | some held => rfl

/-- Nothing goes if everything passes. -/
theorem Sound.restriction_self (h : Sound q)
    (hall : ∀ t w, q.entries[t]? = some w → keep t w = true) : Restriction keep q q where
  same := rfl
  kept t w := ⟨fun hw => ⟨hw, hall t w hw⟩, And.left⟩
  listed _ t := ⟨fun ht => ⟨ht, hall t⟩, And.left⟩
  occupied := h.occupied

/-- Some entries go, and their tickets one after the other. -/
theorem Sound.dropping (h : Sound q) {entries : Std.ExtTreeMap Ticket Waiting Ticket.order}
    {gone : List (Ticket × Waiting)}
    (hkept : ∀ t w, entries[t]? = some w ↔ q.entries[t]? = some w ∧ keep t w = true)
    (hgone : ∀ t w, (t, w) ∈ gone ↔ q.entries[t]? = some w ∧ ¬keep t w = true) :
    Restriction keep q { q with
      entries
      tickets := gone.foldl (fun tickets e => dropTicket tickets e.2.blockRoot e.1)
        q.tickets } := by
  simp only [dropTicket_eq]
  refine ⟨rfl, hkept, fun root t => ?_,
    Map.occupied_foldl_dropAt (fun e : Ticket × Waiting => e.2.blockRoot) Prod.fst _ h.occupied⟩
  show t ∈ Map.setAt (List.foldl _ q.tickets _) root ↔ _
  rw [Map.mem_setAt_foldl_dropAt (fun e : Ticket × Waiting => e.2.blockRoot) Prod.fst]
  refine and_congr_right fun ht => ?_
  obtain ⟨w, hw, hroot⟩ := (h.listed root t).mp ht
  constructor
  · intro hothers w' hw'
    by_contra hkeep
    have hsame : w' = w := Option.some.inj (hw'.symm.trans hw)
    exact hothers (t, w') ((hgone t w').mpr ⟨hw', hkeep⟩) ⟨hsame ▸ hroot, rfl⟩
  · intro hall e he heq
    obtain ⟨hentry, hkeep⟩ := (hgone e.1 e.2).mp he
    rw [heq.2] at hentry hkeep
    exact hkeep (hall e.2 hentry)

/-- Making room takes the first entry. -/
theorem Sound.dropOldest (h : Sound q) (hfirst : q.entries.minEntry? = some (t, w)) :
    Restriction (fun t' _ => t ≠ t') q q.dropOldest.value := by
  have hw := Map.getElem?_of_minEntry? hfirst
  unfold BlockQueue.dropOldest
  rw [hfirst]
  show Restriction _ q { q with
    entries := q.entries.erase t
    tickets := [(t, w)].foldl (fun tickets e => dropTicket tickets e.2.blockRoot e.1) q.tickets }
  refine h.dropping (fun t' w' => ?_) fun t' w' => ?_
  · rw [Map.getElem?_erase_eq_some, decide_eq_true_iff]
  · rw [decide_eq_true_iff, not_not, List.mem_singleton, Prod.mk.injEq]
    constructor
    · intro ⟨ht, hw'⟩
      rw [ht, hw']
      exact ⟨hw, rfl⟩
    · intro ⟨hw', ht⟩
      rw [← ht, hw] at hw'
      exact ⟨ht.symm, (Option.some.inj hw').symm⟩

theorem entries_dropOldest (hfirst : q.entries.minEntry? = some (t, w)) :
    q.dropOldest.value.entries = q.entries.erase t := by
  unfold BlockQueue.dropOldest
  rw [hfirst]
  rfl

/-- An arrival takes the entries that wait for the block. -/
theorem Sound.take (h : Sound q) (root : Root) :
    Restriction (fun _ w => w.blockRoot ≠ root) q (q.take root).1 := by
  have hheld : ∀ t w, q.entries[t]? = some w → (t ∉ q.ticketsOf root ↔ w.blockRoot ≠ root) := by
    intro t w hw
    rw [h.mem_ticketsOf, hw]
    simp
  show Restriction _ q { q with
    entries := (q.ticketsOf root).foldl (fun entries ticket => entries.erase ticket) q.entries
    tickets := q.tickets.erase root }
  refine ⟨rfl, fun t w => ?_, fun root' t => ?_, Map.forall_erase h.occupied⟩
  · show ((q.ticketsOf root).foldl _ q.entries)[t]? = some w ↔ _
    rw [Map.getElem?_foldl_erase, decide_eq_true_iff]
    by_cases ht : t ∈ q.ticketsOf root
    · rw [if_pos ht]
      have hnone : ¬(q.entries[t]? = some w ∧ w.blockRoot ≠ root) :=
        fun ⟨hw, hne⟩ => (hheld t w hw).mpr hne ht
      simp only [reduceCtorEq, hnone]
    · rw [if_neg ht]
      exact ⟨fun hw => ⟨hw, (hheld t w hw).mp ht⟩, And.left⟩
  · show t ∈ Map.setAt (q.tickets.erase root) root' ↔ _
    rw [Map.mem_setAt_erase, and_comm]
    refine and_congr_right fun ht => ?_
    obtain ⟨w, hw, rfl⟩ := (h.listed root' t).mp ht
    constructor
    · intro hne w' hw'
      rw [hw] at hw'
      injection hw' with hw'
      rw [← hw', decide_eq_true_iff]
      exact hne.symm
    · intro hall
      exact (of_decide_eq_true (hall w hw)).symm

/-- What is taken out had a place in the queue. -/
theorem exists_entry_of_mem_take {root : Root} {s : Submission} (h : s ∈ (q.take root).2) :
    ∃ (t : Ticket) (w : Waiting), q.entries[t]? = some w ∧ w.submission = s := by
  obtain ⟨t, -, ht⟩ := List.mem_filterMap.mp h
  obtain ⟨w, hw, hs⟩ := Option.map_eq_some_iff.mp ht
  exact ⟨t, w, hw, hs⟩

/-- Time takes the entries that have waited too long. -/
theorem Sound.prune (h : Sound q) (slot : Slot) :
    Restriction (fun _ w => slot.toNat ≤ w.slot.toNat + q.retention.toNat) q
      (q.prune slot).value := by
  unfold BlockQueue.prune
  cases hsub : Word.sub? slot q.retention with
  | none =>
      have hslot := Word.sub?_eq_none_iff.mp hsub
      refine h.restriction_self fun t w _ => decide_eq_true ?_
      omega
  | some first =>
      have hfirst := Word.sub?_eq_some_iff.mp hsub
      -- the test in terms of tickets and of the first slot that is kept
      have hkeep : ∀ (t : Ticket) (w : Waiting), q.entries[t]? = some w →
          (slot.toNat ≤ w.slot.toNat + q.retention.toNat ↔ first ≤ t.slot) := by
        intro t w hw
        rw [h.slotted t w hw, UInt64.le_iff_toNat_le]
        omega
      have hexpired : ∀ t w,
          (t, w) ∈ (q.entries.filter fun ticket _ => ticket.slot < first).toList
            ↔ q.entries[t]? = some w
              ∧ ¬decide (slot.toNat ≤ w.slot.toNat + q.retention.toNat) = true := by
        intro t w
        rw [Std.ExtTreeMap.mem_toList_iff_getElem?_eq_some, Map.getElem?_filter_eq_some,
          decide_eq_true_iff, decide_eq_true_iff]
        refine and_congr_right fun hw => ?_
        rw [hkeep t w hw, UInt64.not_le]
      dsimp only
      split
      case isTrue hnone =>
        refine h.restriction_self fun t w hw => ?_
        by_contra hgone
        have hmem := (hexpired t w).mpr ⟨hw, hgone⟩
        rw [List.isEmpty_iff.mp hnone] at hmem
        exact List.not_mem_nil hmem
      case isFalse =>
        refine h.dropping (fun t w => ?_) hexpired
        rw [Map.getElem?_filter_eq_some, decide_eq_true_iff, decide_eq_true_iff]
        exact and_congr_right fun hw => (hkeep t w hw).symm

-- =============================================================== calls

/-- Either there was room, or the first entry made it. -/
theorem Sound.makeRoom_cases (h : Sound q) (hcapacity : q.capacity ≠ 0) :
    (q.size < q.capacity ∧ q.makeRoom = q)
      ∨ ∃ t w, q.capacity ≤ q.size ∧ q.entries.minEntry? = some (t, w)
          ∧ q.makeRoom.entries = q.entries.erase t
          ∧ Restriction (fun t' _ => t ≠ t') q q.makeRoom := by
  unfold makeRoom
  split
  case isFalse hroom => exact .inl ⟨Nat.lt_of_not_le hroom, rfl⟩
  case isTrue hfull =>
    right
    cases hfirst : q.entries.minEntry? with
    | some first => exact ⟨first.1, first.2, hfull, rfl, entries_dropOldest hfirst,
        h.dropOldest hfirst⟩
    | none =>
        rw [Map.minEntry?_eq_head?, List.head?_eq_none_iff] at hfirst
        have hsize : q.size = 0 := by
          rw [size, ← Std.ExtTreeMap.length_toList, hfirst]
          rfl
        omega

theorem Sound.nextArrival_makeRoom (h : Sound q) (hcapacity : q.capacity ≠ 0) :
    q.makeRoom.nextArrival = q.nextArrival := by
  rcases h.makeRoom_cases hcapacity with ⟨-, hsame⟩ | ⟨t, w, -, -, -, hr⟩
  · rw [hsame]
  · exact hr.nextArrival_eq

theorem Sound.makeRoom (h : Sound q) (hcapacity : q.capacity ≠ 0) :
    Sound q.makeRoom ∧ q.makeRoom.size < q.makeRoom.capacity := by
  rcases h.makeRoom_cases hcapacity with ⟨hroom, hsame⟩ | ⟨t, w, -, hfirst, hentries, hr⟩
  · rw [hsame]
    exact ⟨h, hroom⟩
  · refine ⟨hr.sound h, ?_⟩
    have hsize := Map.size_erase_add_one (Map.getElem?_of_minEntry? hfirst)
    have hwithin : q.entries.size ≤ q.capacity := h.within
    rw [hr.capacity_eq, size, hentries]
    omega

theorem Sound.add (h : Sound q) (root : Root) (s : Submission) : Sound (q.add root s).value := by
  rw [add_value]
  split
  case isTrue => exact h
  case isFalse haccepted =>
    obtain ⟨hroom, hlt⟩ := h.makeRoom (of_accepted haccepted).1
    exact hroom.enlist hlt root s

/-- What there is after an addition was there before, or was taken in. -/
theorem Sound.entries_add (h : Sound q) {root : Root} {s : Submission}
    (hw : (q.add root s).value.entries[t]? = some w) :
    q.entries[t]? = some w ∨ (q.contains s.attestation = false
      ∧ t = ⟨s.data.slot, q.nextArrival⟩ ∧ w = ⟨root, s⟩) := by
  rw [add_value] at hw
  split at hw
  case isTrue => exact .inl hw
  case isFalse haccepted =>
    obtain ⟨hcapacity, hnone⟩ := of_accepted haccepted
    rw [entries_enlist, h.nextArrival_makeRoom hcapacity] at hw
    split at hw
    case isTrue ht => exact .inr ⟨hnone, ht, hw⟩
    case isFalse =>
      rcases h.makeRoom_cases hcapacity with ⟨-, hsame⟩ | ⟨t', w', -, -, -, hr⟩
      · rw [hsame] at hw
        exact .inl hw
      · exact .inl ((hr.kept t w).mp hw).1

theorem Sound.call (h : Sound q) (c : Call) : Sound (q.call c).1 := by
  cases c with
  | add root s => exact h.add root s
  | take root => exact (h.take root).sound h
  | prune slot => exact (h.prune slot).sound h
  | contains a => exact h
  | size => exact h

theorem sound_after {start : BlockQueue} (h : Sound start) (calls : List Call) :
    Sound (start.after calls) := by
  induction calls with
  | nil => exact h
  | cons c earlier ih => exact ih.call c

end ChainHead.BlockQueue
