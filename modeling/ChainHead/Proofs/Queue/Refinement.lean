/-
A queue stands for a plain list.

A ticket says when its entry arrived. Going through the entries in that
order gives the list that a queue stands for (`waitlist`), and every
call does to the queue what it does to the list (`waitlist_call`). The
queue itself goes through its entries in another order, by slot and then
by arrival; this is the stable sort of the list (`toList_eq_bySlot`).
All that the two have to do with each other is in these two orders.

The other half is about what came in and went out. Each call is
balanced: what was there before and what it brings is what is there
afterwards and what it takes (`passage_call`). So over a run everything
that came in is either still there or went out, and not both, since its
ticket is its own.
-/
import ChainHead.Proofs.Queue.Index

namespace ChainHead.BlockQueue

variable {q q' : BlockQueue} {root : Root} {s : Submission} {t : Ticket} {w : Waiting}
variable {keep : Ticket → Waiting → Bool} {l : List (Ticket × Waiting)}

-- ============================================================= orders

/-- The entries in the order of arrival. -/
def arrivals (q : BlockQueue) : List (Ticket × Waiting) :=
  q.entries.toList.mergeSort fun e e' => e.1.arrival ≤ e'.1.arrival

/-- The list that a queue stands for. -/
def waitlist (q : BlockQueue) : Waitlist where
  capacity := q.capacity
  retention := q.retention
  entries := q.arrivals.map (·.2)

theorem arrivals_perm (q : BlockQueue) : q.arrivals.Perm q.entries.toList :=
  List.mergeSort_perm _ _

theorem mem_arrivals {e : Ticket × Waiting} : e ∈ q.arrivals ↔ q.entries[e.1]? = some e.2 := by
  rw [q.arrivals_perm.mem_iff, Std.ExtTreeMap.mem_toList_iff_getElem?_eq_some]

theorem pairwise_arrivals (q : BlockQueue) :
    q.arrivals.Pairwise fun e e' => e.1.arrival ≤ e'.1.arrival := by
  have hsorted := @List.pairwise_mergeSort _
    (fun e e' : Ticket × Waiting => decide (e.1.arrival ≤ e'.1.arrival))
    (fun _ _ _ h h' => decide_eq_true (Nat.le_trans (of_decide_eq_true h) (of_decide_eq_true h')))
    (fun e e' => by
      rw [Bool.or_eq_true, decide_eq_true_iff, decide_eq_true_iff]
      exact Nat.le_total _ _) q.entries.toList
  exact hsorted.imp of_decide_eq_true

/-- Entries that arrived at once are the same. -/
theorem Sound.eq_of_arrival (h : Sound q) {e e' : Ticket × Waiting}
    (he : q.entries[e.1]? = some e.2) (he' : q.entries[e'.1]? = some e'.2)
    (harrival : e.1.arrival = e'.1.arrival) : e = e' := by
  have hticket := h.apart e.1 e'.1 e.2 e'.2 he he' harrival
  rw [hticket, he'] at he
  exact Prod.ext hticket (Option.some.inj he).symm

/-- There is one list of the entries in the order of arrival. -/
theorem Sound.arrivals_eq (h : Sound q) (hperm : l.Perm q.entries.toList)
    (horder : l.Pairwise fun e e' => e.1.arrival ≤ e'.1.arrival) : q.arrivals = l := by
  refine List.Perm.eq_of_pairwise (fun e e' he he' hle hle' => ?_) q.pairwise_arrivals horder
    (q.arrivals_perm.trans hperm.symm)
  rw [hperm.mem_iff, Std.ExtTreeMap.mem_toList_iff_getElem?_eq_some] at he'
  exact h.eq_of_arrival (mem_arrivals.mp he) he' (Nat.le_antisymm hle hle')

theorem order_eq_lt {t t' : Ticket} : Ticket.order t t' = .lt
    ↔ t.slot < t'.slot ∨ (t.slot = t'.slot ∧ t.arrival < t'.arrival) := by
  show (compare t.slot t'.slot).then (compare t.arrival t'.arrival) = .lt ↔ _
  rw [Ordering.then_eq_lt, Std.compare_eq_lt, Std.compare_eq_lt,
    Std.LawfulEqOrd.compare_eq_iff_eq]

/-- The order of the queue is the stable sort by slot of the order of
arrival. -/
theorem Sound.toList_eq_bySlot (h : Sound q) :
    q.entries.toList = bySlot (fun e => e.2.slot) q.arrivals := by
  have hslot : ∀ e ∈ q.entries.toList, e.1.slot = e.2.slot := fun e he =>
    h.slotted e.1 e.2 (Std.ExtTreeMap.mem_toList_iff_getElem?_eq_some.mp he)
  have hordered := q.entries.ordered_keys_toList
  refine eq_bySlot (hordered.imp_of_mem fun he he' hlt => ?_) fun s => ?_
  · rw [← hslot _ he, ← hslot _ he']
    rcases order_eq_lt.mp hlt with hlt | ⟨heq, -⟩
    · exact UInt64.le_of_lt hlt
    · rw [heq]
      exact UInt64.le_refl _
  -- at one slot both are in the order of arrival
  · refine @List.Perm.eq_of_pairwise _ (fun e e' => e.1.arrival ≤ e'.1.arrival) _ _
      (fun e e' he he' hle hle' => ?_) ?_ (q.pairwise_arrivals.filter _)
      (q.arrivals_perm.symm.filter _)
    · have he := Std.ExtTreeMap.mem_toList_iff_getElem?_eq_some.mp (List.mem_filter.mp he).1
      have he' := mem_arrivals.mp (List.mem_filter.mp he').1
      exact h.eq_of_arrival he he' (Nat.le_antisymm hle hle')
    · refine (hordered.filter _).imp_of_mem fun he he' hlt => ?_
      rw [List.mem_filter] at he he'
      rw [order_eq_lt, hslot _ he.1, hslot _ he'.1, of_decide_eq_true he.2,
        of_decide_eq_true he'.2] at hlt
      rcases hlt with hlt | ⟨-, hlt⟩
      · exact absurd hlt (UInt64.lt_irrefl _)
      · exact Nat.le_of_lt hlt

/-- What the queue lists is the sort of what it stands for. -/
theorem Sound.bySlot_waitlist (h : Sound q) :
    bySlot Waiting.slot q.waitlist.entries = q.entries.toList.map (·.2) := by
  rw [h.toList_eq_bySlot]
  exact bySlot_map Waiting.slot (·.2) q.arrivals

-- ============================================== what arrives and stays

theorem Restriction.arrivals_eq (r : Restriction keep q q') (h : Sound q) :
    q'.arrivals = q.arrivals.filter fun e => keep e.1 e.2 := by
  refine (r.sound h).arrivals_eq ?_ (q.pairwise_arrivals.filter _)
  rw [r.toList_eq]
  exact q.arrivals_perm.filter _

/-- Without some entries a queue stands for the list without them. -/
theorem Restriction.waitlist_eq {p : Waiting → Bool} (r : Restriction (fun _ w => p w) q q')
    (h : Sound q) : q'.waitlist = { q.waitlist with entries := q.waitlist.entries.filter p } := by
  unfold waitlist
  rw [r.arrivals_eq h, r.capacity_eq, r.retention_eq, List.filter_map]
  rfl

theorem Sound.toList_enlist (h : Sound q) (root : Root) (s : Submission) :
    (q.enlist root s).entries.toList.Perm
      ((⟨s.data.slot, q.nextArrival⟩, ⟨root, s⟩) :: q.entries.toList) := by
  have hnew : (q.enlist root s).entries[(⟨s.data.slot, q.nextArrival⟩ : Ticket)]?
      = some ⟨root, s⟩ := by
    rw [entries_enlist, if_pos rfl]
  have herase : (q.enlist root s).entries.erase ⟨s.data.slot, q.nextArrival⟩ = q.entries := by
    show (q.entries.insert _ _).erase _ = q.entries
    rw [Map.erase_insert, Map.erase_of_absent (h.unused s.data.slot)]
  have hperm := Map.toList_perm hnew
  rw [herase] at hperm
  exact hperm

theorem Sound.arrivals_enlist (h : Sound q) (hroom : q.size < q.capacity) (root : Root)
    (s : Submission) :
    (q.enlist root s).arrivals = q.arrivals ++ [(⟨s.data.slot, q.nextArrival⟩, ⟨root, s⟩)] := by
  refine (h.enlist hroom root s).arrivals_eq ?_ ?_
  · exact (List.perm_append_singleton _ _).trans
      ((q.arrivals_perm.cons _).trans (h.toList_enlist root s).symm)
  · refine List.pairwise_append.mpr ⟨q.pairwise_arrivals, List.pairwise_singleton _ _, ?_⟩
    intro e he e' he'
    rw [List.mem_singleton.mp he']
    exact Nat.le_of_lt (h.numbered e.1 e.2 (mem_arrivals.mp he))

theorem Sound.waitlist_enlist (h : Sound q) (hroom : q.size < q.capacity) (root : Root)
    (s : Submission) :
    (q.enlist root s).waitlist
      = { q.waitlist with entries := q.waitlist.entries ++ [⟨root, s⟩] } := by
  unfold waitlist
  rw [h.arrivals_enlist hroom, List.map_append]
  rfl

theorem size_eq_length (q : BlockQueue) : q.size = q.waitlist.entries.length := by
  show q.entries.size = (q.arrivals.map _).length
  rw [List.length_map, q.arrivals_perm.length_eq, Std.ExtTreeMap.length_toList]

/-- The first entry is the earliest of the list. -/
theorem Sound.waitlist_makeRoom (h : Sound q) (hcapacity : q.capacity ≠ 0) :
    q.makeRoom.waitlist = { q.waitlist with
      entries := if q.waitlist.capacity ≤ q.waitlist.entries.length
        then dropEarliest Waiting.slot q.waitlist.entries else q.waitlist.entries } := by
  rw [← size_eq_length]
  show q.makeRoom.waitlist = Waitlist.mk q.capacity q.retention
    (if q.capacity ≤ q.size then _ else q.waitlist.entries)
  rcases h.makeRoom_cases hcapacity with ⟨hroom, hsame⟩ | ⟨t, w, hfull, hfirst, hentries, hr⟩
  · rw [hsame, if_neg (Nat.not_le.mpr hroom)]
    rfl
  · rw [if_pos hfull]
    have hin := Map.getElem?_of_minEntry? hfirst
    have hne : q.arrivals ≠ [] := List.ne_nil_of_mem (mem_arrivals (e := (t, w)).mpr hin)
    obtain ⟨before, first, after, hsplit, hdrop, hsort⟩ :=
      exists_earliest (fun e : Ticket × Waiting => e.2.slot) hne
    -- both call the same entry the first
    rw [Map.minEntry?_eq_head?, h.toList_eq_bySlot, hsort] at hfirst
    have hfirst : first = (t, w) := Option.some.inj hfirst
    subst hfirst
    have hrest : q.makeRoom.arrivals = before ++ after := by
      refine (hr.sound h).arrivals_eq ?_ ?_
      · have hperm := q.arrivals_perm.trans (Map.toList_perm hin)
        rw [hsplit] at hperm
        rw [hentries]
        exact (List.perm_middle.symm.trans hperm).cons_inv
      · refine q.pairwise_arrivals.sublist ?_
        rw [hsplit]
        exact List.Sublist.append_left (List.sublist_cons_self _ _) _
    unfold waitlist
    rw [hrest, ← hdrop, hr.capacity_eq, hr.retention_eq]
    exact congrArg (Waitlist.mk q.capacity q.retention)
      (dropEarliest_map Waiting.slot (·.2) q.arrivals).symm

-- =============================================================== calls

theorem Sound.contains_eq_holds (h : Sound q) (a : Attestation) :
    q.contains a = q.waitlist.holds a := by
  rw [Bool.eq_iff_iff, h.contains_iff]
  show _ ↔ ((q.arrivals.map _).any _) = true
  simp only [List.any_map, List.any_eq_true, Function.comp_apply, Bool.and_eq_true,
    Bool.or_eq_true, beq_iff_eq, mem_arrivals, Prod.exists]

/-- A list of tickets in order is known by what is in it. -/
theorem eq_of_ordered {l l' : List Ticket} (hl : l.Pairwise fun t t' => Ticket.order t t' = .lt)
    (hl' : l'.Pairwise fun t t' => Ticket.order t t' = .lt) (hmem : ∀ t, t ∈ l ↔ t ∈ l') :
    l = l' := by
  have hnodup : ∀ {l : List Ticket}, l.Pairwise (fun t t' => Ticket.order t t' = .lt) →
      l.Nodup := by
    intro l hl
    refine hl.imp fun hlt heq => ?_
    rw [heq] at hlt
    exact Std.OrientedCmp.not_lt_of_lt hlt hlt
  exact @List.Perm.eq_of_pairwise _ (fun t t' => Ticket.order t t' = .lt) _ _
    (fun t t' _ _ hlt hgt => (Std.OrientedCmp.not_lt_of_lt hlt hgt).elim) hl hl'
    ((List.perm_ext_iff_of_nodup (hnodup hl) (hnodup hl')).mpr hmem)

/-- The tickets under a root are those of the entries that wait for it,
in order. -/
theorem Sound.ticketsOf_eq (h : Sound q) (root : Root) :
    q.ticketsOf root
      = (q.entries.toList.filter fun e => e.2.blockRoot = root).map Prod.fst := by
  refine eq_of_ordered ?_ ?_ fun t => ?_
  · unfold ticketsOf
    split
    · exact Std.ExtTreeSet.ordered_toList
    · exact List.Pairwise.nil
  · exact List.pairwise_map.mpr (q.entries.ordered_keys_toList.filter _)
  · rw [h.mem_ticketsOf, List.mem_map]
    simp [Std.ExtTreeMap.mem_toList_iff_getElem?_eq_some]

/-- What is taken is what goes out. -/
theorem Sound.take_eq_left (h : Sound q) (root : Root) :
    (q.take root).2 = (q.left (.take root)).map fun e => e.2.submission := by
  have hfound : ∀ e ∈ q.entries.toList.filter fun e => e.2.blockRoot = root,
      q.entries[e.1]?.map (·.submission) = some e.2.submission := by
    intro e he
    have hin := Std.ExtTreeMap.mem_toList_iff_getElem?_eq_some.mp (List.mem_filter.mp he).1
    rw [hin]
    rfl
  show (q.ticketsOf root).filterMap _ = _
  rw [h.ticketsOf_eq, List.filterMap_map]
  exact (List.filterMap_congr hfound).trans (congrFun List.filterMap_eq_map _)

/-- What is taken is what the list has for the block, sorted. -/
theorem Sound.take_eq (h : Sound q) (root : Root) :
    (q.take root).2 = (q.waitlist.take root).2 := by
  rw [h.take_eq_left]
  show _ = (bySlot Waiting.slot (q.waitlist.entries.filter fun w => w.blockRoot = root)).map _
  rw [bySlot_filter, h.bySlot_waitlist, List.filter_map, List.map_map]
  rfl

/-- A call does to a queue what it does to the list that the queue
stands for, and the answer is the same. -/
theorem Sound.waitlist_call (h : Sound q) (c : Call) :
    (q.call c).1.waitlist = (q.waitlist.call c).1 ∧ (q.call c).2 = (q.waitlist.call c).2 := by
  cases c with
  | add root s =>
      refine ⟨?_, rfl⟩
      show (q.add root s).value.waitlist = q.waitlist.add root s
      rw [add_value, Waitlist.add, ← h.contains_eq_holds]
      show _ = if q.capacity = 0 || q.contains s.attestation then _ else _
      split
      case isTrue => rfl
      case isFalse haccepted =>
        obtain ⟨hcapacity, -⟩ := of_accepted haccepted
        obtain ⟨hsound, hroom⟩ := h.makeRoom hcapacity
        rw [hsound.waitlist_enlist hroom, h.waitlist_makeRoom hcapacity]
  | take root =>
      refine ⟨(h.take root).waitlist_eq h, ?_⟩
      exact congrArg Answer.taken (h.take_eq root)
  | prune slot => exact ⟨(h.prune slot).waitlist_eq h, rfl⟩
  | contains a => exact ⟨rfl, congrArg Answer.held (h.contains_eq_holds a)⟩
  | size => exact ⟨rfl, congrArg Answer.count q.size_eq_length⟩

/-- The same over a run. -/
theorem Sound.waitlist_after {start : BlockQueue} (h : Sound start) (calls : List Call) :
    (start.after calls).waitlist = start.waitlist.after calls
      ∧ start.answers calls = start.waitlist.answers calls := by
  induction calls with
  | nil => exact ⟨rfl, rfl⟩
  | cons c earlier ih =>
      obtain ⟨hafter, hanswers⟩ := ih
      have hcall := (sound_after h earlier).waitlist_call c
      rw [hafter] at hcall
      exact ⟨hcall.1, congrArg₂ List.cons hcall.2 hanswers⟩

theorem waitlist_empty (capacity : Nat) (retention : UInt64) :
    BlockQueue.waitlist { capacity, retention } = { capacity, retention } := by
  have hnone : (∅ : Std.ExtTreeMap Ticket Waiting Ticket.order).toList = [] :=
    Std.ExtTreeMap.toList_eq_nil_iff.mpr rfl
  simp [waitlist, arrivals, hnone]

-- ============================================================ passages

theorem Restriction.parted (r : Restriction keep q q') :
    q.entries.toList.Perm
      (q'.entries.toList ++ q.entries.toList.filter fun e => !keep e.1 e.2) := by
  rw [r.toList_eq]
  exact (List.filter_append_perm _ _).symm

theorem Sound.passage_makeRoom (h : Sound q) (hcapacity : q.capacity ≠ 0) :
    q.entries.toList.Perm (q.makeRoom.entries.toList
      ++ if q.capacity ≤ q.size then q.entries.minEntry?.toList else []) := by
  rcases h.makeRoom_cases hcapacity with ⟨hroom, hsame⟩ | ⟨t, w, hfull, hfirst, hentries, -⟩
  · rw [hsame, if_neg (Nat.not_le.mpr hroom), List.append_nil]
  · rw [if_pos hfull, hfirst, hentries]
    exact (Map.toList_perm (Map.getElem?_of_minEntry? hfirst)).trans
      (List.perm_append_singleton _ _).symm

/-- What was there and what a call brings is what is there afterwards and
what it takes. -/
theorem Sound.passage_call (h : Sound q) (c : Call) :
    (q.entered c ++ q.entries.toList).Perm ((q.call c).1.entries.toList ++ q.left c) := by
  cases c with
  | add root s =>
      show List.Perm _ ((q.add root s).value.entries.toList ++ _)
      rw [add_value, entered, left]
      split
      case isTrue => simp
      case isFalse haccepted =>
        obtain ⟨hcapacity, -⟩ := of_accepted haccepted
        have hnew := (h.makeRoom hcapacity).1.toList_enlist root s
        rw [h.nextArrival_makeRoom hcapacity] at hnew
        exact ((h.passage_makeRoom hcapacity).cons _).trans (hnew.symm.append_right _)
  | take root =>
      have hparted := (h.take root).parted
      simp only [ne_eq, decide_not, Bool.not_not] at hparted
      exact hparted
  | prune slot =>
      have hparted := (h.prune slot).parted
      simp only [← decide_not, Nat.not_le] at hparted
      exact hparted
  | contains a => simp [BlockQueue.call, entered, left]
  | size => simp [BlockQueue.call, entered, left]

/-- What came in is still there or went out. -/
theorem passage_after {start : BlockQueue} (h : Sound start) (hempty : start.entries = ∅)
    (calls : List Call) :
    (start.enteredIn calls).Perm
      ((start.after calls).entries.toList ++ start.leftIn calls) := by
  induction calls with
  | nil =>
      show List.Perm [] (start.entries.toList ++ [])
      rw [hempty, Std.ExtTreeMap.toList_eq_nil_iff.mpr rfl, List.append_nil]
  | cons c earlier ih =>
      have hcall := (sound_after h earlier).passage_call c
      have hearlier := ih.append_left ((start.after earlier).entered c)
      rw [← List.append_assoc] at hearlier
      have hboth := hearlier.trans (hcall.append_right (start.leftIn earlier))
      rw [List.append_assoc] at hboth
      exact hboth

/-- Each arrival takes the next number. -/
theorem Sound.nextArrival_call (h : Sound q) (c : Call) :
    (q.call c).1.nextArrival = q.nextArrival + (q.entered c).length := by
  cases c with
  | add root s =>
      show (q.add root s).value.nextArrival = _
      rw [add_value, entered]
      split
      case isTrue => rfl
      case isFalse haccepted =>
        exact congrArg (· + 1) (h.nextArrival_makeRoom (of_accepted haccepted).1)
  | take root => exact (h.take root).nextArrival_eq
  | prune slot => exact (h.prune slot).nextArrival_eq
  | contains a => rfl
  | size => rfl

/-- What comes in with a call has the next number as its ticket. -/
theorem entered_cases (q : BlockQueue) (c : Call) :
    q.entered c = [] ∨ ∃ e, q.entered c = [e] ∧ e.1.arrival = q.nextArrival := by
  unfold entered
  split
  · split
    · exact .inl rfl
    · exact .inr ⟨_, rfl, rfl⟩
  · exact .inl rfl

/-- All that came in has numbers of its own, and the next one is free. -/
theorem nodup_enteredIn {start : BlockQueue} (h : Sound start) (calls : List Call) :
    ((start.enteredIn calls).map fun e => e.1.arrival).Nodup
      ∧ ∀ e ∈ start.enteredIn calls, e.1.arrival < (start.after calls).nextArrival := by
  induction calls with
  | nil => exact ⟨List.nodup_nil, fun e he => absurd he List.not_mem_nil⟩
  | cons c earlier ih =>
      obtain ⟨hnodup, hbelow⟩ := ih
      have hnext : (start.after (c :: earlier)).nextArrival
          = (start.after earlier).nextArrival + ((start.after earlier).entered c).length :=
        (sound_after h earlier).nextArrival_call c
      show (((start.after earlier).entered c ++ start.enteredIn earlier).map _).Nodup
        ∧ ∀ e ∈ (start.after earlier).entered c ++ start.enteredIn earlier, _
      rw [hnext]
      rcases (start.after earlier).entered_cases c with hnone | ⟨new, hnew, harrival⟩
      · rw [hnone]
        exact ⟨hnodup, hbelow⟩
      · rw [hnew]
        refine ⟨List.nodup_cons.mpr ⟨fun hmem => ?_, hnodup⟩, fun e he => ?_⟩
        · obtain ⟨e, he, hequal⟩ := List.mem_map.mp hmem
          have hlt := hbelow e he
          have hequal : e.1.arrival = new.1.arrival := hequal
          omega
        · show e.1.arrival < (start.after earlier).nextArrival + 1
          rcases List.mem_cons.mp he with rfl | he
          · omega
          · exact Nat.lt_succ_of_lt (hbelow e he)

-- ============================================================= results

/-- A queue answers as the plain list does, never holds more than its
capacity, and keeps the index in step with the entries. What it was
given and took in is still there or went out, once: what waited for a
block when it was taken, what was too old, or the first entry of a full
queue. -/
theorem refines_waitlist (capacity : Nat) (retention : UInt64) (calls : List Call) :
    let start : BlockQueue := { capacity, retention }
    let list : Waitlist := { capacity, retention }
    let q := start.after calls
    start.answers calls = list.answers calls
      ∧ q.size = (list.after calls).entries.length ∧ q.size ≤ capacity
      ∧ (∀ (root : Root) (t : Ticket), t ∈ Map.setAt q.tickets root
          ↔ ∃ w : Waiting, q.entries[t]? = some w ∧ w.blockRoot = root)
      ∧ (∀ (root : Root) (held : Std.ExtTreeSet Ticket Ticket.order),
          q.tickets[root]? = some held → held ≠ ∅)
      ∧ ((start.enteredIn calls).map Prod.fst).Nodup
      ∧ (start.enteredIn calls).Perm (q.entries.toList ++ start.leftIn calls)
      ∧ ∀ root, (q.take root).2 = (q.left (.take root)).map fun e => e.2.submission := by
  intro start list q
  have hstart : Sound start := Sound.empty capacity retention
  have hq : Sound q := sound_after hstart calls
  obtain ⟨hlist, hanswers⟩ := hstart.waitlist_after calls
  rw [waitlist_empty] at hlist hanswers
  have hcapacity : q.capacity = capacity := by
    show q.waitlist.capacity = capacity
    rw [hlist, Waitlist.capacity_after]
  have hnodup : ((start.enteredIn calls).map Prod.fst).Nodup := by
    have harrivals : (((start.enteredIn calls).map Prod.fst).map Ticket.arrival).Nodup := by
      rw [List.map_map]
      exact (nodup_enteredIn hstart calls).1
    exact harrivals.of_map _
  refine ⟨hanswers, ?_, ?_, hq.listed, hq.occupied, hnodup,
    passage_after hstart rfl calls, hq.take_eq_left⟩
  · rw [size_eq_length, hlist]
  · rw [← hcapacity]
    exact hq.within

end ChainHead.BlockQueue
