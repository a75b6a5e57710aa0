/-
Waiting for a block leaves no trace.

A submission may arrive before a block that it depends on or after it.
Where the verdict does not name the block, importing it does not change
the verdict (`Judge.process_withBlock`), since a new block is related to
no other; and if nothing waits for it, the report of the import does
nothing. Where the verdict names the block, the submission waits, and is
all that the report brings back. Then it meets what it would have met
had it come later. Either way the two orders end alike
(`block_early_or_late`).
-/
import ChainHead.Proofs.Manager.Alike
import ChainHead.Proofs.Manager.Kept
import ChainHead.Proofs.Tree.Ancestry

namespace ChainHead

-- ============================================================ the judge

namespace Judge

open ChainHead.Tree (contains_extend)

variable {c : JudgeConfig} {features : Features} {j : Judge} {s : Submission} {facts : Facts}
variable {b : BeaconBlock} {justified finalized : Checkpoint} {store : Store} {t : Tree}
variable {n : Node} {d : AttestationData} {root : Root}

/-- A judge to whose store a block was added. -/
def withBlock (j : Judge) (b : BeaconBlock) (justified finalized : Checkpoint) : Judge :=
  { j with store := j.store.call (.block b justified finalized) }

theorem contains_extend_of_ne (hroot : n.root ≠ root) :
    (t.extend n).contains root = t.contains root := by
  rw [Bool.eq_iff_iff, contains_extend, or_iff_right hroot]

/-- With another block in the store the same block is missing, if it is
another one. -/
theorem missingBlock?_extend {store' : Store} (htree : store'.tree = store.tree.extend n)
    (hnew : store.tree.contains n.root = false)
    (hother : missingBlock? store d ≠ some n.root) :
    missingBlock? store' d = missingBlock? store d := by
  rw [missingBlock?_eq] at hother
  rw [missingBlock?_eq, missingBlock?_eq, htree]
  have htarget : n.root ≠ d.target.root := by
    rintro heq
    rw [← heq, if_neg (ne_true_of_eq_false hnew)] at hother
    exact hother rfl
  rw [contains_extend_of_ne htarget]
  split
  case isFalse => rfl
  case isTrue hknown =>
    have hhead : n.root ≠ d.beaconBlockRoot := by
      rintro heq
      rw [if_pos hknown, ← heq, if_neg (ne_true_of_eq_false hnew)] at hother
      exact hother rfl
    rw [contains_extend_of_ne hhead]

/-- Head and target are related as before. -/
theorem checkBlocks_extend {store' : Store} (h : store.tree.Sound)
    (htree : store'.tree = store.tree.extend n) (hhead : n.root ≠ d.beaconBlockRoot) :
    checkBlocks c store' d = checkBlocks c store d := by
  unfold checkBlocks
  rw [htree, h.slot?_extend hhead]
  simp only [h.ancestorAtSlot?_extend hhead]

theorem examine_extend {store' : Store} (h : j.store.tree.Sound)
    (htree : store'.tree = j.store.tree.extend n) (hnew : j.store.tree.contains n.root = false)
    (hother : (examine c features j s facts).2 ≠ .error (.missing n.root)) :
    examine c features { j with store := store' } s facts = examine c features j s facts := by
  unfold examine at hother ⊢
  dsimp only
  cases htime : checkTime c j.currentSlot s.attestation with
  | error reason => rfl
  | ok u =>
      rw [htime] at hother
      dsimp only at hother ⊢
      have hmissing : missingBlock? j.store s.data ≠ some n.root := by
        intro hfound
        rw [hfound] at hother
        exact hother rfl
      rw [missingBlock?_extend htree hnew hmissing]
      cases hnone : missingBlock? j.store s.data with
      | some found => rfl
      | none =>
          -- the head is there, so it is not the new block
          have hhead : n.root ≠ s.data.beaconBlockRoot := by
            have hall := List.find?_eq_none.mp hnone
            have hknown := hall s.data.beaconBlockRoot (by simp)
            rintro heq
            rw [← heq, hnew] at hknown
            exact hknown rfl
          dsimp only
          rw [checkBlocks_extend h htree hhead]

/-- Adding a block has nothing to do with recording votes. -/
theorem recorded_withBlock (j : Judge) (b : BeaconBlock) (justified finalized : Checkpoint)
    (indexed : Option IndexedAttestation) :
    (j.withBlock b justified finalized).recorded indexed
      = (j.recorded indexed).withBlock b justified finalized := by
  cases indexed with
  | none => rfl
  | some a =>
      have hstore : ((j.store.onBlock b justified finalized).state.onAttestation a).value
          = ((j.store.onAttestation a).value.onBlock b justified finalized).state := by
        have htree : (j.store.onAttestation a).value.tree = j.store.tree := rfl
        unfold Store.onBlock
        dsimp only
        rw [htree]
        cases j.store.tree.insert b.slot b.hashTreeRoot b.parentRoot b.stateRoot justified.epoch
          finalized.epoch with
        | error e => rfl
        | ok tree => rfl
      exact congrArg (fun store => { j with store := store }) hstore

/-- A block that is not missed changes nothing about a verdict, nor does
the verdict change what the block does. -/
theorem process_withBlock (h : j.store.tree.Sound)
    (hnew : j.store.tree.contains b.hashTreeRoot = false)
    (hother : (process c features j s facts).value.2.2 ≠ .unknownBlock b.hashTreeRoot) :
    (process c features (j.withBlock b justified finalized) s facts).value
      = ((process c features j s facts).value.1.withBlock b justified finalized,
        (process c features j s facts).value.2) := by
  have htree : (j.withBlock b justified finalized).store.tree
      = j.store.tree.extend (j.store.entry b justified finalized) := by
    rcases j.store.onBlock_cases b justified finalized with ⟨hknown, -⟩ | ⟨-, metrics, heq⟩
    · rw [hnew] at hknown
      cases hknown
    · exact congrArg (·.state.tree) heq
  have hexamine : examine c features (j.withBlock b justified finalized) s facts
      = examine c features j s facts :=
    examine_extend h htree hnew fun hmissing => hother (process_unknownBlock_iff.mpr hmissing)
  have hclock : (j.withBlock b justified finalized).currentSlot = j.currentSlot := rfl
  rw [process_value, process_value, hexamine, hclock]
  split
  case h_1 => rfl
  case h_2 => rfl
  case h_3 facts' _ =>
    by_cases hearly : j.currentSlot ≤ s.data.slot
    · rw [if_pos hearly, if_pos hearly]
    · rw [if_neg hearly, if_neg hearly]
      rw [recorded_withBlock]

end Judge

-- ============================================================ the queue

namespace BlockQueue

variable {q : BlockQueue} {root : Root} {s : Submission}

theorem mem_waitlist {w : Waiting} :
    w ∈ q.waitlist.entries ↔ ∃ t : Ticket, q.entries[t]? = some w := by
  show w ∈ q.arrivals.map (·.2) ↔ _
  rw [List.mem_map]
  constructor
  · intro ⟨e, he, hw⟩
    exact ⟨e.1, hw ▸ mem_arrivals.mp he⟩
  · intro ⟨t, ht⟩
    exact ⟨(t, w), mem_arrivals.mpr ht, rfl⟩

/-- Nothing is taken for a block for which nothing waits. -/
theorem Sound.take_nothing (h : q.Sound)
    (hnone : ∀ (t : Ticket) (w : Waiting), q.entries[t]? = some w → w.blockRoot ≠ root) :
    (q.take root).1.waitlist = q.waitlist ∧ (q.take root).2 = [] := by
  have hother : ∀ w ∈ q.waitlist.entries, w.blockRoot ≠ root := by
    intro w hw
    obtain ⟨t, ht⟩ := mem_waitlist.mp hw
    exact hnone t w ht
  constructor
  · rw [(h.take root).waitlist_eq h, List.filter_eq_self.mpr fun w hw =>
      decide_eq_true (hother w hw)]
  · rw [h.take_eq]
    show (bySlot Waiting.slot (q.waitlist.entries.filter fun w => w.blockRoot = root)).map _ = []
    rw [List.filter_eq_nil_iff.mpr fun w hw => by simpa using hother w hw]
    simp [bySlot]

/-- What is put in for a block for which nothing else waits is all that
is taken. -/
theorem Sound.take_add (h : q.Sound)
    (hnone : ∀ (t : Ticket) (w : Waiting), q.entries[t]? = some w → w.blockRoot ≠ root)
    (hroom : q.size < q.capacity) (hnew : q.contains s.attestation = false) :
    ((q.add root s).value.take root).1.waitlist = q.waitlist
      ∧ ((q.add root s).value.take root).2 = [s] := by
  have haccepted : ¬(decide (q.capacity = 0) || q.contains s.attestation) = true := by
    rw [hnew, Bool.or_false, decide_eq_true_iff]
    omega
  have hadd : (q.add root s).value = q.enlist root s := by
    rw [add_value, if_neg haccepted, BlockQueue.makeRoom, if_neg (Nat.not_le.mpr hroom)]
  have hsound := h.enlist hroom root s
  have hother : ∀ w ∈ q.waitlist.entries, w.blockRoot ≠ root := by
    intro w hw
    obtain ⟨t, ht⟩ := mem_waitlist.mp hw
    exact hnone t w ht
  rw [hadd]
  constructor
  · rw [(hsound.take root).waitlist_eq hsound, h.waitlist_enlist hroom]
    dsimp only
    rw [List.filter_append, List.filter_eq_self.mpr fun w hw => decide_eq_true (hother w hw)]
    simp
  · rw [hsound.take_eq, h.waitlist_enlist hroom]
    show (bySlot Waiting.slot ((q.waitlist.entries ++ [(⟨root, s⟩ : Waiting)]).filter
      fun w => w.blockRoot = root)).map _ = [s]
    rw [List.filter_append, List.filter_eq_nil_iff.mpr fun w hw => by simpa using hother w hw]
    simp [bySlot]

end BlockQueue

-- ========================================================== the manager

namespace Manager

variable {c : JudgeConfig} {features : Features} {m : Manager Judge} {s : Submission}
variable {b : BeaconBlock} {justified finalized : Checkpoint} {root : Root}

/-- A manager to the store of whose judge a block was added. -/
def withBlock (m : Manager Judge) (b : BeaconBlock) (justified finalized : Checkpoint) :
    Manager Judge :=
  { m with processor := m.processor.withBlock b justified finalized }

/-- Whatever the judge has become, a report of a block for which nothing
waits goes unnoticed. -/
theorem onBlockImported_nothing (p : Processor Judge) (features : Features)
    (h : m.untilBlock.Sound)
    (hnone : ∀ (t : Ticket) (w : Waiting), m.untilBlock.entries[t]? = some w →
      w.blockRoot ≠ root) (j : Judge) :
    let m' := (({ m with processor := j } : Manager Judge).onBlockImported p features root).value
    Alike m m' ∧ m'.processor = j ∧ m'.untilBlock.Sound := by
  intro m'
  obtain ⟨hlist, htaken⟩ := h.take_nothing hnone
  have hm' : m' = _ := onBlockImported_value p features _ root
  rw [hm', htaken]
  exact ⟨⟨rfl, hlist.symm, rfl, fun _ => rfl, rfl⟩, rfl, (h.take root).sound h⟩

/-- A submission that waits for a block, and is all that does, is handed
in again when that block is reported; it meets a manager as it was. -/
theorem onBlockImported_again (p : Processor Judge) (features : Features)
    (h : m.untilBlock.Sound)
    (hnone : ∀ (t : Ticket) (w : Waiting), m.untilBlock.entries[t]? = some w →
      w.blockRoot ≠ root)
    (hroom : m.untilBlock.size < m.untilBlock.capacity)
    (hnew : m.untilBlock.contains s.attestation = false) (j : Judge) (ledger : Ledger)
    (hfacts : ∀ s', m.ledger.get s' = ledger.get s') (metrics : ManagerMetrics) :
    let m' : Manager Judge := { m with
      processor := j
      untilBlock := (m.untilBlock.add root s).value
      ledger
      metrics }
    ∃ again : Manager Judge, Alike m again ∧ again.processor = j ∧ again.untilBlock.Sound
      ∧ (m'.onBlockImported p features root).value
        = (again.onAttestation p features s).value.1 := by
  intro m'
  obtain ⟨hlist, htaken⟩ := h.take_add hnone hroom hnew
  have hsound : m'.untilBlock.Sound := h.add root s
  rw [onBlockImported_value]
  change (m'.untilBlock.take root).2 = [s] at htaken
  rw [htaken]
  exact ⟨({ m' with untilBlock := (m'.untilBlock.take root).1 } : Manager Judge).updateMetrics,
    ⟨rfl, hlist.symm, rfl, hfacts, rfl⟩, rfl, (hsound.take root).sound hsound, rfl⟩

/-- A submission for which a block is missing is put aside, and nothing
else happens. -/
theorem onAttestation_unknownBlock
    (hfeatures : features.has .ignoreAttestationsForUnknownBlocks = false)
    (hnew : m.untilBlock.contains s.attestation = false)
    (hverdict : (Judge.process c features m.processor s (m.ledger.get s)).value.2.2
      = .unknownBlock root) :
    ∃ metrics, (m.onAttestation (Judge.processor c) features s).value.1 = { m with
      untilBlock := (m.untilBlock.add root s).value
      ledger := m.ledger.put s (m.ledger.get s)
      metrics } := by
  obtain ⟨metrics, hvalue⟩ := onAttestation_judged (Judge.processor c) features m s c.preset hnew
    (Judge.process_eq_of_unknownBlock hverdict)
  refine ⟨metrics, ?_⟩
  rw [hvalue]
  unfold queueAfter
  simp only [hfeatures, Bool.false_eq_true, if_false]
  rfl

/-- The block is the one that the submission waits for. -/
theorem import_awaited (h : m.untilBlock.Sound)
    (hfeatures : features.has .ignoreAttestationsForUnknownBlocks = false)
    (hnone : ∀ (t : Ticket) (w : Waiting), m.untilBlock.entries[t]? = some w →
      w.blockRoot ≠ b.hashTreeRoot)
    (hnew : m.untilBlock.contains s.attestation = false)
    (hroom : m.untilBlock.size < m.untilBlock.capacity)
    (hverdict : (Judge.process c features m.processor s (m.ledger.get s)).value.2.2
      = .unknownBlock b.hashTreeRoot) :
    let p := Judge.processor c
    let early := (((m.onAttestation p features s).value.1.withBlock b justified
      finalized).onBlockImported p features b.hashTreeRoot).value
    let late := (((m.withBlock b justified finalized).onBlockImported p features
      b.hashTreeRoot).value.onAttestation p features s).value.1
    early.processor = late.processor ∧ Alike early late := by
  intro p early late
  obtain ⟨metrics, hfirst⟩ := onAttestation_unknownBlock hfeatures hnew hverdict
  obtain ⟨again, hagain, hprocessor, hsound, hearly⟩ := onBlockImported_again p features h hnone
    hroom hnew (m.processor.withBlock b justified finalized) _
    (fun s' => (Ledger.get_put_get m.ledger s s').symm) metrics
  obtain ⟨hlate, hprocessor', hsound'⟩ := onBlockImported_nothing p features h hnone
    (m.processor.withBlock b justified finalized)
  have hearly : early = (again.onAttestation p features s).value.1 := by
    rw [← hearly]
    show ((withBlock (m.onAttestation p features s).value.1 b justified
      finalized).onBlockImported p features b.hashTreeRoot).value = _
    rw [hfirst]
    rfl
  obtain ⟨hboth, hprocessors⟩ := (hagain.symm.trans hlate).onAttestation hsound hsound' p
    features s c.preset (f := id) (hprocessor'.trans hprocessor.symm) rfl
  rw [hearly]
  exact ⟨hprocessors.symm, hboth⟩

/-- The block is another one, or none is missing. -/
theorem import_unawaited (h : m.untilBlock.Sound) (htree : m.processor.store.tree.Sound)
    (hblock : m.processor.store.tree.contains b.hashTreeRoot = false)
    (hnone : ∀ (t : Ticket) (w : Waiting), m.untilBlock.entries[t]? = some w →
      w.blockRoot ≠ b.hashTreeRoot)
    (hnew : m.untilBlock.contains s.attestation = false)
    (hverdict : (Judge.process c features m.processor s (m.ledger.get s)).value.2.2
      ≠ .unknownBlock b.hashTreeRoot) :
    let p := Judge.processor c
    let early := (((m.onAttestation p features s).value.1.withBlock b justified
      finalized).onBlockImported p features b.hashTreeRoot).value
    let late := (((m.withBlock b justified finalized).onBlockImported p features
      b.hashTreeRoot).value.onAttestation p features s).value.1
    early.processor = late.processor ∧ Alike early late := by
  intro p early late
  -- nothing waits for the block afterwards either
  have hqueue : (m.onAttestation p features s).value.1.untilBlock
      = queueAfter features s m.untilBlock
        (Judge.process c features m.processor s (m.ledger.get s)).value.2.2 := by
    obtain ⟨metrics, hvalue⟩ := onAttestation_judged p features m s c.preset hnew rfl
    rw [hvalue]
    rfl
  have hsound : (m.onAttestation p features s).value.1.untilBlock.Sound := by
    rw [hqueue]
    exact sound_queueAfter h features s _
  have hstill : ∀ (t : Ticket) (w : Waiting),
      (m.onAttestation p features s).value.1.untilBlock.entries[t]? = some w →
      w.blockRoot ≠ b.hashTreeRoot := by
    intro t w hw
    rw [hqueue] at hw
    rcases entries_queueAfter h hw with hold | ⟨root, hroot, rfl⟩
    · exact hnone t w hold
    · exact fun heq => hverdict (hroot.trans (congrArg _ heq))
  obtain ⟨hearly, hprocessor, -⟩ := onBlockImported_nothing p features hsound hstill
    ((m.onAttestation p features s).value.1.processor.withBlock b justified finalized)
  obtain ⟨hlate, hprocessor', hsound'⟩ := onBlockImported_nothing p features h hnone
    (m.processor.withBlock b justified finalized)
  obtain ⟨hboth, hprocessors⟩ := hlate.onAttestation h hsound' p features s c.preset
    (f := fun j => j.withBlock b justified finalized) hprocessor'
    (Judge.process_withBlock htree hblock hverdict)
  exact ⟨hprocessor.trans hprocessors.symm, hearly.symm.trans hboth⟩

-- ================================================================ runs

/-- A submission handed in before a new block is added and reported
leaves what it leaves afterwards, if nothing waited for the block,
nothing equal to the submission waited, and there was room. -/
theorem block_early_or_late (c : JudgeConfig) (start : Manager Judge) (hstart : Fresh start)
    (calls : List (Call Judge.Use)) (features : Features)
    (hfeatures : features.has .ignoreAttestationsForUnknownBlocks = false) (b : BeaconBlock)
    (justified finalized : Checkpoint) (s : Submission) :
    let w := Judge.shared c
    let m := after w start calls
    let arrival : List (Call Judge.Use) :=
      [.blockImported features b.hashTreeRoot, .meanwhile (.store (.block b justified finalized))]
    (m.processor.store.onBlock b justified finalized).result = .ok b.hashTreeRoot →
    (∀ (t : Ticket) (w : Waiting), m.untilBlock.entries[t]? = some w →
      w.blockRoot ≠ b.hashTreeRoot ∧ w.submission.attestation ≠ s.attestation) →
    m.untilBlock.size < m.untilBlock.capacity →
    let early := after w m (arrival ++ [.attestation features s])
    let late := after w m (.attestation features s :: arrival)
    early.processor = late.processor ∧ Alike early late := by
  intro w m arrival haccepted hothers hroom
  have hqueue : m.untilBlock.Sound := by
    obtain ⟨retentionEpochs, -, hsupplied⟩ := hstart.supplied_after w
      fun s hs => hs
    exact hsupplied.sound
  have htree : m.processor.store.tree.Sound :=
    (keeps_tree c).after hstart.tree fun _ _ => trivial
  have hblock : m.processor.store.tree.contains b.hashTreeRoot = false := by
    rcases m.processor.store.onBlock_cases b justified finalized with ⟨-, heq⟩ | ⟨hnew, -⟩
    · rw [heq] at haccepted
      cases haccepted
    · exact hnew
  have hnew : m.untilBlock.contains s.attestation = false := by
    rw [Bool.eq_false_iff]
    intro hcontains
    obtain ⟨t, w, hw, hequal, -⟩ := (hqueue.contains_iff s.attestation).mp hcontains
    exact (hothers t w hw).2 hequal
  have hnone := fun t w hw => (hothers t w hw).1
  by_cases hverdict : (Judge.process c features m.processor s (m.ledger.get s)).value.2.2
      = .unknownBlock b.hashTreeRoot
  · exact import_awaited hqueue hfeatures hnone hnew hroom hverdict
  · exact import_unawaited hqueue htree hblock hnone hnew hverdict

/-- A vote for the second block comes before it, or afterwards: it counts
once, and was handed to the network once. -/
theorem block_early_or_late_plain :
    let w := Judge.shared plainJudge
    let m := after w plainStart prelude
    let vote := plainVote 0 1 secondBlock.hashTreeRoot
    let arrival : List (Call Judge.Use) :=
      [.blockImported {} secondBlock.hashTreeRoot, .meanwhile (.store (.block secondBlock {} {}))]
    let early := after w m (arrival ++ [.attestation {} vote])
    let late := after w m (.attestation {} vote :: arrival)
    ((m.processor.store.onBlock secondBlock {} {}).result = .ok secondBlock.hashTreeRoot
        ∧ (∀ e ∈ m.untilBlock.entries.toList, e.2.blockRoot ≠ secondBlock.hashTreeRoot
          ∧ e.2.submission.attestation ≠ vote.attestation)
        ∧ m.untilBlock.size < m.untilBlock.capacity
        ∧ (after w m [.attestation {} vote]).untilBlock.size = 1
        ∧ early.untilBlock.size = 0
        ∧ early.outbox = [.attestation vote])
      ∧ early.processor = late.processor ∧ Alike early late := by
  refine (and_iff_left_of_imp fun hseen =>
    block_early_or_late plainJudge plainStart fresh_plainStart prelude {} rfl secondBlock {} {}
      (plainVote 0 1 secondBlock.hashTreeRoot) hseen.1
      (fun t w hw => hseen.2.1 (t, w) (Std.ExtTreeMap.mem_toList_iff_getElem?_eq_some.mpr hw))
      hseen.2.2.1).mpr ?_
  decide +kernel

end Manager

end ChainHead
