/-
Waiting for a slot leaves no trace.

A submission that is valid too early is pooled at once, and its votes
are recorded and it is handed to the network when its slot is over. Had
it come then, it would have been accepted and all three would have
happened at once. What is checked against the clock still passes, as
long as the new slot is in the epoch of the submission or the next one
(`Judge.process_later`), and the pool does not mind whether the slot
begins before the submission is added or after (`Pool.Tidy.add_slot`).
So both orders end in the same state (`slot_early_or_late`); only the
verdict that is counted is another one.
-/
import ChainHead.Proofs.Manager.Kept
import ChainHead.Proofs.Pool.Interchange
import ChainHead.Proofs.Queue.Slots

namespace ChainHead

-- ============================================================ the judge

namespace Judge

variable {c : JudgeConfig} {features : Features} {j : Judge} {s : Submission}
variable {facts facts' : Facts} {current slot : Slot} {a : Attestation}

/-- The checks against the clock are a row, of which the first that fails
tells the rejection. -/
theorem checkTime_eq (c : JudgeConfig) (current : Slot) (a : Attestation) :
    checkTime c current a
      = if a.data.target.epoch ≠ Epoch.ofSlot c.preset a.data.slot then
          .error (.epochMismatch a.data.target.epoch a.data.slot)
        else if a.bits.count = 0 then .error .noBitsSet
        else if Word.addSat current c.maxFutureSlots < a.data.slot then
          .error (.tooFarAhead a.data.slot current)
        else if a.data.target.epoch < Word.subSat (Epoch.ofSlot c.preset current) 1 then
          .error (.tooOld a.data.target.epoch (Word.subSat (Epoch.ofSlot c.preset current) 1))
        else .ok () :=
  rfl

/-- What passes these checks too early passes them as long as its epoch
is the current or the previous one. -/
theorem checkTime_later (h : checkTime c current a = .ok ()) (hover : a.data.slot < slot)
    (hepoch : (Epoch.ofSlot c.preset slot).toNat
      ≤ (Epoch.ofSlot c.preset a.data.slot).toNat + 1) :
    checkTime c slot a = .ok () := by
  rw [checkTime_eq] at h ⊢
  split_ifs at h with htarget hbits hahead hold
  have hnear : ¬Word.addSat slot c.maxFutureSlots < a.data.slot := by
    rw [UInt64.lt_iff_toNat_lt] at hover ⊢
    have hslot := slot.toNat_lt
    rw [Word.toNat_addSat]
    omega
  have hyoung : ¬a.data.target.epoch < Word.subSat (Epoch.ofSlot c.preset slot) 1 := by
    rw [not_not.mp htarget, UInt64.lt_iff_toNat_lt, Word.toNat_subSat]
    show ¬_ < _ - 1
    omega
  rw [if_neg htarget, if_neg hbits, if_neg hnear, if_neg hyoung]

/-- A submission that was saved is applied when its slot is over, unless
that is an epoch ago. -/
theorem process_later (hexamine : examine c features j s facts = (facts', .ok ()))
    (hearly : j.currentSlot ≤ s.data.slot) (hover : s.data.slot < slot)
    (hepoch : (Epoch.ofSlot c.preset slot).toNat
      ≤ (Epoch.ofSlot c.preset s.data.slot).toNat + 1) :
    (process c features (j.onSlot slot) s facts).value
      = ((j.onSlot slot).recorded facts'.indexed, facts', .successful) := by
  have hclock : (j.onSlot slot).currentSlot = slot :=
    if_pos (UInt64.le_trans hearly (UInt64.le_of_lt hover))
  -- only the checks against the clock look at it
  obtain ⟨htime, hothers⟩ := examine_eq_ok.mp hexamine
  have hlater : examine c features (j.onSlot slot) s facts = (facts', .ok ()) := by
    refine examine_eq_ok.mpr ⟨?_, hothers⟩
    rw [hclock]
    exact checkTime_later htime hover hepoch
  rw [process_value, hlater]
  dsimp only
  rw [hclock, if_neg (UInt64.not_le.mpr hover)]

end Judge

-- ============================================================ the queue

/-- Nothing comes in when time takes entries out. -/
theorem BlockQueue.Sound.contains_prune {q : BlockQueue} (h : q.Sound) (slot : Slot)
    {a : Attestation} (hnone : q.contains a = false) : (q.prune slot).value.contains a = false := by
  rw [Bool.eq_false_iff] at hnone ⊢
  intro hfound
  have hprune := h.prune slot
  obtain ⟨t, w, hw, hequal, hroot⟩ := ((hprune.sound h).contains_iff a).mp hfound
  exact hnone ((h.contains_iff a).mpr ⟨t, w, ((hprune.kept t w).mp hw).1, hequal, hroot⟩)

-- ========================================================== the manager

namespace Manager

variable {c : JudgeConfig} {features : Features} {m : Manager Judge} {s : Submission}
variable {slot : Slot}

/-- What a judge applies when the slot of one submission is over. -/
theorem applied_singleton (ledger : Ledger) (j : Judge) (s : Submission) :
    applied (Judge.processor c) ledger j [s] = j.recorded (ledger.get s).indexed := by
  unfold applied
  cases (ledger.get s).indexed with
  | none => rfl
  | some indexed => rfl

/-- What is submitted too early is put before the judge. -/
theorem contains_of_savedForFuture
    (h : (m.onAttestation (Judge.processor c) features s).value.2 = .savedForFuture) :
    m.untilBlock.contains s.attestation = false := by
  cases hwaiting : m.untilBlock.contains s.attestation with
  | false => rfl
  | true =>
      rw [onAttestation_waiting _ _ _ _ hwaiting] at h
      cases h

/-- Two epochs do not pass from an epoch to the next. -/
theorem not_passed {preset : Preset} {retentionEpochs : UInt64} {d : Slot}
    (hretention : 2 ≤ retentionEpochs)
    (hepoch : (Epoch.ofSlot preset slot).toNat ≤ (Epoch.ofSlot preset d).toNat + 1) :
    ¬d.toNat + preset.slotsPerEpoch.toNat * retentionEpochs.toNat < slot.toNat := by
  have htwo : 2 ≤ retentionEpochs.toNat := UInt64.le_iff_toNat_le.mp hretention
  have hwindow : preset.slotsPerEpoch.toNat * 2
      ≤ preset.slotsPerEpoch.toNat * retentionEpochs.toNat := Nat.mul_le_mul_left _ htwo
  unfold Epoch.ofSlot at hepoch
  rw [UInt64.toNat_div, UInt64.toNat_div] at hepoch
  cases preset with
  | mainnet =>
      change slot.toNat / 32 ≤ d.toNat / 32 + 1 at hepoch
      change 32 * 2 ≤ 32 * retentionEpochs.toNat at hwindow
      show ¬d.toNat + 32 * retentionEpochs.toNat < slot.toNat
      omega
  | minimal =>
      change slot.toNat / 8 ≤ d.toNat / 8 + 1 at hepoch
      change 8 * 2 ≤ 8 * retentionEpochs.toNat at hwindow
      show ¬d.toNat + 8 * retentionEpochs.toNat < slot.toNat
      omega

/-- A submission saved for a slot that then begins leaves what it leaves
when it comes after the beginning. -/
theorem saved_early_or_late (hqueue : m.untilBlock.Sound)
    (hfeatures : features.has .ignoreFutureAttestations = false) (hempty : m.untilSlot = {})
    (htidy : m.pool.Tidy)
    (hsame : ∀ g : Group, m.pool.groups[s.dataRoot]? = some g → g.data = s.data)
    (hretention : 2 ≤ m.pool.retentionEpochs)
    (hsaved : (m.onAttestation (Judge.processor c) features s).value.2 = .savedForFuture)
    (hover : s.data.slot < slot)
    (hepoch : (Epoch.ofSlot c.preset slot).toNat
      ≤ (Epoch.ofSlot c.preset s.data.slot).toNat + 1) :
    let early := after (Judge.shared c) m [.slot slot, .attestation features s]
    let late := after (Judge.shared c) m [.attestation features s, .slot slot]
    { early with metrics := late.metrics } = late := by
  intro early late
  let p := Judge.processor c
  have hnew := contains_of_savedForFuture hsaved
  have hkept : ∀ first, m.pool.firstKeptSlot? c.preset slot = some first → first ≤ s.data.slot :=
    fun first hfirst => UInt64.not_lt.mp fun hlt =>
      not_passed hretention hepoch (Pool.lt_firstKept_iff.mp ⟨first, hfirst, hlt⟩)
  obtain ⟨facts, hexamine, hearly, hprocess⟩ : ∃ facts,
      Judge.examine c features m.processor s (m.ledger.get s) = (facts, .ok ())
        ∧ m.processor.currentSlot ≤ s.data.slot
        ∧ (Judge.process c features m.processor s (m.ledger.get s)).value
          = (m.processor, facts, .savedForFuture) := by
    obtain ⟨metrics, hvalue⟩ := onAttestation_judged p features m s c.preset hnew rfl
    rw [hvalue] at hsaved
    exact Judge.process_savedForFuture hsaved
  -- first the submission, then the slot
  obtain ⟨_, hfirst⟩ := onAttestation_judged p features m s c.preset hnew hprocess
  obtain ⟨_, hthen⟩ := onSlot_value p (m.onAttestation p features s).value.1 c.preset slot
  have hearly' : early = _ := hthen
  rw [hfirst] at hearly'
  -- first the slot, then the submission
  obtain ⟨_, hbegin⟩ := onSlot_value p m c.preset slot
  have hnew' : (m.onSlot c.preset p slot).value.untilBlock.contains s.attestation = false := by
    rw [hbegin]
    exact hqueue.contains_prune slot hnew
  have hprocess' : (p.process features (m.onSlot c.preset p slot).value.processor s
        ((m.onSlot c.preset p slot).value.ledger.get s)).value
      = ((m.processor.onSlot slot).recorded facts.indexed, facts, .successful) := by
    rw [hbegin, hempty, SlotQueue.takeDue_empty]
    exact Judge.process_later hexamine hearly hover hepoch
  obtain ⟨_, hlast⟩ := onAttestation_judged p features _ s c.preset hnew' hprocess'
  have hlate : late = _ := congrArg Prod.fst hlast
  rw [hbegin, hempty, SlotQueue.takeDue_empty] at hlate
  rw [hearly', hlate]
  simp only [poolAfter, slotsAfter, queueAfter, networkAfter, hfeatures, Bool.false_eq_true, if_false]
  rw [hempty, SlotQueue.takeDue_add hover, applied_singleton, Ledger.get_put, if_pos rfl,
    htidy.add_slot hsame hkept facts]
  rfl

-- ================================================================ runs

/-- A submission that is saved for a later slot leaves, once that slot is
over, what it leaves when it comes then, metrics apart: if nothing else
waited for a slot, the new slot is in the epoch of the submission or the
next one, and the pool keeps attestations for two epochs at least. -/
theorem slot_early_or_late (c : JudgeConfig) (start : Manager Judge) (hstart : Fresh start)
    (hretention : 2 ≤ start.pool.retentionEpochs) (calls : List (Call Judge.Use))
    (features : Features) (hfeatures : features.has .ignoreFutureAttestations = false)
    (s : Submission) (slot : Slot)
    (hdistinct : Distinct (.attestation features s :: calls)) :
    let w := Judge.shared c
    let m := after w start calls
    m.untilSlot.isEmpty = true →
    (m.onAttestation w.processor features s).value.2 = .savedForFuture →
    s.data.slot < slot →
    (Epoch.ofSlot c.preset slot).toNat ≤ (Epoch.ofSlot c.preset s.data.slot).toNat + 1 →
    let early := after w m [.slot slot, .attestation features s]
    let late := after w m [.attestation features s, .slot slot]
    { early with metrics := late.metrics } = late := by
  intro w m hempty hsaved hover hepoch
  have hnone : m.untilSlot = {} :=
    congrArg SlotQueue.mk (Std.ExtTreeMap.isEmpty_iff.mp hempty)
  let S : Submission → Prop := (· ∈ handedIn (.attestation features s :: calls))
  have hs : S s := List.mem_append_left _ List.mem_cons_self
  obtain ⟨retentionEpochs, hpool, hkept⟩ := hstart.supplied_after (S := S) w
    fun s' hs' => List.mem_append_right _ hs'
  change Supplied c.preset retentionEpochs S m at hkept
  obtain ⟨htidy, hsame⟩ := hkept.tidy fun s' s'' hs' hs'' => hdistinct s' hs' s'' hs''
  have hlong : 2 ≤ m.pool.retentionEpochs := by
    obtain ⟨poolCalls, hafter, -⟩ := hkept.pool
    rw [hpool] at hretention
    rw [hafter, Pool.retentionEpochs_after]
    exact hretention
  exact saved_early_or_late hkept.sound hfeatures hnone htidy (hsame s hs) hlong hsaved hover hepoch

/-- A vote is saved until the next epoch, or comes then. An older one is
dropped from the pool in between. -/
theorem slot_early_or_late_plain :
    let w := Judge.shared plainJudge
    let old := plainVote 0 1 firstBlock.hashTreeRoot
    let vote := plainVote 1 9 firstBlock.hashTreeRoot
    let calls : List (Call Judge.Use) :=
      .slot 9 :: .pool (.add old { seed := some 0 }) :: prelude
    let m := after w plainStart calls
    let early := after w m [.slot 23, .attestation {} vote]
    let late := after w m [.attestation {} vote, .slot 23]
    (Distinct (.attestation {} vote :: calls)
        ∧ m.untilSlot.isEmpty = true
        ∧ (m.onAttestation w.processor {} vote).value.2 = .savedForFuture
        ∧ m.pool.size = 1
        ∧ early.pool.stored = [vote]
        ∧ early.processor.store.votes.trackers.size = 1
        ∧ early.outbox = [.attestation vote])
      ∧ { early with metrics := late.metrics } = late := by
  refine (and_iff_left_of_imp fun hseen =>
    slot_early_or_late plainJudge plainStart fresh_plainStart (by decide)
      (.slot 9 :: .pool (.add (plainVote 0 1 firstBlock.hashTreeRoot) { seed := some 0 })
        :: prelude)
      {} rfl (plainVote 1 9 firstBlock.hashTreeRoot) 23 hseen.1 hseen.2.1 hseen.2.2.1 (by decide)
      (by decide)).mpr ?_
  decide +kernel

end Manager

end ChainHead
