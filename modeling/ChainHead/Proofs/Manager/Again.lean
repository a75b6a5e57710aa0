/-
Submissions equal to one that waits.

An attestation that waits for a block is turned away when it is handed
in again, and nothing changes. One that waits for a slot is not looked
for; it is put before the judge once more. Its slot is not over, because
what is over was taken out when the clock got there (`Punctual`). So no
vote is recorded and nothing is handed to the network. It was handed to
the pool when it was saved, and unless something is taken out there the
pool refuses it from then on (`Settled`). But if the verdict is again
that it has to wait, then it waits twice (`resubmitted`).
-/
import ChainHead.Proofs.Manager.Answers
import ChainHead.Proofs.Pool.Refusal
import ChainHead.Proofs.Queue.Slots

namespace ChainHead.Manager

variable {m : Manager Judge} {s : Submission}
variable {preset : Preset} {retentionEpochs : UInt64} {S : Submission → Prop}

-- ============================================================== one step

/-- What a submission does to the queue for slots and the pool. -/
inductive Step (preset : Preset) (features : Features) (s : Submission) (m m' : Manager Judge) :
    Verdict → Prop
  /-- Its slot is not over, and it is saved and pooled with a seed. -/
  | saved {v : Verdict} {facts : Facts} {seed : Root} (h : Saves features v)
      (hearly : m.processor.currentSlot ≤ s.data.slot) (hqueue : m'.untilSlot = m.untilSlot.add s)
      (hseed : facts.seed = some seed) (hpool : m'.pool = m.pool.call preset (.add s facts)) :
      Step preset features s m m' v
  | pooled {v : Verdict} {facts : Facts} (h : ¬Saves features v)
      (hqueue : m'.untilSlot = m.untilSlot) (hpool : m'.pool = m.pool.call preset (.add s facts)) :
      Step preset features s m m' v
  | passed {v : Verdict} (h : ¬Saves features v) (hqueue : m'.untilSlot = m.untilSlot)
      (hpool : m'.pool = m.pool) : Step preset features s m m' v

theorem onAttestation_step (c : JudgeConfig) (features : Features) (m : Manager Judge)
    (s : Submission) :
    Step c.preset features s m (m.onAttestation (Judge.processor c) features s).value.1
      (m.onAttestation (Judge.processor c) features s).value.2 := by
  rcases onAttestation_cases (Judge.processor c) features m s c.preset with
    heq | ⟨j, facts, v, metrics, hprocess, heq⟩
  · rw [heq]
    exact .passed (fun h => nomatch h.1) rfl rfl
  · rw [heq]
    rcases saves_cases features s c.preset m.pool m.untilSlot facts v with
      ⟨hsaves, hqueue, hpool⟩ | ⟨hnot, hqueue, hpool | hpool⟩
    · have hverdict := (congrArg (·.2.2) hprocess).trans hsaves.1
      obtain ⟨facts', hexamine, hearly, hvalue⟩ := Judge.process_savedForFuture hverdict
      obtain ⟨-, hsome⟩ := Judge.complete_of_checkVoters (Judge.examine_eq_ok.mp hexamine).2.2.2
      obtain ⟨seed, hseed⟩ := Option.isSome_iff_exists.mp hsome
      have hfacts : facts = facts' := congrArg (·.2.1) (hprocess.symm.trans hvalue)
      exact .saved hsaves hearly hqueue (hfacts ▸ hseed) hpool
    · exact .passed hnot hqueue hpool
    · exact .pooled hnot hqueue hpool

/-- No submission moves the clock. -/
theorem currentSlot_onAttestation (c : JudgeConfig) (features : Features) (m : Manager Judge)
    (s : Submission) :
    (m.onAttestation (Judge.processor c) features s).value.1.processor.currentSlot
      = m.processor.currentSlot := by
  rcases onAttestation_cases (Judge.processor c) features m s c.preset with
    heq | ⟨j, facts, v, metrics, hprocess, heq⟩
  · rw [heq]
  · rw [heq]
    have hclock := Judge.currentSlot_process c features m.processor s (m.ledger.get s)
    change (Judge.process c features m.processor s (m.ledger.get s)).value = _ at hprocess
    rw [hprocess] at hclock
    exact hclock

-- ============================================================ the clock

/-- Whether the slot of nothing that waits for it is over. -/
structure Punctual (m : Manager Judge) : Prop where
  filed : m.untilSlot.Sound
  ahead : ∀ s ∈ m.untilSlot.waiting, m.processor.currentSlot ≤ s.data.slot

theorem Punctual.congr {m' : Manager Judge} (h : Punctual m) (hqueue : m'.untilSlot = m.untilSlot)
    (hclock : m'.processor.currentSlot = m.processor.currentSlot) : Punctual m' where
  filed := hqueue ▸ h.filed
  ahead s hs := hclock.trans_le (h.ahead s (hqueue ▸ hs))

theorem keeps_punctual (c : JudgeConfig) :
    Keeps (Judge.setting c) (fun _ => True) Punctual where
  attestation features m s _ h := by
    have hclock := currentSlot_onAttestation c features m s
    cases onAttestation_step c features m s with
    | passed _ hqueue _ => exact h.congr hqueue hclock
    | pooled _ hqueue _ => exact h.congr hqueue hclock
    | saved _ hearly hqueue _ _ =>
        refine ⟨?_, fun s' hs' => hclock.trans_le ?_⟩
        · show SlotQueue.Sound (m.onAttestation (Judge.processor c) features s).value.1.untilSlot
          rw [hqueue]
          exact h.filed.add s
        · change s' ∈ (m.onAttestation (Judge.processor c) features s).value.1.untilSlot.waiting at hs'
          rw [hqueue, (m.untilSlot.waiting_add s).mem_iff] at hs'
          rcases List.mem_cons.mp hs' with rfl | hold
          · exact hearly
          · exact h.ahead s' hold
  taken m root h := ⟨fun _ _ _ => trivial, h.filed, h.ahead⟩
  slot m slot _ h := by
    obtain ⟨metrics, hvalue⟩ := m.onSlot_value (Judge.processor c) c.preset slot
    show Punctual (m.onSlot c.preset (Judge.processor c) slot).value
    rw [hvalue]
    refine ⟨h.filed.takeDue slot, fun s hs => ?_⟩
    obtain ⟨hold, hdue⟩ := h.filed.mem_waiting_takeDue.mp hs
    refine (Judge.currentSlot_applied c m.ledger _ _).trans_le ?_
    show (Judge.onSlot m.processor slot).currentSlot ≤ s.data.slot
    rw [UInt64.le_iff_toNat_le, Judge.toNat_onSlot]
    exact Nat.max_le.mpr
      ⟨UInt64.le_iff_toNat_le.mp (h.ahead s hold), UInt64.le_iff_toNat_le.mp hdue⟩
  pool m c _ h := ⟨h.filed, h.ahead⟩
  meanwhile m e _ h := ⟨h.filed, h.ahead⟩

-- ============================================================= the pool

/-- Whether what waits for a slot was handed in, and the pool would not
take it in again. -/
structure Settled (preset : Preset) (retentionEpochs : UInt64) (S : Submission → Prop)
    (m : Manager Judge) : Prop where
  punctual : Punctual m
  supplied : Supplied preset retentionEpochs S m
  refused : ∀ s ∈ m.untilSlot.waiting, S s ∧ m.pool.Refuses s.attestation

/-- As long as nothing is taken out of the pool that is not too old. -/
theorem keeps_settled (c : JudgeConfig) (retentionEpochs : UInt64)
    (hdistinct : ∀ s s', S s → S s' → s.dataRoot = s'.dataRoot → s.data = s'.data) :
    Keeps (Judge.setting c) (fun call => (∀ s ∈ call.handsIn, S s) ∧ call.spares = true)
      (Settled c.preset retentionEpochs S) where
  attestation features m s hcall h := by
    let w := Judge.setting c
    refine ⟨(keeps_punctual c).attestation features m s trivial h.punctual,
      (keeps_supplied w retentionEpochs S).attestation features m s hcall.1 h.supplied,
      fun s' hs' => ?_⟩
    change s' ∈ (m.onAttestation (Judge.processor c) features s).value.1.untilSlot.waiting at hs'
    show S s' ∧ (m.onAttestation (Judge.processor c) features s).value.1.pool.Refuses s'.attestation
    cases onAttestation_step c features m s with
    | passed _ hqueue hpool =>
        rw [hqueue] at hs'
        rw [hpool]
        exact h.refused s' hs'
    | pooled _ hqueue hpool =>
        rw [hqueue] at hs'
        rw [hpool]
        exact (h.refused s' hs').imp_right fun hrefuses => hrefuses.call_add _ _ _
    | saved _ _ hqueue hseed hpool =>
        rw [hqueue, (m.untilSlot.waiting_add s).mem_iff] at hs'
        rw [hpool]
        rcases List.mem_cons.mp hs' with rfl | hold
        · exact ⟨hcall.1 s' List.mem_cons_self, Pool.refuses_call_add _ _ _ hseed⟩
        · exact (h.refused s' hold).imp_right fun hrefuses => hrefuses.call_add _ _ _
  taken m root h := by
    obtain ⟨hs, htaken⟩ := (keeps_supplied (Judge.setting c) retentionEpochs S).taken m root
      h.supplied
    exact ⟨fun s hin features => ⟨hs s hin features, rfl⟩,
      ⟨h.punctual.filed, h.punctual.ahead⟩, htaken, h.refused⟩
  slot m slot hcall h := by
    refine ⟨(keeps_punctual c).slot m slot trivial h.punctual,
      (keeps_supplied (Judge.setting c) retentionEpochs S).slot m slot hcall.1 h.supplied, ?_⟩
    obtain ⟨metrics, hvalue⟩ := m.onSlot_value (Judge.processor c) c.preset slot
    show ∀ s ∈ (m.onSlot c.preset (Judge.processor c) slot).value.untilSlot.waiting,
      S s ∧ (m.onSlot c.preset (Judge.processor c) slot).value.pool.Refuses s.attestation
    rw [hvalue]
    intro s hs
    obtain ⟨hold, hdue⟩ := h.punctual.filed.mem_waiting_takeDue.mp hs
    obtain ⟨hhanded, hrefuses⟩ := h.refused s hold
    obtain ⟨htidy, hsame⟩ := h.supplied.tidy hdistinct
    exact ⟨hhanded, htidy.refuses_call_slot hrefuses (hsame s hhanded) hdue⟩
  pool m call hcall h := by
    refine ⟨⟨h.punctual.filed, h.punctual.ahead⟩,
      (keeps_supplied (Judge.setting c) retentionEpochs S).pool m call hcall.1 h.supplied, ?_⟩
    cases call with
    | add s facts =>
        exact fun s' hs' => (h.refused s' hs').imp_right fun hrefuses =>
          hrefuses.call_add c.preset s facts
    | remove a => exact nomatch hcall.2
    | removeAll as => exact nomatch hcall.2
    | slot slot => exact nomatch hcall.2
  meanwhile m e hcall h :=
    ⟨⟨h.punctual.filed, h.punctual.ahead⟩, h.supplied.congr rfl rfl, h.refused⟩

theorem Fresh.settled {m : Manager Judge} (h : Fresh m) (preset : Preset)
    (S : Submission → Prop) : ∃ retentionEpochs, Settled preset retentionEpochs S m := by
  obtain ⟨retentionEpochs, -, hsupplied⟩ := h.supplied preset S
  have hnone : ∀ s, s ∉ m.untilSlot.waiting := by
    rw [h.untilSlot]
    exact fun s hs => List.not_mem_nil hs
  refine ⟨retentionEpochs, ⟨?_, fun s hs => absurd hs (hnone s)⟩, hsupplied,
    fun s hs => absurd hs (hnone s)⟩
  rw [h.untilSlot]
  exact SlotQueue.sound_empty

-- ============================================================ once more

/-- What waits for a slot that is not over is put before the judge, which
records no vote. -/
theorem onAttestation_early (c : JudgeConfig) (features : Features)
    (hearly : m.processor.currentSlot ≤ s.data.slot) :
    let result := (m.onAttestation (Judge.processor c) features s).value
    result.1.processor = m.processor ∧ result.1.outbox = m.outbox := by
  intro result
  rcases onAttestation_cases (Judge.processor c) features m s c.preset with
    heq | ⟨j, facts, v, metrics, hprocess, heq⟩
  · have hresult : result = _ := heq
    rw [hresult]
    exact ⟨rfl, rfl⟩
  · have hresult : result = _ := heq
    obtain ⟨hstate, hverdict⟩ := Judge.process_early c features (m.ledger.get s) hearly
    change (Judge.process c features m.processor s (m.ledger.get s)).value = _ at hprocess
    rw [hprocess] at hstate hverdict
    rw [hresult]
    refine ⟨hstate, ?_⟩
    cases v with
    | successful => exact absurd rfl hverdict
    | unknownBlock root => rfl
    | savedForFuture => rfl
    | invalid reason => rfl

/-- Whose target and head are in the store does not wait for a block. -/
theorem untilBlock_onAttestation (c : JudgeConfig) (features : Features)
    (htarget : m.knows s.data.target.root) (hhead : m.knows s.data.beaconBlockRoot) :
    (m.onAttestation (Judge.processor c) features s).value.1.untilBlock = m.untilBlock := by
  rcases onAttestation_cases (Judge.processor c) features m s c.preset with
    heq | ⟨j, facts, v, metrics, hprocess, heq⟩
  · rw [heq]
  · rw [heq]
    cases v with
    | successful => rfl
    | savedForFuture => rfl
    | invalid reason => rfl
    | unknownBlock root =>
        have hverdict := congrArg (·.2.2) hprocess
        obtain ⟨hown, hmissing⟩ :=
          Judge.missingBlock?_eq_some (Judge.process_unknownBlock hverdict)
        have hunknown : ¬m.knows root := ne_true_of_eq_false hmissing
        rcases hown with rfl | rfl
        · exact absurd htarget hunknown
        · exact absurd hhead hunknown

/-- A pool of what was handed in stays as it is if it refuses a submission. -/
theorem pool_onAttestation (c : JudgeConfig) (features : Features)
    (h : Supplied preset retentionEpochs S m)
    (hdistinct : ∀ s s', S s → S s' → s.dataRoot = s'.dataRoot → s.data = s'.data)
    (hs : S s) (hrefuses : m.pool.Tidy → m.pool.Refuses s.attestation) :
    (m.onAttestation (Judge.processor c) features s).value.1.pool = m.pool := by
  obtain ⟨htidy, hsame⟩ := h.tidy hdistinct
  have hgauges : m.pool.updateMetrics = m.pool := by
    obtain ⟨calls, hafter, -⟩ := h.pool
    rw [hafter]
    exact Pool.updateMetrics_after preset retentionEpochs calls
  have hadd (facts : Facts) :=
    htidy.call_add_refused hgauges (hsame s hs) (hrefuses htidy) c.preset facts
  cases onAttestation_step c features m s with
  | passed _ _ hpool => exact hpool
  | pooled _ _ hpool => exact hpool.trans (hadd _)
  | saved _ _ _ _ hpool => exact hpool.trans (hadd _)

-- ================================================================ runs

/-- Handed in again, an attestation that waits for a block changes
nothing. One that waits for a slot leaves the votes and the network
alone. It is not put behind a block as long as its own are in the store,
and it does not change the pool if this holds an equal one or nothing was
taken out of it. But if it is saved again, then it waits once more. -/
theorem resubmitted (c : JudgeConfig) (start : Manager Judge) (hstart : Fresh start)
    (occasions : List (Occasion Judge.StateSource Store.Call)) (stateAt : Judge.StateSource)
    (features : Features) (s : Submission) :
    let m := afterAll (Judge.settingAt c) start occasions
    let result := (m.onAttestation (Judge.processorAt c stateAt) features s).value
    ((∃ (t : Ticket) (w : Waiting), m.untilBlock.entries[t]? = some w
        ∧ w.submission.attestation = s.attestation) →
      result = (m, .unknownBlock s.data.beaconBlockRoot))
    ∧ ((∃ s' ∈ m.untilSlot.waiting, s'.attestation = s.attestation) →
      (result.1.processor = m.processor ∧ result.1.outbox = m.outbox)
        ∧ (m.knows s.data.target.root → m.knows s.data.beaconBlockRoot →
            result.1.untilBlock = m.untilBlock)
        ∧ (Distinct (.attestation features s :: occasions.map (·.call)) →
            (∃ s' ∈ m.pool.stored, s'.attestation = s.attestation)
              ∨ (∀ o ∈ occasions, o.call.spares = true) → result.1.pool = m.pool)
        ∧ (¬Saves features result.2 → result.1.untilSlot = m.untilSlot)
        ∧ (Saves features result.2 →
            result.1.untilSlot.waiting.Perm (s :: m.untilSlot.waiting))) := by
  intro m result
  let S : Submission → Prop := (· ∈ handedIn (.attestation features s :: occasions.map (·.call)))
  have hcalls : ∀ o ∈ occasions, ∀ s' ∈ o.call.handsIn, S s' := fun o ho s' hs' =>
    List.mem_append_right _
      (List.mem_flatMap.mpr ⟨o.call, List.mem_map_of_mem ho, hs'⟩)
  obtain ⟨retentionEpochs, hfresh⟩ := hstart.settled c.preset S
  refine ⟨fun hwaiting => ?_, fun ⟨s', hs', hequal⟩ => ?_⟩
  · obtain ⟨capacity, retention, hqueue⟩ := hstart.untilBlock
    have hparked := parked_after c start capacity retention occasions
    have hempty : start.withQueue capacity retention = start := by
      unfold withQueue
      rw [← hqueue]
    rw [hempty] at hparked
    exact onAttestation_waiting _ _ _ _ ((hparked.contains_iff s.attestation).mpr hwaiting)
  · have hdata : s'.data = s.data := congrArg Attestation.data hequal
    have hpunctual : Punctual m := keeps_afterAll
      (fun stateAt => keeps_punctual { c with stateAt }) hfresh.punctual fun _ _ => trivial
    have hearly : m.processor.currentSlot ≤ s.data.slot := by
      rw [← hdata]
      exact hpunctual.ahead s' hs'
    refine ⟨onAttestation_early { c with stateAt } features hearly,
      fun htarget hhead => untilBlock_onAttestation { c with stateAt } features htarget hhead,
      fun hdistinct hpool => ?_, ?_⟩
    · have hroots : ∀ s' s'', S s' → S s'' → s'.dataRoot = s''.dataRoot → s'.data = s''.data :=
        fun s' s'' hs' hs'' => hdistinct s' hs' s'' hs''
      have hsupplied : Supplied c.preset retentionEpochs S m := keeps_afterAll
        (fun stateAt => keeps_supplied (Judge.settingAt c stateAt) retentionEpochs S)
        hfresh.supplied hcalls
      refine pool_onAttestation { c with stateAt } features hsupplied hroots
        (List.mem_append_left _ List.mem_cons_self) fun htidy => ?_
      rcases hpool with ⟨stored, hstored, hequal⟩ | hspared
      · exact hequal ▸ Pool.refuses_of_stored htidy hstored
      · have hsettled : Settled c.preset retentionEpochs S m := keeps_afterAll
          (fun stateAt => keeps_settled { c with stateAt } retentionEpochs hroots) hfresh
          fun o ho => ⟨hcalls o ho, hspared o ho⟩
        exact hequal ▸ (hsettled.refused s' hs').2
    · cases onAttestation_step { c with stateAt } features m s with
      | passed hnot hqueue _ => exact ⟨fun _ => hqueue, fun hsaves => absurd hsaves hnot⟩
      | pooled hnot hqueue _ => exact ⟨fun _ => hqueue, fun hsaves => absurd hsaves hnot⟩
      | saved hsaves _ hqueue _ _ =>
          exact ⟨fun hnot => absurd hsaves hnot, fun _ => hqueue ▸ m.untilSlot.waiting_add s⟩

/-- The first block arrives, and then a submission. -/
def openingWith (s : Submission) : List (Occasion Judge.StateSource Store.Call) :=
  seen (.attestation {} s) :: openingSeen

/-- A vote is handed in after the first block, and from somebody else once
more. A vote for the second block is turned away then, also while no state
can be looked up; a vote for the first, whose slot is not over, waits
twice. -/
theorem resubmitted_plainVote :
    let orphan := plainVote 1 1 secondBlock.hashTreeRoot
    let m := afterAll (Judge.settingAt plainJudge) plainStart
      (openingWith (plainVote 0 1 secondBlock.hashTreeRoot))
    let early := plainVote 1 2 firstBlock.hashTreeRoot
    let m' := afterAll (Judge.settingAt plainJudge) plainStart
      (openingWith (plainVote 0 2 firstBlock.hashTreeRoot))
    let result := (m'.onAttestation (Judge.processorAt plainJudge plainJudge.stateAt) {} early).value
    ((∃ e ∈ m.untilBlock.entries.toList, e.2.submission.attestation = orphan.attestation)
        ∧ (∃ s ∈ m'.untilSlot.waiting, s.attestation = early.attestation)
        ∧ m'.knows early.data.target.root ∧ m'.knows early.data.beaconBlockRoot
        ∧ Saves {} result.2)
      ∧ (m.onAttestation (Judge.processorAt plainJudge unseen) {} orphan).value
          = (m, .unknownBlock orphan.data.beaconBlockRoot)
        ∧ (result.1.processor = m'.processor ∧ result.1.outbox = m'.outbox)
        ∧ result.1.untilBlock = m'.untilBlock ∧ result.1.pool = m'.pool
        ∧ result.1.untilSlot.waiting.Perm (early :: m'.untilSlot.waiting) := by
  refine (and_iff_left_of_imp fun ⟨⟨(t, entry), hlisted, hequal⟩, hsaved, htarget, hhead,
    hsaves⟩ => ?_).mpr (by decide +kernel)
  have hentry := Std.ExtTreeMap.mem_toList_iff_getElem?_eq_some.mp hlisted
  obtain ⟨hturned, -⟩ := resubmitted plainJudge plainStart fresh_plainStart
    (openingWith (plainVote 0 1 secondBlock.hashTreeRoot)) unseen {}
    (plainVote 1 1 secondBlock.hashTreeRoot)
  obtain ⟨-, hagain⟩ := resubmitted plainJudge plainStart fresh_plainStart
    (openingWith (plainVote 0 2 firstBlock.hashTreeRoot)) plainJudge.stateAt {}
    (plainVote 1 2 firstBlock.hashTreeRoot)
  obtain ⟨hkept, hqueue, hpool, -, htwice⟩ := hagain hsaved
  have hdistinct : Distinct (.attestation {} (plainVote 1 2 firstBlock.hashTreeRoot)
      :: (openingWith (plainVote 0 2 firstBlock.hashTreeRoot)).map (·.call)) :=
    distinct_of_data (List.forall_mem_cons.mpr ⟨rfl, List.forall_mem_singleton.mpr rfl⟩)
  have hspared : ∀ o ∈ openingWith (plainVote 0 2 firstBlock.hashTreeRoot),
      o.call.spares = true := by
    simp [openingWith, openingSeen, opening, seen, Call.spares]
  exact ⟨hturned ⟨t, entry, hentry, hequal⟩, hkept, hqueue htarget hhead,
    hpool hdistinct (.inr hspared), htwice hsaves⟩

/-- The queue for slots has two entries where there was one. -/
theorem waits_twice :
    let vote := plainVote 0 2 firstBlock.hashTreeRoot
    let m := afterAll (Judge.settingAt plainJudge) plainStart (openingWith vote)
    let result := (m.onAttestation (Judge.processor plainJudge) {} vote).value
    m.untilSlot.waiting = [vote] ∧ result.1.untilSlot.waiting = [vote, vote] := by
  decide +kernel

end ChainHead.Manager
