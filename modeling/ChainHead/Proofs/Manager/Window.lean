/-
The pool of a manager holds no slot that is too old or too far ahead.

Two rules of different grain meet here. A judge looks at epochs: the
target of what it accepts is in the current epoch or the previous one.
The pool looks at slots: it drops what is older than its window when a
slot begins. Two epochs are just long enough for the first rule to imply
the second (`Judge.inWindow_of_checkTime`), so nothing is taken in that
would be dropped at once.

The clock never goes back, but slots may begin in any order: an old one
moves neither the clock nor what the window of a later slot has left
(`Judge.inWindow_onSlot`).
-/
import ChainHead.Proofs.Manager.Tick
import ChainHead.Proofs.Pool.Refusal
import ChainHead.Proofs.Pool.Window

namespace ChainHead

-- ============================================== statement vocabulary

/-- Whether a slot is neither older than the window of a pool nor too far
ahead of the clock. -/
structure InWindow (preset : Preset) (retentionEpochs maxFutureSlots : UInt64)
    (now slot : Slot) : Prop where
  young : now.toNat - preset.slotsPerEpoch.toNat * retentionEpochs.toNat ≤ slot.toNat
  near : slot.toNat ≤ now.toNat + maxFutureSlots.toNat

namespace Manager

/-- Whether nobody but the manager adds to its pool with a call. -/
def Call.addsNothing {ε : Type} : Call ε → Bool
  | .pool (.add _ _) => false
  | _ => true

end Manager

namespace Judge

variable {c : JudgeConfig} {features : Features} {j : Judge} {s : Submission} {a : Attestation}
variable {facts facts' : Facts} {state : Judge} {v : Verdict}
variable {preset : Preset} {retentionEpochs ahead : UInt64}
variable {now slot later : Slot}

-- ============================================================ the window

/-- What passes the checks against the clock is in the window of a pool
that keeps attestations for two epochs. -/
theorem inWindow_of_checkTime (hretention : 2 ≤ retentionEpochs)
    (h : checkTime c now a = .ok ()) :
    InWindow c.preset retentionEpochs c.maxFutureSlots now a.data.slot := by
  rw [checkTime_eq] at h
  split_ifs at h with htarget hbits hahead hold
  rw [UInt64.lt_iff_toNat_lt, Word.toNat_addSat] at hahead
  have hslot := a.data.slot.toNat_lt
  -- the epoch is the current or the previous one
  have hepoch : (Epoch.ofSlot c.preset now).toNat
      ≤ (Epoch.ofSlot c.preset a.data.slot).toNat + 1 := by
    rw [not_not.mp htarget, UInt64.lt_iff_toNat_lt, Word.toNat_subSat] at hold
    change ¬_ < _ - 1 at hold
    omega
  have hpassed := Manager.not_passed hretention hepoch
  exact ⟨by omega, by omega⟩

/-- What is accepted passed the checks against the clock. -/
theorem checkTime_of_accepted (h : (process c features j s facts).value = (state, facts', v))
    (haccepted : v = .successful ∨ v = .savedForFuture) :
    checkTime c j.currentSlot s.attestation = .ok () := by
  rcases haccepted with rfl | rfl
  · obtain ⟨_, hexamine, -⟩ := process_successful (congrArg (fun r => r.2.2) h)
    exact (examine_eq_ok.mp hexamine).1
  · obtain ⟨_, hexamine, -⟩ := process_savedForFuture (congrArg (fun r => r.2.2) h)
    exact (examine_eq_ok.mp hexamine).1

/-- A slot that begins leaves in the window what the pool keeps. -/
theorem inWindow_onSlot (h : InWindow preset retentionEpochs ahead j.currentSlot slot)
    (hkept : later.toNat ≤ slot.toNat + preset.slotsPerEpoch.toNat * retentionEpochs.toNat) :
    InWindow preset retentionEpochs ahead (j.onSlot later).currentSlot slot := by
  have hnear := h.near
  have hyoung := h.young
  have hclock := j.toNat_onSlot later
  exact ⟨by omega, by omega⟩

end Judge

namespace Manager

variable {c : JudgeConfig} {m start : Manager Judge}
variable {preset : Preset} {retentionEpochs ahead : UInt64}

-- ========================================================= the invariant

/-- Whether the index of the pool lists its groups, and only at slots in
the window, and its gauges are right. -/
structure Windowed (preset : Preset) (retentionEpochs ahead : UInt64) (m : Manager Judge) :
    Prop where
  retention : m.pool.retentionEpochs = retentionEpochs
  gauges : m.pool.updateMetrics = m.pool
  listed : m.pool.Listed
  slots : ∀ slot ∈ m.pool.slots,
    InWindow preset retentionEpochs ahead m.processor.currentSlot slot

namespace Windowed

theorem congr {m' : Manager Judge} (h : Windowed preset retentionEpochs ahead m)
    (hpool : m'.pool = m.pool) (hclock : m'.processor.currentSlot = m.processor.currentSlot) :
    Windowed preset retentionEpochs ahead m' where
  retention := hpool ▸ h.retention
  gauges := hpool ▸ h.gauges
  listed := hpool ▸ h.listed
  slots := by
    rw [hpool, hclock]
    exact h.slots

/-- Only what is added can spoil the window, as long as no slot begins. -/
theorem pool_call (h : Windowed preset retentionEpochs ahead m) {call : Pool.Call}
    (hadd : ∀ s facts, call = .add s facts →
      InWindow preset retentionEpochs ahead m.processor.currentSlot s.data.slot) :
    Windowed preset retentionEpochs ahead { m with pool := m.pool.call preset call } where
  retention := (m.pool.retentionEpochs_call preset call).trans h.retention
  gauges := Pool.updateMetrics_call h.gauges preset call
  listed := h.listed.call preset call
  slots := by
    intro slot hslot
    rcases Pool.mem_slots_call hslot with ⟨hold, -⟩ | ⟨s, facts, hcall, rfl⟩
    · exact h.slots slot hold
    · exact hadd s facts hcall

theorem pooled (h : Windowed c.preset retentionEpochs c.maxFutureSlots m)
    (hretention : 2 ≤ retentionEpochs)
    {features : Features} {s : Submission} {facts facts' : Facts} {state : Judge} {v : Verdict}
    (hprocess : (Judge.process c features m.processor s facts).value = (state, facts', v)) :
    Windowed c.preset retentionEpochs c.maxFutureSlots
      { m with pool := poolAfter features s c.preset m.pool facts' v } := by
  have hadd : v = .successful ∨ v = .savedForFuture →
      Windowed c.preset retentionEpochs c.maxFutureSlots
        { m with pool := m.pool.call c.preset (.add s facts') } := by
    refine fun haccepted => h.pool_call fun s' _ hcall => ?_
    obtain ⟨rfl, -⟩ := Pool.Call.add.inj hcall
    exact Judge.inWindow_of_checkTime hretention (Judge.checkTime_of_accepted hprocess haccepted)
  cases v with
  | successful => exact hadd (Or.inl rfl)
  | unknownBlock root => exact h
  | savedForFuture =>
      unfold poolAfter
      dsimp only
      split
      case isTrue => exact h
      case isFalse => exact hadd (Or.inr rfl)
  | invalid reason => exact h

end Windowed

/-- Managers keep the window, if nobody else adds to the pool. -/
theorem keeps_windowed (c : JudgeConfig) (hretention : 2 ≤ retentionEpochs) :
    Keeps (Judge.setting c) (·.addsNothing = true)
      (Windowed c.preset retentionEpochs c.maxFutureSlots) where
  attestation features m s _ h := by
    rcases onAttestation_cases (Judge.processor c) features m s c.preset with
      heq | ⟨state, facts, v, metrics, hprocess, heq⟩
    · show Windowed c.preset retentionEpochs c.maxFutureSlots
        (m.onAttestation (Judge.processor c) features s).value.1
      rw [heq]
      exact h
    · show Windowed c.preset retentionEpochs c.maxFutureSlots
        (m.onAttestation (Judge.processor c) features s).value.1
      have hclock := Judge.currentSlot_process c features m.processor s (m.ledger.get s)
      change (Judge.process c features m.processor s (m.ledger.get s)).value = _ at hprocess
      rw [hprocess] at hclock
      rw [heq]
      exact (h.pooled hretention hprocess).congr rfl hclock
  taken m root h := ⟨fun _ _ _ => rfl, h.congr rfl rfl⟩
  slot m slot _ h := by
    obtain ⟨metrics, hvalue⟩ := m.onSlot_value (Judge.processor c) c.preset slot
    show Windowed c.preset retentionEpochs c.maxFutureSlots
      (m.onSlot c.preset (Judge.processor c) slot).value
    rw [hvalue]
    have hclock := Judge.currentSlot_applied c m.ledger (m.processor.onSlot slot)
      (m.untilSlot.takeDue slot).2
    refine ⟨(m.pool.retentionEpochs_call c.preset _).trans h.retention,
      Pool.updateMetrics_call h.gauges c.preset _, h.listed.call c.preset _, fun held hheld => ?_⟩
    rcases Pool.mem_slots_call hheld with ⟨hold, hkept⟩ | ⟨s, facts, hcall, -⟩
    · have hin := Judge.inWindow_onSlot (h.slots held hold) (h.retention ▸ hkept slot rfl)
      rw [← hclock] at hin
      exact hin
    · cases hcall
  pool m call hcall h := h.pool_call fun s facts heq => by
    rw [heq] at hcall
    cases hcall
  meanwhile m e _ h := h.congr rfl rfl

theorem windowed_empty (hstart : start.pool = { retentionEpochs }) :
    Windowed preset retentionEpochs ahead start := by
  refine ⟨by rw [hstart], by rw [hstart]; rfl, ?_, ?_⟩
  · rw [hstart]
    exact Pool.listed_empty retentionEpochs
  · rw [hstart]
    intro slot hslot
    simp at hslot

-- ================================================================ runs

/-- If a pool that keeps attestations for two epochs at least is filled by
its manager alone, then at all times its groups have slots in the window,
and so has what is accepted; nothing would be dropped if the current slot
began again, and there are no more slots than fit in the window. -/
theorem pool_within_window (c : JudgeConfig) (start : Manager Judge) (retentionEpochs : UInt64)
    (hstart : start.pool = { retentionEpochs }) (hretention : 2 ≤ retentionEpochs)
    (occasions : List (Occasion Judge.StateSource Store.Call))
    (hcalls : ∀ o ∈ occasions, o.call.addsNothing = true) :
    let m := afterAll (Judge.settingAt c) start occasions
    let now := m.processor.currentSlot
    let window := InWindow c.preset retentionEpochs c.maxFutureSlots now
    (∀ (root : Root) (g : Group), m.pool.groups[root]? = some g → ∀ slot ∈ g.slots, window slot)
      ∧ (∀ stateAt features s,
        let verdict := (m.onAttestation (Judge.processorAt c stateAt) features s).value.2
        verdict = .successful ∨ verdict = .savedForFuture → window s.data.slot)
      ∧ (m.pool.onSlot c.preset now).value = m.pool
      ∧ (m.pool.groups.toList.map fun entry => entry.2.data.slot).toFinset.card
        ≤ c.preset.slotsPerEpoch.toNat * retentionEpochs.toNat + c.maxFutureSlots.toNat + 1 := by
  intro m now window
  have h : Windowed c.preset retentionEpochs c.maxFutureSlots m := keeps_afterAll
    (fun stateAt => keeps_windowed { c with stateAt } hretention) (windowed_empty hstart) hcalls
  refine ⟨fun root g hg slot hslot => h.slots slot (h.listed.mem_slots hg hslot),
    fun stateAt features s => ?_, ?_, ?_⟩
  · intro verdict haccepted
    rcases onAttestation_cases (Judge.processorAt c stateAt) features m s c.preset with
      heq | ⟨state, facts, v, metrics, hprocess, heq⟩
    · have hverdict : verdict = .unknownBlock s.data.beaconBlockRoot := congrArg Prod.snd heq
      rw [hverdict] at haccepted
      simp at haccepted
    · have hverdict : verdict = v := congrArg Prod.snd heq
      rw [hverdict] at haccepted
      exact Judge.inWindow_of_checkTime (c := { c with stateAt }) hretention
        (Judge.checkTime_of_accepted hprocess haccepted)
  · refine Pool.onSlot_of_not_passed h.gauges fun slot hslot => ?_
    have hyoung : now.toNat - c.preset.slotsPerEpoch.toNat * retentionEpochs.toNat ≤ slot.toNat :=
      (h.slots slot hslot).young
    rw [h.retention]
    omega
  · refine (h.listed.card_slots_le fun slot hslot =>
      ⟨(h.slots slot hslot).young, (h.slots slot hslot).near⟩).trans ?_
    omega

/-- Votes of two epochs, and one for which no state is found. The clock is
told an old slot in between. -/
def season : List (Occasion Judge.StateSource Store.Call) :=
  [seen (.slot 18),
    seen (.slot 3),
    ⟨unseen, .attestation {} (plainVote 2 8 firstBlock.hashTreeRoot)⟩,
    seen (.attestation {} (plainVote 1 9 firstBlock.hashTreeRoot)),
    seen (.attestation {} (plainVote 0 1 firstBlock.hashTreeRoot)),
    seen (.slot 9),
    seen (.meanwhile (.block firstBlock {} {}))]

/-- The vote of the first epoch is dropped when two epochs have passed
since; the other one stays. -/
theorem pool_within_window_season :
    let before := afterAll (Judge.settingAt plainJudge) plainStart season.tail
    let m := afterAll (Judge.settingAt plainJudge) plainStart season
    ((∀ o ∈ season, o.call.addsNothing = true)
        ∧ before.pool.stored.map (·.data.slot) = [1, 9]
        ∧ m.pool.stored.map (·.data.slot) = [9])
      ∧ (m.pool.onSlot plainJudge.preset m.processor.currentSlot).value = m.pool := by
  have hcalls : ∀ o ∈ season, o.call.addsNothing = true := by decide
  have hwindow := pool_within_window plainJudge plainStart 2 rfl (by decide) season hcalls
  exact ⟨⟨hcalls, by decide +kernel⟩, hwindow.2.2.1⟩

end Manager

end ChainHead
