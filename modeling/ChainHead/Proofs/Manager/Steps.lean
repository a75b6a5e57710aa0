/-
What each step of a manager does.

A verdict bears on different parts of a manager: what was accepted goes
to the pool and to the network, what misses a block to the queue for
blocks, what is early to the pool and the queue for slots. So each part
is followed on its own (`poolAfter`, `queueAfter`, `slotsAfter`,
`networkAfter`), and a step is the manager with all its parts replaced
(`follow_value`, `onAttestation_judged`, `onSlot_value`). The metrics are
left open. The state of the processor changes only where the processor
itself is asked; all of this holds for any processor.
-/
import ChainHead.Proofs.Manager.Run

namespace ChainHead

-- ================================================================ facts

/-- What is learned of a submission is known of it, and of no other. -/
theorem Ledger.get_put (l : Ledger) (s s' : Submission) (f : Facts) :
    (l.put s f).get s' = if s.id = s'.id then f else l.get s' := by
  unfold Ledger.put Ledger.get
  simp only [Std.ExtTreeMap.getD_insert, Std.LawfulEqOrd.compare_eq_iff_eq]

/-- To learn what is known is to learn nothing. -/
theorem Ledger.get_put_get (l : Ledger) (s s' : Submission) :
    (l.put s (l.get s)).get s' = l.get s' := by
  rw [Ledger.get_put]
  split
  case isTrue hid =>
    unfold Ledger.get
    rw [hid]
  case isFalse => rfl

/-- Voters are recorded that are known or that are found. -/
theorem Facts.recordIndexed_eq_ok {ε : Type} {f learned : Facts} {a : IndexedAttestation}
    {expand : Unit → Except ε IndexedAttestation}
    (h : f.recordIndexed expand = .ok (a, learned)) :
    learned = { f with indexed := some a }
      ∧ (f.indexed = some a ∨ f.indexed = none ∧ expand () = .ok a) := by
  unfold recordIndexed at h
  cases hindexed : f.indexed with
  | some known =>
      rw [hindexed] at h
      obtain ⟨rfl, rfl⟩ := Prod.mk.inj (Except.ok.inj h)
      exact ⟨by rw [← hindexed], .inl rfl⟩
  | none =>
      rw [hindexed] at h
      cases hexpand : expand () with
      | error e =>
          rw [hexpand] at h
          cases h
      | ok found =>
          rw [hexpand] at h
          obtain ⟨rfl, rfl⟩ := Prod.mk.inj (Except.ok.inj h)
          exact ⟨rfl, .inr ⟨rfl, rfl⟩⟩

/-- A seed is recorded unless there is one. -/
theorem Facts.recordSeed_eq (f : Facts) (seed : Root) :
    f.recordSeed seed = { f with seed := some (f.seed.getD seed) } := by
  unfold recordSeed
  cases f.seed with
  | none => rfl
  | some known => rfl

namespace Manager

variable {σ ε : Type} (p : Processor σ) (features : Features) (m : Manager σ) (s : Submission)

-- ========================================================== small steps

/-- Pooling a submission is a call of the pool. -/
theorem addToPool_value (preset : Preset) : (m.addToPool s).value
    = { m with pool := m.pool.call preset (.add s (m.ledger.get s)) } := by
  unfold addToPool
  cases hadd : m.pool.add s (m.ledger.get s) with
  | error e =>
      simp only [Pool.call, hadd]
      rfl
  | ok result =>
      simp only [Pool.call, hadd]
      rfl

/-- The facts and what was handed over, once a submission is handed to the
network. -/
def handedOver (ledger : Ledger) (outbox : List Message) : Ledger × List Message :=
  ((ledger.markGossiped s).1,
    if (ledger.get s).gossiped then outbox else outbox ++ [.publish s])

/-- To hand over a submission marks it, and leaves what is known of others. -/
theorem get_handedOver (ledger : Ledger) (outbox : List Message) (s' : Submission) :
    (handedOver s ledger outbox).1.get s'
      = { ledger.get s' with gossiped := s.id = s'.id || (ledger.get s').gossiped } := by
  unfold handedOver Ledger.markGossiped
  dsimp only
  rw [Ledger.get_put]
  split
  case isTrue hid =>
    unfold Ledger.get
    simp [hid]
  case isFalse hid => simp [hid]

theorem gossip_value : (m.gossip s).value = { m with
    ledger := (handedOver s m.ledger m.outbox).1
    outbox := (handedOver s m.ledger m.outbox).2 } := by
  unfold gossip handedOver Ledger.markGossiped
  dsimp only
  cases (m.ledger.get s).gossiped with
  | false => rfl
  | true => rfl

/-- The pool after a verdict. -/
def poolAfter (preset : Preset) (p : Pool) (facts : Facts) : Verdict → Pool
  | .successful => p.call preset (.add s facts)
  | .savedForFuture =>
    if features.has .ignoreFutureAttestations then p else p.call preset (.add s facts)
  | _ => p

/-- The queue for blocks after a verdict. -/
def queueAfter (q : BlockQueue) : Verdict → BlockQueue
  | .unknownBlock root =>
    if features.has .ignoreAttestationsForUnknownBlocks then q else (q.add root s).value
  | _ => q

/-- The queue for slots after a verdict. -/
def slotsAfter (q : SlotQueue) : Verdict → SlotQueue
  | .savedForFuture => if features.has .ignoreFutureAttestations then q else q.add s
  | _ => q

/-- The facts and what was handed over after a verdict. -/
def networkAfter (ledger : Ledger) (outbox : List Message) : Verdict → Ledger × List Message
  | .successful => handedOver s ledger outbox
  | _ => (ledger, outbox)

theorem get_networkAfter (ledger : Ledger) (outbox : List Message) (v : Verdict)
    (s' : Submission) : (networkAfter s ledger outbox v).1.get s' = { ledger.get s' with
      gossiped := decide (v = .successful ∧ s.id = s'.id) || (ledger.get s').gossiped } := by
  cases v with
  | successful =>
      show (handedOver s ledger outbox).1.get s' = _
      rw [get_handedOver]
      simp
  | unknownBlock root => simp [networkAfter]
  | savedForFuture => simp [networkAfter]
  | invalid reason => simp [networkAfter]

/-- What acting on a verdict does. The state of the processor is left as
it is. -/
theorem follow_value (preset : Preset) (v : Verdict) : ∃ metrics,
    (m.follow features s v).value = { m with
      pool := poolAfter features s preset m.pool (m.ledger.get s) v
      untilBlock := queueAfter features s m.untilBlock v
      untilSlot := slotsAfter features s m.untilSlot v
      ledger := (networkAfter s m.ledger m.outbox v).1
      outbox := (networkAfter s m.ledger m.outbox v).2
      metrics } := by
  cases v with
  | successful =>
      refine ⟨(m.count Verdict.successful.label).metrics, ?_⟩
      show (gossip ((m.count Verdict.successful.label).addToPool s).value s).value = _
      rw [addToPool_value _ s preset, gossip_value]
      rfl
  | unknownBlock root =>
      unfold follow queueAfter
      dsimp only
      split
      case isTrue => exact ⟨_, rfl⟩
      case isFalse => exact ⟨_, rfl⟩
  | savedForFuture =>
      unfold follow poolAfter slotsAfter
      dsimp only
      split
      case isTrue => exact ⟨_, rfl⟩
      case isFalse =>
        have hpooled := (m.count Verdict.savedForFuture.label).addToPool_value s preset
        exact ⟨_, congrArg (fun pooled : Manager σ =>
          ({ pooled with untilSlot := pooled.untilSlot.add s } : Manager σ).updateMetrics) hpooled⟩
  | invalid reason => exact ⟨_, rfl⟩

/-- Whether a verdict puts a submission into the queue for slots. -/
def Saves (features : Features) (v : Verdict) : Prop :=
  v = .savedForFuture ∧ features.has .ignoreFutureAttestations = false

instance (features : Features) (v : Verdict) : Decidable (Saves features v) :=
  inferInstanceAs (Decidable (_ ∧ _))

/-- What is saved is pooled as well. -/
theorem saves_cases (features : Features) (s : Submission) (preset : Preset) (p : Pool)
    (q : SlotQueue) (facts : Facts) (v : Verdict) :
    (Saves features v ∧ slotsAfter features s q v = q.add s
        ∧ poolAfter features s preset p facts v = p.call preset (.add s facts))
      ∨ (¬Saves features v ∧ slotsAfter features s q v = q
        ∧ (poolAfter features s preset p facts v = p
          ∨ poolAfter features s preset p facts v = p.call preset (.add s facts))) := by
  cases v with
  | successful => exact .inr ⟨(fun h => nomatch h.1), rfl, .inr rfl⟩
  | unknownBlock root => exact .inr ⟨(fun h => nomatch h.1), rfl, .inl rfl⟩
  | invalid reason => exact .inr ⟨(fun h => nomatch h.1), rfl, .inl rfl⟩
  | savedForFuture =>
      unfold Saves slotsAfter poolAfter
      cases features.has .ignoreFutureAttestations with
      | true => exact .inr ⟨(fun h => nomatch h.2), rfl, .inl rfl⟩
      | false => exact .inl ⟨⟨rfl, rfl⟩, rfl, rfl⟩

-- =========================================================== submissions

/-- What waits already keeps waiting. -/
theorem onAttestation_waiting (h : m.untilBlock.contains s.attestation = true) :
    (m.onAttestation p features s).value = (m, .unknownBlock s.data.beaconBlockRoot) := by
  unfold onAttestation
  rw [if_pos h]
  rfl

/-- Anything else is put before the processor, whose verdict is followed. -/
theorem onAttestation_decided {state : σ} {facts : Facts} {v : Verdict}
    (h : m.untilBlock.contains s.attestation = false)
    (hprocess : (p.process features m.processor s (m.ledger.get s)).value = (state, facts, v)) :
    (m.onAttestation p features s).value = ((({ m with
      processor := state
      ledger := m.ledger.put s facts } : Manager σ).follow features s v).value, v) := by
  unfold onAttestation
  rw [if_neg (ne_true_of_eq_false h)]
  simp only [Logged.value_bind, hprocess]
  rfl

/-- So what the processor makes of it says what becomes of everything. -/
theorem onAttestation_judged (preset : Preset) {state : σ} {facts : Facts} {v : Verdict}
    (h : m.untilBlock.contains s.attestation = false)
    (hprocess : (p.process features m.processor s (m.ledger.get s)).value = (state, facts, v)) :
    ∃ metrics, (m.onAttestation p features s).value = ({ m with
      processor := state
      pool := poolAfter features s preset m.pool facts v
      untilBlock := queueAfter features s m.untilBlock v
      untilSlot := slotsAfter features s m.untilSlot v
      ledger := (networkAfter s (m.ledger.put s facts) m.outbox v).1
      outbox := (networkAfter s (m.ledger.put s facts) m.outbox v).2
      metrics }, v) := by
  let asked : Manager σ := { m with processor := state, ledger := m.ledger.put s facts }
  obtain ⟨metrics, hvalue⟩ := asked.follow_value features s preset v
  have hfacts : asked.ledger.get s = facts := by
    rw [Ledger.get_put, if_pos rfl]
  rw [hfacts] at hvalue
  exact ⟨metrics, by rw [onAttestation_decided p features m s h hprocess, hvalue]⟩

/-- So a manager is left as it was, or with what the processor decides. -/
theorem onAttestation_cases (preset : Preset) :
    (m.onAttestation p features s).value = (m, .unknownBlock s.data.beaconBlockRoot)
      ∨ ∃ state facts v metrics,
        (p.process features m.processor s (m.ledger.get s)).value = (state, facts, v)
        ∧ (m.onAttestation p features s).value = ({ m with
          processor := state
          pool := poolAfter features s preset m.pool facts v
          untilBlock := queueAfter features s m.untilBlock v
          untilSlot := slotsAfter features s m.untilSlot v
          ledger := (networkAfter s (m.ledger.put s facts) m.outbox v).1
          outbox := (networkAfter s (m.ledger.put s facts) m.outbox v).2
          metrics }, v) := by
  cases h : m.untilBlock.contains s.attestation with
  | true => exact .inl (onAttestation_waiting p features m s h)
  | false =>
      obtain ⟨metrics, hvalue⟩ := onAttestation_judged p features m s preset h rfl
      exact .inr ⟨_, _, _, metrics, rfl, hvalue⟩

/-- What waited for a block is taken out and handed in again. -/
theorem onBlockImported_value (root : Root) :
    (m.onBlockImported p features root).value
      = (retry p features ({ m with untilBlock := (m.untilBlock.take root).1 } :
          Manager σ).updateMetrics (m.untilBlock.take root).2).value := by
  unfold onBlockImported
  dsimp only
  split
  case isTrue hnone =>
    rw [List.isEmpty_iff.mp hnone]
    rfl
  case isFalse => rfl

-- ================================================================ slots

/-- The state of a processor after what is due was applied. -/
def applied (ledger : Ledger) : σ → List Submission → σ
  | state, [] => state
  | state, s :: rest =>
    match (ledger.get s).indexed with
    | some indexed => applied ledger (p.apply state indexed).value rest
    | none => applied ledger state rest

/-- What a processor keeps when it applies one it keeps when it applies
all that is due. -/
theorem applied_kept {p : Processor σ} {P : σ → Prop} {ledger : Ledger} {state : σ}
    (happly : ∀ state indexed, P state → P (p.apply state indexed).value) (h : P state)
    (due : List Submission) : P (applied p ledger state due) := by
  induction due generalizing state with
  | nil => exact h
  | cons s rest ih =>
      unfold applied
      cases (ledger.get s).indexed with
      | none => exact ih h
      | some indexed => exact ih (happly state indexed h)

theorem applyDue_value (due : List Submission) :
    (m.applyDue p due).value = { m with processor := applied p m.ledger m.processor due } := by
  induction due generalizing m with
  | nil => rfl
  | cons s rest ih =>
      unfold applyDue applied
      cases (m.ledger.get s).indexed with
      | none => exact ih m
      | some indexed => exact ih { m with processor := (p.apply m.processor indexed).value }

/-- The facts and what was handed over, once submissions are handed to the
network one after the other. -/
def allHandedOver (ledger : Ledger) (outbox : List Message) :
    List Submission → Ledger × List Message
  | [] => (ledger, outbox)
  | s :: rest =>
    let (ledger, outbox) := handedOver s ledger outbox
    allHandedOver ledger outbox rest

theorem get_allHandedOver (ledger : Ledger) (outbox : List Message) (due : List Submission)
    (s' : Submission) : (allHandedOver ledger outbox due).1.get s' = { ledger.get s' with
      gossiped := due.any (·.id = s'.id) || (ledger.get s').gossiped } := by
  induction due generalizing ledger outbox with
  | nil => rfl
  | cons s rest ih =>
      show (allHandedOver (handedOver s ledger outbox).1 (handedOver s ledger outbox).2 rest).1.get s'
        = _
      rw [ih, get_handedOver, List.any_cons]
      simp only [Bool.or_assoc, Bool.or_left_comm]

theorem gossipAll_value (due : List Submission) : (m.gossipAll due).value = { m with
    ledger := (allHandedOver m.ledger m.outbox due).1
    outbox := (allHandedOver m.ledger m.outbox due).2 } := by
  induction due generalizing m with
  | nil => rfl
  | cons s rest ih =>
      show (gossipAll (m.gossip s).value rest).value = _
      rw [gossip_value, ih]
      rfl

/-- A slot prunes the pool and the queue for blocks, sets the gauges, and
has the processor follow the clock and apply what is due. -/
theorem onSlot_exact (preset : Preset) (slot : Slot) :
    (m.onSlot preset p slot).value = { m with
      pool := m.pool.call preset (.slot slot)
      untilBlock := (m.untilBlock.prune slot).value
      untilSlot := (m.untilSlot.takeDue slot).1
      processor := applied p m.ledger (p.onSlot m.processor slot) (m.untilSlot.takeDue slot).2
      ledger := (allHandedOver m.ledger m.outbox (m.untilSlot.takeDue slot).2).1
      outbox := (allHandedOver m.ledger m.outbox (m.untilSlot.takeDue slot).2).2
      metrics := (m.metrics.setPending (m.untilBlock.prune slot).value.size).setFuture
        (m.untilSlot.takeDue slot).1.size } := by
  let started : Manager σ := { m with
    processor := p.onSlot m.processor slot
    pool := (m.pool.onSlot preset slot).value
    untilSlot := (m.untilSlot.takeDue slot).1
    untilBlock := (m.untilBlock.prune slot).value }
  let due := (m.untilSlot.takeDue slot).2
  show (gossipAll (started.updateMetrics.applyDue p due).value due).value = _
  rw [applyDue_value, gossipAll_value]
  rfl

/-- The same with the metrics left open. -/
theorem onSlot_value (preset : Preset) (slot : Slot) : ∃ metrics,
    (m.onSlot preset p slot).value = { m with
      pool := m.pool.call preset (.slot slot)
      untilBlock := (m.untilBlock.prune slot).value
      untilSlot := (m.untilSlot.takeDue slot).1
      processor := applied p m.ledger (p.onSlot m.processor slot) (m.untilSlot.takeDue slot).2
      ledger := (allHandedOver m.ledger m.outbox (m.untilSlot.takeDue slot).2).1
      outbox := (allHandedOver m.ledger m.outbox (m.untilSlot.takeDue slot).2).2
      metrics } :=
  ⟨_, m.onSlot_exact p preset slot⟩

end Manager

end ChainHead
