/-
Managers that cannot be told apart, but for their metrics.

A queue numbers its entries, a ledger may list a submission of which
nothing is known, and the metrics count every verdict. None of this
matters to what a manager does. `Alike` says that two managers agree in
the rest: the pool, what waits and in which order, the facts, and what
was handed to the network. The processors are left out, since they may
differ in what has no bearing on a submission; as long as the verdict and
the facts are the same, the managers stay alike (`Alike.onAttestation`).
-/
import ChainHead.Proofs.Manager.Steps
import ChainHead.Proofs.Queue.Refinement

namespace ChainHead

namespace Manager

variable {σ : Type} {m m' : Manager σ} {q q' : BlockQueue} {l l' : Ledger}

/-- Whether two managers agree in all but the processor and the metrics. -/
structure Alike (m m' : Manager σ) : Prop where
  pool : m.pool = m'.pool
  /-- The same submissions wait for the same blocks, in the same order. -/
  untilBlock : m.untilBlock.waitlist = m'.untilBlock.waitlist
  untilSlot : m.untilSlot = m'.untilSlot
  facts : ∀ s, m.ledger.get s = m'.ledger.get s
  outbox : m.outbox = m'.outbox

-- ================================================================ parts

theorem facts_put (h : ∀ s, l.get s = l'.get s) (s : Submission) (f : Facts) (s' : Submission) :
    (l.put s f).get s' = (l'.put s f).get s' := by
  rw [Ledger.get_put, Ledger.get_put, h]

/-- What is handed to the network depends on the facts. -/
theorem handedOver_congr (h : ∀ s, l.get s = l'.get s) (s : Submission) (outbox : List Message) :
    (∀ s', (handedOver s l outbox).1.get s' = (handedOver s l' outbox).1.get s')
      ∧ (handedOver s l outbox).2 = (handedOver s l' outbox).2 := by
  unfold handedOver Ledger.markGossiped
  refine ⟨fun s' => ?_, ?_⟩
  · dsimp only
    rw [h s]
    exact facts_put h s _ s'
  · rw [h s]

theorem networkAfter_congr (h : ∀ s, l.get s = l'.get s) (s : Submission)
    (outbox : List Message) (v : Verdict) :
    (∀ s', (networkAfter s l outbox v).1.get s' = (networkAfter s l' outbox v).1.get s')
      ∧ (networkAfter s l outbox v).2 = (networkAfter s l' outbox v).2 := by
  cases v with
  | successful => exact handedOver_congr h s outbox
  | unknownBlock root => exact ⟨h, rfl⟩
  | savedForFuture => exact ⟨h, rfl⟩
  | invalid reason => exact ⟨h, rfl⟩

theorem sound_queueAfter (h : q.Sound) (features : Features) (s : Submission) (v : Verdict) :
    (queueAfter features s q v).Sound := by
  cases v with
  | unknownBlock root =>
      unfold queueAfter
      dsimp only
      split
      case isTrue => exact h
      case isFalse => exact h.add root s
  | successful => exact h
  | savedForFuture => exact h
  | invalid reason => exact h

/-- What waits after a verdict waited before, or it is the submission. -/
theorem entries_queueAfter (h : q.Sound) {features : Features} {s : Submission} {v : Verdict}
    {t : Ticket} {w : Waiting} (hw : (queueAfter features s q v).entries[t]? = some w) :
    q.entries[t]? = some w ∨ ∃ root, v = .unknownBlock root ∧ w = ⟨root, s⟩ := by
  cases v with
  | unknownBlock root =>
      unfold queueAfter at hw
      dsimp only at hw
      split at hw
      case isTrue => exact .inl hw
      case isFalse =>
        rcases h.entries_add hw with hold | ⟨-, -, heq⟩
        · exact .inl hold
        · exact .inr ⟨root, rfl, heq⟩
  | successful => exact .inl hw
  | savedForFuture => exact .inl hw
  | invalid reason => exact .inl hw

/-- What waits after a verdict depends on what waited before. -/
theorem queueAfter_congr (h : q.Sound) (h' : q'.Sound) (hlist : q.waitlist = q'.waitlist)
    (features : Features) (s : Submission) (v : Verdict) :
    (queueAfter features s q v).waitlist = (queueAfter features s q' v).waitlist := by
  cases v with
  | unknownBlock root =>
      unfold queueAfter
      dsimp only
      split
      case isTrue => exact hlist
      case isFalse =>
        have hadd : (q.add root s).value.waitlist = q.waitlist.add root s :=
          (h.waitlist_call (.add root s)).1
        have hadd' : (q'.add root s).value.waitlist = q'.waitlist.add root s :=
          (h'.waitlist_call (.add root s)).1
        rw [hadd, hadd', hlist]
  | successful => exact hlist
  | savedForFuture => exact hlist
  | invalid reason => exact hlist

-- ================================================================ steps

namespace Alike

theorem symm (h : Alike m m') : Alike m' m :=
  ⟨h.pool.symm, h.untilBlock.symm, h.untilSlot.symm, fun s => (h.facts s).symm, h.outbox.symm⟩

theorem trans {m'' : Manager σ} (h : Alike m m') (h' : Alike m' m'') : Alike m m'' :=
  ⟨h.pool.trans h'.pool, h.untilBlock.trans h'.untilBlock, h.untilSlot.trans h'.untilSlot,
    fun s => (h.facts s).trans (h'.facts s), h.outbox.trans h'.outbox⟩

/-- Managers that are alike stay so when they take in a submission, if the
processors agree about it; what relates the states of the processors
before relates them afterwards. -/
theorem onAttestation (h : Alike m m') (hq : m.untilBlock.Sound) (hq' : m'.untilBlock.Sound)
    (p : Processor σ) (features : Features) (s : Submission) (preset : Preset) {f : σ → σ}
    (hprocessor : m'.processor = f m.processor)
    (hprocess : (p.process features (f m.processor) s (m.ledger.get s)).value
      = (f (p.process features m.processor s (m.ledger.get s)).value.1,
        (p.process features m.processor s (m.ledger.get s)).value.2)) :
    Alike (m.onAttestation p features s).value.1 (m'.onAttestation p features s).value.1
      ∧ (m'.onAttestation p features s).value.1.processor
        = f (m.onAttestation p features s).value.1.processor := by
  have hcontains : m'.untilBlock.contains s.attestation = m.untilBlock.contains s.attestation := by
    rw [hq.contains_eq_holds, hq'.contains_eq_holds, h.untilBlock]
  cases hwaiting : m.untilBlock.contains s.attestation with
  | true =>
      rw [onAttestation_waiting _ _ _ _ hwaiting,
        onAttestation_waiting _ _ _ _ (hcontains.trans hwaiting)]
      exact ⟨h, hprocessor⟩
  | false =>
      rcases hjudged : (p.process features m.processor s (m.ledger.get s)).value
        with ⟨state, facts, v⟩
      have hjudged' : (p.process features m'.processor s (m'.ledger.get s)).value
          = (f state, facts, v) := by
        rw [hjudged] at hprocess
        rw [hprocessor, ← h.facts]
        exact hprocess
      obtain ⟨metrics, hvalue⟩ := onAttestation_judged p features m s preset hwaiting hjudged
      obtain ⟨metrics', hvalue'⟩ :=
        onAttestation_judged p features m' s preset (hcontains.trans hwaiting) hjudged'
      rw [hvalue, hvalue']
      obtain ⟨hfacts, houtbox⟩ := networkAfter_congr (facts_put h.facts s facts) s m.outbox v
      refine ⟨?_, rfl⟩
      exact {
        pool := congrArg (poolAfter features s preset · facts v) h.pool
        untilBlock := queueAfter_congr hq hq' h.untilBlock features s v
        untilSlot := congrArg (slotsAfter features s · v) h.untilSlot
        facts := by rw [← h.outbox]; exact hfacts
        outbox := by rw [← h.outbox]; exact houtbox }

end Alike

end Manager

end ChainHead
