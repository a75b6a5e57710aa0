/-
What a manager counts, and what its gauges show.

# Gauges

Both gauges are set wherever one of the queues was changed: with a
verdict that makes a submission wait, when what waited for a block is
taken out, and when a slot begins. What comes after that in the same step
leaves the queues alone, or sets the gauges again, as it happens when
something that was taken out has to wait once more. So they show at all
times what waits (`Gauged`), and those of the pool inside do as well.

# Counters

A submission that is put before the processor is counted once, under the
name of the verdict, or as ignored if a switch says that it shall not
wait (`Verdict.outcome`). What is turned away because it waits already is
neither put before the processor nor counted. The journal of the
processor lists its decisions, so each counter is the number of those
with its outcome (`Tallied`), and all of them together are the number of
decisions (`sum_outcomes`).
-/
import ChainHead.Proofs.Manager.Journal
import ChainHead.Proofs.Pool.Gauges
import Mathlib.Algebra.BigOperators.Group.Finset.Basic

namespace ChainHead

-- ============================================================= outcomes

/-- Whether what a verdict asks for is switched off. -/
def Verdict.isIgnored (features : Features) : Verdict → Bool
  | .unknownBlock _ => features.has .ignoreAttestationsForUnknownBlocks
  | .savedForFuture => features.has .ignoreFutureAttestations
  | _ => false

/-- The label under which a verdict is counted. -/
def Verdict.outcome (features : Features) (v : Verdict) : String :=
  if v.isIgnored features then "ignored" else v.label

/-- The labels of all outcomes. -/
def outcomeLabels : Finset String :=
  {"successful", "unknown_block", "saved_for_future", "invalid", "ignored"}

theorem Verdict.label_mem (v : Verdict) : v.label ∈ outcomeLabels := by
  cases v with
  | successful => simp [label, outcomeLabels]
  | unknownBlock root => simp [label, outcomeLabels]
  | savedForFuture => simp [label, outcomeLabels]
  | invalid reason => simp [label, outcomeLabels]

theorem Verdict.outcome_mem (features : Features) (v : Verdict) :
    v.outcome features ∈ outcomeLabels := by
  unfold outcome
  split
  case isTrue => decide
  case isFalse => exact v.label_mem

instance : (r : Request) → Decidable r.Decides
  | .process features s v => isTrue ⟨features, s, v, rfl⟩
  | .apply _ => isFalse fun ⟨_, _, _, h⟩ => nomatch h
  | .slot _ => isFalse fun ⟨_, _, _, h⟩ => nomatch h

/-- The label of the outcome of a request. -/
def Request.outcome? : Request → Option String
  | .process features _ v => some (v.outcome features)
  | _ => none

/-- The labels of the outcomes of all that was decided. -/
def outcomes (past : List Request) : List String :=
  past.filterMap Request.outcome?

/-- Every decision has an outcome, and nothing else has. -/
theorem length_outcomes (past : List Request) :
    (outcomes past).length = past.countP fun r => r.Decides := by
  unfold outcomes
  rw [List.length_filterMap_eq_countP]
  refine List.countP_congr fun r _ => ?_
  cases r with
  | process features s v => exact iff_of_true rfl (decide_eq_true ⟨features, s, v, rfl⟩)
  | apply a => exact iff_of_false Bool.false_ne_true Bool.false_ne_true
  | slot slot => exact iff_of_false Bool.false_ne_true Bool.false_ne_true

/-- Counted label by label, the outcomes are as many as the decisions. -/
theorem sum_outcomes (past : List Request) :
    ∑ label ∈ outcomeLabels, (outcomes past).count label = past.countP fun r => r.Decides := by
  have hlabels : ∀ label ∈ (outcomes past : Multiset String), label ∈ outcomeLabels := by
    intro label hlabel
    obtain ⟨r, -, hr⟩ := List.mem_filterMap.mp (Multiset.mem_coe.mp hlabel)
    cases r with
    | process features s v =>
        obtain rfl : v.outcome features = label := Option.some.inj hr
        exact v.outcome_mem features
    | apply a => cases hr
    | slot slot => cases hr
  have hsum := Multiset.sum_count_eq_card hlabels
  simp only [Multiset.coe_count, Multiset.coe_card] at hsum
  rw [hsum, length_outcomes]

namespace ManagerMetrics

/-- One more is counted under a label. -/
theorem outcomes_countOutcome (m : ManagerMetrics) (label other : String) :
    (m.countOutcome label).outcomes.getD other 0
      = m.outcomes.getD other 0 + if label = other then 1 else 0 := by
  unfold countOutcome
  rw [Std.ExtTreeMap.getD_insert]
  simp only [Std.LawfulEqCmp.compare_eq_iff_eq]
  split
  case isTrue heq => rw [heq]
  case isFalse => rfl

end ManagerMetrics

namespace Manager

variable {σ ε : Type} (p : Processor σ) (features : Features) (m : Manager σ) (s : Submission)

-- ================================================================ steps

theorem processor_follow (v : Verdict) :
    (m.follow features s v).value.processor = m.processor := by
  obtain ⟨metrics, hvalue⟩ := m.follow_value features s .minimal v
  rw [hvalue]

/-- A verdict that is followed is counted once, under its outcome. -/
theorem outcomes_follow (v : Verdict) : (m.follow features s v).value.metrics.outcomes
    = (m.metrics.countOutcome (v.outcome features)).outcomes := by
  cases v with
  | successful =>
      show (gossip ((m.count Verdict.successful.label).addToPool s).value s).value.metrics.outcomes
        = _
      rw [addToPool_value _ s .minimal, gossip_value]
      rfl
  | unknownBlock root =>
      unfold follow Verdict.outcome Verdict.isIgnored
      dsimp only
      split
      case isTrue => rfl
      case isFalse => rfl
  | savedForFuture =>
      unfold follow Verdict.outcome Verdict.isIgnored
      dsimp only
      split
      case isTrue => rfl
      case isFalse =>
        show ((m.count Verdict.savedForFuture.label).addToPool s).value.metrics.outcomes = _
        rw [addToPool_value _ s .minimal]
        rfl
  | invalid reason => rfl

-- =============================================================== gauges

/-- Whether the gauges of a manager show what waits in its queues, and
those of its pool what that holds. -/
structure Gauged (m : Manager σ) : Prop where
  pending : m.metrics.pending = Metrics.gauge m.untilBlock.size
  future : m.metrics.future = Metrics.gauge m.untilSlot.size
  pool : m.pool.Metered

namespace Gauged

variable {m}

theorem updateMetrics (h : m.pool.Metered) : m.updateMetrics.Gauged :=
  ⟨rfl, rfl, h⟩

theorem follow (h : m.Gauged) (v : Verdict) : (m.follow features s v).value.Gauged := by
  have hadded := h.pool.call .minimal (.add s (m.ledger.get s))
  cases v with
  | successful =>
      show (gossip ((m.count Verdict.successful.label).addToPool s).value s).value.Gauged
      rw [addToPool_value _ s .minimal, gossip_value]
      exact ⟨h.pending, h.future, hadded⟩
  | unknownBlock root =>
      unfold Manager.follow
      dsimp only
      split
      case isTrue => exact ⟨h.pending, h.future, h.pool⟩
      case isFalse => exact updateMetrics h.pool
  | savedForFuture =>
      unfold Manager.follow
      dsimp only
      split
      case isTrue => exact ⟨h.pending, h.future, h.pool⟩
      case isFalse =>
        refine updateMetrics ?_
        show ((m.count Verdict.savedForFuture.label).addToPool s).value.pool.Metered
        rw [addToPool_value _ s .minimal]
        exact hadded
  | invalid reason => exact ⟨h.pending, h.future, h.pool⟩

end Gauged

theorem keeps_gauged (w : Setting σ ε) : Keeps w (fun _ => True) Gauged where
  attestation features m s _ h := by
    cases hwaiting : m.untilBlock.contains s.attestation with
    | true =>
        rw [onAttestation_waiting _ _ _ _ hwaiting]
        exact h
    | false =>
        let answer := (w.processor.process features m.processor s (m.ledger.get s)).value
        have hasked : ({ m with processor := answer.1, ledger := m.ledger.put s answer.2.1 } :
            Manager σ).Gauged := ⟨h.pending, h.future, h.pool⟩
        rw [onAttestation_decided _ _ _ _ hwaiting rfl]
        exact hasked.follow features s answer.2.2
  taken m root h := ⟨fun _ _ _ => trivial, .updateMetrics h.pool⟩
  slot m slot _ h := by
    rw [onSlot_exact]
    exact ⟨rfl, rfl, h.pool.call w.preset (.slot slot)⟩
  pool m c _ h := ⟨h.pending, h.future, h.pool.call w.preset c⟩
  meanwhile m e _ h := ⟨h.pending, h.future, h.pool⟩

-- ============================================================= counters

/-- Whether each counter is the number of decisions with its outcome. -/
def Tallied (m : Manager (Journal σ)) : Prop :=
  ∀ label, m.metrics.outcomes.getD label 0 = (outcomes m.processor.requests).count label

theorem Tallied.decided {m : Manager (Journal σ)} (h : m.Tallied) (features : Features)
    (s : Submission) (hwaiting : m.untilBlock.contains s.attestation = false) :
    (m.onAttestation p.journaled features s).value.1.Tallied := by
  intro label
  rw [onAttestation_decided _ _ _ _ hwaiting rfl]
  dsimp only
  rw [outcomes_follow, processor_follow, ManagerMetrics.outcomes_countOutcome]
  show m.metrics.outcomes.getD label 0 + _ = (_ :: outcomes m.processor.requests).count label
  rw [h label, List.count_cons]
  simp only [beq_iff_eq]
  rfl

/-- What is applied and a slot have no outcome. -/
theorem outcomes_slot (due : List IndexedAttestation) (slot : Slot) (past : List Request) :
    outcomes ((due.map .apply).reverse ++ .slot slot :: past) = outcomes past := by
  have hdue : due.filterMap (Request.outcome? ∘ .apply) = [] :=
    List.filterMap_eq_nil_iff.mpr fun _ _ => rfl
  unfold outcomes
  rw [List.filterMap_append, List.filterMap_reverse, List.filterMap_map, hdue]
  rfl

theorem keeps_tallied (w : Setting σ ε) : Keeps w.journaled (fun _ => True) Tallied where
  attestation features m s _ h := by
    cases hwaiting : m.untilBlock.contains s.attestation with
    | true =>
        rw [onAttestation_waiting _ _ _ _ hwaiting]
        exact h
    | false => exact h.decided w.processor features s hwaiting
  taken m root h := ⟨fun _ _ _ => trivial, h⟩
  slot m slot _ h := by
    intro label
    show (m.onSlot w.preset w.processor.journaled slot).value.metrics.outcomes.getD label 0
      = (outcomes (m.onSlot w.preset w.processor.journaled slot).value.processor.requests).count
        label
    rw [journaled_slot, outcomes_slot, onSlot_exact]
    exact h label
  pool m c _ h := h
  meanwhile m e _ h := h

-- ========================================================== operations

/-- What can be asked of a manager, or happen around it: a call, or a
selection from its pool for a block on a state. -/
inductive Operation (ε : Type) where
  | call (call : Call ε)
  | selection (selection : Pool.Selection) (state : BeaconState)

/-- The manager after one operation. -/
def operate (w : Setting σ ε) (m : Manager σ) : Operation ε → Manager σ
  | .call c => m.call w c
  | .selection sel state => { m with pool := m.pool.operate w.preset (.selection sel state) }

/-- The manager after operations, given newest first. -/
def operated (w : Setting σ ε) (start : Manager σ) : List (Operation ε) → Manager σ
  | [] => start
  | o :: earlier => (operated w start earlier).operate w o

/-- How often a submission was put before the processor. -/
def decisions (w : Setting σ ε) (start : Manager σ) (operations : List (Operation ε)) : Nat :=
  (operated w.journaled start.journaled operations).processor.requests.countP fun r => r.Decides

variable (w : Setting σ ε) (start : Manager σ) (operations : List (Operation ε))

theorem operated_journaled :
    (operated w.journaled start.journaled operations).forget = operated w start operations := by
  induction operations with
  | nil => rfl
  | cons o earlier ih =>
      cases o with
      | call c =>
          show ((operated w.journaled start.journaled earlier).call w.journaled c).forget
            = (operated w start earlier).call w c
          rw [forget_call, ih]
      | selection sel state =>
          show operate w (operated w.journaled start.journaled earlier).forget
            (.selection sel state) = _
          rw [ih]
          rfl

variable {start}

theorem gauged_operated (h : start.Gauged) : (operated w start operations).Gauged := by
  induction operations with
  | nil => exact h
  | cons o earlier ih =>
      cases o with
      | call c => exact (keeps_gauged w).call trivial ih
      | selection sel state =>
          exact ⟨ih.pending, ih.future, ih.pool.operate w.preset (.selection sel state)⟩

theorem tallied_operated {start : Manager (Journal σ)} (h : start.Tallied) :
    (operated w.journaled start operations).Tallied := by
  induction operations with
  | nil => exact h
  | cons o earlier ih =>
      cases o with
      | call c => exact (keeps_tallied w).call trivial ih
      | selection sel state => exact ih

/-- The counters add up to the number of decisions, if there were none at
the start. -/
theorem sum_counters (h : start.metrics.outcomes = ∅) :
    ∑ label ∈ outcomeLabels, (operated w start operations).metrics.outcomes.getD label 0
      = decisions w start operations := by
  have hstart : start.journaled.Tallied := by
    intro label
    show start.metrics.outcomes.getD label 0 = 0
    rw [h]
    rfl
  have htallied := tallied_operated w operations hstart
  rw [← operated_journaled]
  exact (Finset.sum_congr rfl fun label _ => htallied label).trans (sum_outcomes _)

end Manager

end ChainHead
