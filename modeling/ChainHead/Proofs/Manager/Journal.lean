/-
What a manager asks of its processor.

Some promises of a manager are about the calls that it makes to its
processor: how often, in which order and when. A processor can keep a
journal of them (`Processor.journaled`), newest first as in a run: what
was put before it and how it decided, what it was told to apply, and the
slots. It decides as it would without. So a manager that works with it
does the same (`after_journaled`), and what can be read in the journal
(`requests`) is what happened.

A journal grows by a decision where something is handed in, and by a
slot and all that is applied then where a slot begins. What is put before
a processor was handed in during the run (`Sourced`), even if it had to
wait for a block in between. All this is so whether conditions change
from call to call or not.
-/
import ChainHead.Proofs.Manager.Alike
import ChainHead.Proofs.Manager.Kept

namespace ChainHead

/-- What is asked of a processor, and how it decides. -/
inductive Request where
  | process (features : Features) (submission : Submission) (verdict : Verdict)
  | apply (attestation : IndexedAttestation)
  | slot (slot : Slot)
  deriving DecidableEq, Repr

/-- Whether it is decided about a submission with a request. -/
def Request.Decides (r : Request) : Prop :=
  ∃ features s v, r = .process features s v

/-- The state of a processor and what was asked of it, newest first. -/
structure Journal (σ : Type) where
  state : σ
  requests : List Request := []

/-- A processor that keeps a journal, and otherwise does what it did. -/
def Processor.journaled {σ : Type} (p : Processor σ) : Processor (Journal σ) where
  process features j s facts := do
    let (state, facts, v) ← p.process features j.state s facts
    return (⟨state, .process features s v :: j.requests⟩, facts, v)
  apply j a := do
    let state ← p.apply j.state a
    return ⟨state, .apply a :: j.requests⟩
  onSlot j slot := ⟨p.onSlot j.state slot, .slot slot :: j.requests⟩

namespace Manager

variable {σ ε κ : Type}

/-- A setting in which the processor keeps a journal. What happens
meanwhile is not written down. -/
def Setting.journaled (w : Setting σ ε) : Setting (Journal σ) ε where
  preset := w.preset
  processor := w.processor.journaled
  meanwhile j e := { j with state := w.meanwhile j.state e }

/-- A manager whose processor begins a journal. -/
def journaled (m : Manager σ) : Manager (Journal σ) :=
  { m with processor := ⟨m.processor, []⟩ }

/-- A manager without the journal of its processor. -/
def forget (m : Manager (Journal σ)) : Manager σ :=
  { m with processor := m.processor.state }

/-- All that was asked of the processor during a run, newest first. -/
def requests (w : Setting σ ε) (start : Manager σ) (calls : List (Call ε)) : List Request :=
  (after w.journaled start.journaled calls).processor.requests

/-- The same for a run in which conditions change. -/
def requestsAll (w : κ → Setting σ ε) (start : Manager σ) (occasions : List (Occasion κ ε)) :
    List Request :=
  (afterAll (fun k => (w k).journaled) start.journaled occasions).processor.requests

/-- What is handed in with a call. -/
def Call.submission? : Call ε → Option Submission
  | .attestation _ s => some s
  | _ => none

/-- What was handed in during a run, not counting what others put into
the pool. -/
def submitted (calls : List (Call ε)) : List Submission :=
  calls.filterMap Call.submission?

/-- Whether what is handed in under the same number is the same. -/
def Identified (calls : List (Call ε)) : Prop :=
  ∀ s ∈ submitted calls, ∀ s' ∈ submitted calls, s.id = s'.id → s = s'

instance (calls : List (Call ε)) : Decidable (Identified calls) :=
  inferInstanceAs (Decidable (∀ s ∈ submitted calls, ∀ s' ∈ submitted calls, s.id = s'.id → s = s'))

-- ======================================================= with a journal

variable (p : Processor σ) (features : Features) (m : Manager (Journal σ)) (s : Submission)

/-- The journal after all that is due was applied. -/
theorem applied_journaled (ledger : Ledger) (j : Journal σ) (due : List Submission) :
    applied p.journaled ledger j due = ⟨applied p ledger j.state due,
      ((due.filterMap fun s => (ledger.get s).indexed).map .apply).reverse ++ j.requests⟩ := by
  induction due generalizing j with
  | nil => rfl
  | cons s rest ih =>
      rw [List.filterMap_cons]
      unfold applied
      cases (ledger.get s).indexed with
      | none => exact ih j
      | some indexed =>
          dsimp only
          rw [ih, List.map_cons, List.reverse_cons, List.append_assoc]
          rfl

/-- What is handed in is turned away, or decided and written down. -/
theorem journaled_cases (preset : Preset) :
    (m.onAttestation p.journaled features s).value = (m, .unknownBlock s.data.beaconBlockRoot)
      ∨ ∃ state facts v metrics,
        (p.process features m.processor.state s (m.ledger.get s)).value = (state, facts, v)
        ∧ (m.onAttestation p.journaled features s).value = ({ m with
          processor := ⟨state, .process features s v :: m.processor.requests⟩
          pool := poolAfter features s preset m.pool facts v
          untilBlock := queueAfter features s m.untilBlock v
          untilSlot := slotsAfter features s m.untilSlot v
          ledger := (networkAfter s (m.ledger.put s facts) m.outbox v).1
          outbox := (networkAfter s (m.ledger.put s facts) m.outbox v).2
          metrics }, v) := by
  rcases onAttestation_cases p.journaled features m s preset with
    heq | ⟨j, facts, v, metrics, hprocess, heq⟩
  · exact .inl heq
  · obtain ⟨hstate, hrest⟩ := Prod.mk.inj hprocess
    obtain ⟨hfacts, hverdict⟩ := Prod.mk.inj hrest
    refine .inr ⟨_, facts, v, metrics, Prod.ext rfl (Prod.ext hfacts hverdict), ?_⟩
    rw [heq, ← hstate, ← hverdict]

/-- What a slot asks of the processor. -/
theorem journaled_slot (w : Setting σ ε) (m : Manager (Journal σ)) (slot : Slot) :
    (m.onSlot w.preset w.processor.journaled slot).value.processor.requests
      = (((m.untilSlot.takeDue slot).2.filterMap fun s => (m.ledger.get s).indexed).map
          .apply).reverse ++ .slot slot :: m.processor.requests := by
  obtain ⟨metrics, hvalue⟩ := m.onSlot_value w.processor.journaled w.preset slot
  rw [hvalue, applied_journaled]
  rfl

-- ========================================================= the same run

theorem forget_addToPool : (m.addToPool s).value.forget = (m.forget.addToPool s).value := by
  rw [addToPool_value m s .minimal, addToPool_value m.forget s .minimal]
  rfl

theorem forget_gossip : (m.gossip s).value.forget = (m.forget.gossip s).value := by
  rw [gossip_value, gossip_value]
  rfl

theorem forget_follow (v : Verdict) :
    (m.follow features s v).value.forget = (m.forget.follow features s v).value := by
  cases v with
  | successful =>
      show (gossip ((m.count _).addToPool s).value s).value.forget = _
      rw [forget_gossip, forget_addToPool]
      rfl
  | unknownBlock root =>
      unfold follow
      dsimp only
      split
      case isTrue => rfl
      case isFalse => rfl
  | savedForFuture =>
      unfold follow
      dsimp only
      split
      case isTrue => rfl
      case isFalse =>
        have hpooled := forget_addToPool (m.count Verdict.savedForFuture.label) s
        exact congrArg (fun pooled : Manager σ =>
          ({ pooled with untilSlot := pooled.untilSlot.add s } : Manager σ).updateMetrics) hpooled
  | invalid reason => rfl

theorem forget_onAttestation :
    ((m.onAttestation p.journaled features s).value.1.forget,
        (m.onAttestation p.journaled features s).value.2)
      = (m.forget.onAttestation p features s).value := by
  have hcontains : m.forget.untilBlock.contains s.attestation
      = m.untilBlock.contains s.attestation := rfl
  unfold onAttestation
  rw [hcontains]
  split
  case isTrue => rfl
  case isFalse => exact Prod.ext (forget_follow features _ s _) rfl

theorem forget_retry (ss : List Submission) :
    (retry p.journaled features m ss).value.forget = (retry p features m.forget ss).value := by
  induction ss generalizing m with
  | nil => rfl
  | cons s rest ih =>
      unfold retry
      simp only [Logged.value_bind]
      rw [ih, ← forget_onAttestation]

theorem forget_onSlot (preset : Preset) (slot : Slot) :
    (m.onSlot preset p.journaled slot).value.forget
      = (m.forget.onSlot preset p slot).value := by
  unfold onSlot
  simp only [Logged.value_bind, applyDue_value, gossipAll_value, applied_journaled]
  rfl

theorem forget_call (w : Setting σ ε) (c : Call ε) :
    (m.call w.journaled c).forget = m.forget.call w c := by
  cases c with
  | attestation features s =>
      exact congrArg Prod.fst (forget_onAttestation w.processor features m s)
  | blockImported features root =>
      show (m.onBlockImported w.processor.journaled features root).value.forget
        = (m.forget.onBlockImported w.processor features root).value
      rw [onBlockImported_value, onBlockImported_value]
      exact forget_retry w.processor features _ _
  | slot slot => exact forget_onSlot w.processor m w.preset slot
  | pool call => rfl
  | meanwhile e => rfl

/-- A manager does the same whether a journal is kept or not. -/
theorem after_journaled (w : Setting σ ε) (start : Manager σ) (calls : List (Call ε)) :
    (after w.journaled start.journaled calls).forget = after w start calls := by
  induction calls with
  | nil => rfl
  | cons c earlier ih =>
      show ((after w.journaled start.journaled earlier).call w.journaled c).forget = _
      rw [forget_call, ih]
      rfl

theorem afterAll_journaled (w : κ → Setting σ ε) (start : Manager σ)
    (occasions : List (Occasion κ ε)) :
    (afterAll (fun k => (w k).journaled) start.journaled occasions).forget
      = afterAll w start occasions := by
  induction occasions with
  | nil => rfl
  | cons o earlier ih =>
      show ((afterAll (fun k => (w k).journaled) start.journaled earlier).call
        (w o.conditions).journaled o.call).forget = _
      rw [forget_call, ih]
      rfl

-- ================================================ how a journal grows

variable (w : Setting σ ε)

/-- What is handed in is written down with its verdict, unless it was
turned away. -/
theorem journaled_attestation :
    let v := (m.forget.onAttestation p features s).value.2
    let requests := (m.onAttestation p.journaled features s).value.1.processor.requests
    requests = .process features s v :: m.processor.requests
      ∨ v = .unknownBlock s.data.beaconBlockRoot ∧ requests = m.processor.requests := by
  intro v requests
  have hverdict : (m.onAttestation p.journaled features s).value.2 = v :=
    congrArg Prod.snd (forget_onAttestation p features m s)
  show (m.onAttestation p.journaled features s).value.1.processor.requests = _
    ∨ _ ∧ (m.onAttestation p.journaled features s).value.1.processor.requests = _
  rcases journaled_cases p features m s .minimal with heq | ⟨state, facts, v', metrics, -, heq⟩
  · rw [heq] at hverdict ⊢
    exact .inr ⟨hverdict.symm, rfl⟩
  · rw [heq] at hverdict ⊢
    obtain rfl : v' = v := hverdict
    exact .inl rfl

theorem journaled_retry (ss : List Submission) :
    ∃ new, (retry p.journaled features m ss).value.processor.requests = new ++ m.processor.requests
      ∧ ∀ r ∈ new, r.Decides := by
  induction ss generalizing m with
  | nil => exact ⟨[], rfl, fun r hr => nomatch hr⟩
  | cons s rest ih =>
      obtain ⟨new, hnew, hdecides⟩ := ih (m.onAttestation p.journaled features s).value.1
      have hretry : (retry p.journaled features m (s :: rest)).value = (retry p.journaled features
          (m.onAttestation p.journaled features s).value.1 rest).value := rfl
      rw [hretry, hnew]
      rcases journaled_cases p features m s .minimal with
        heq | ⟨state, facts, v, metrics, -, heq⟩
      · rw [heq]
        exact ⟨new, rfl, hdecides⟩
      · rw [heq]
        refine ⟨new ++ [.process features s v], ?_, fun r hr => ?_⟩
        · rw [List.append_assoc]
          rfl
        · rcases List.mem_append.mp hr with hold | hone
          · exact hdecides r hold
          · exact ⟨features, s, v, List.mem_singleton.mp hone⟩

/-- Between slots a processor is asked for decisions only. -/
theorem journaled_call {c : Call ε} (hc : ∀ slot, c ≠ .slot slot) :
    ∃ new, (m.call w.journaled c).processor.requests = new ++ m.processor.requests
      ∧ ∀ r ∈ new, r.Decides := by
  cases c with
  | attestation features s =>
      rcases journaled_attestation w.processor features m s with hone | ⟨-, hsame⟩
      · exact ⟨[_], hone, fun r hr => ⟨features, s, _, List.mem_singleton.mp hr⟩⟩
      · exact ⟨[], hsame, fun r hr => nomatch hr⟩
  | blockImported features root =>
      show ∃ new, (m.onBlockImported w.processor.journaled features root).value.processor.requests
          = _ ∧ _
      rw [onBlockImported_value]
      exact journaled_retry w.processor features _ _
  | slot slot => exact absurd rfl (hc slot)
  | pool call => exact ⟨[], rfl, fun r hr => nomatch hr⟩
  | meanwhile e => exact ⟨[], rfl, fun r hr => nomatch hr⟩

-- ==================================================== where it comes from

/-- Whether what waits for blocks and what was put before the processor
are submissions of one kind. -/
structure Sourced (S : Submission → Prop) (m : Manager (Journal σ)) : Prop where
  sound : m.untilBlock.Sound
  waiting : ∀ (t : Ticket) (w : Waiting), m.untilBlock.entries[t]? = some w → S w.submission
  processed : ∀ features s v, .process features s v ∈ m.processor.requests → S s

theorem keeps_sourced (S : Submission → Prop) :
    Keeps w.journaled (fun c => ∀ s, c.submission? = some s → S s) (Sourced S) where
  attestation features m s hs h := by
    rcases journaled_cases w.processor features m s w.preset with
      heq | ⟨state, facts, v, metrics, -, heq⟩
    · show Sourced S (m.onAttestation w.processor.journaled features s).value.1
      rw [heq]
      exact h
    · show Sourced S (m.onAttestation w.processor.journaled features s).value.1
      rw [heq]
      refine ⟨sound_queueAfter h.sound features s v, fun t entry hentry => ?_,
        fun features' s' v' hin => ?_⟩
      · rcases entries_queueAfter h.sound hentry with hold | ⟨root, -, rfl⟩
        · exact h.waiting t entry hold
        · exact hs s rfl
      · rcases List.mem_cons.mp hin with heq | hold
        · injection heq with _ heq
          exact heq ▸ hs s rfl
        · exact h.processed features' s' v' hold
  taken m root h := by
    refine ⟨fun s hin features s' heq => ?_, (h.sound.take root).sound h.sound,
      fun t entry hentry => ?_, h.processed⟩
    · obtain ⟨t, entry, hentry, rfl⟩ := BlockQueue.exists_entry_of_mem_take hin
      injection heq with heq
      exact heq ▸ h.waiting t entry hentry
    · exact h.waiting t entry (((h.sound.take root).kept t entry).mp hentry).1
  slot m slot _ h := by
    have hrequests := journaled_slot w m slot
    obtain ⟨metrics, hvalue⟩ := m.onSlot_value w.processor.journaled w.preset slot
    refine ⟨?_, fun t entry hentry => ?_, fun features s v hin => ?_⟩
    · show BlockQueue.Sound (m.onSlot w.preset w.processor.journaled slot).value.untilBlock
      rw [hvalue]
      exact (h.sound.prune slot).sound h.sound
    · change (m.onSlot w.preset w.processor.journaled slot).value.untilBlock.entries[t]? = _
        at hentry
      rw [hvalue] at hentry
      exact h.waiting t entry (((h.sound.prune slot).kept t entry).mp hentry).1
    · change _ ∈ (m.onSlot w.preset w.processor.journaled slot).value.processor.requests at hin
      rw [hrequests, List.mem_append, List.mem_reverse, List.mem_map, List.mem_cons] at hin
      rcases hin with ⟨a, -, heq⟩ | heq | hold
      · cases heq
      · cases heq
      · exact h.processed features s v hold
  pool m c _ h := ⟨h.sound, h.waiting, h.processed⟩
  meanwhile m e _ h := ⟨h.sound, h.waiting, h.processed⟩

/-- Where nothing waits yet, nothing is from anywhere. -/
theorem sourced_journaled {m : Manager σ} {capacity : Nat} {retention : UInt64}
    (hm : m.untilBlock = { capacity, retention }) (S : Submission → Prop) :
    Sourced S m.journaled := by
  refine ⟨?_, fun t entry hentry => ?_, fun features s v hin => absurd hin List.not_mem_nil⟩
  · show m.untilBlock.Sound
    rw [hm]
    exact .empty capacity retention
  · change m.untilBlock.entries[t]? = _ at hentry
    rw [hm] at hentry
    simp at hentry

end Manager

end ChainHead
